import Installer.Proofs.Dialog.Calls

/-!
# Published actions

Resolving a sequence gives one entry for each control at which something is published, with all the
actions that were published there since the control was last cleared, in the order that each of them
comes to. What is done at other controls does not matter.
-/
namespace Installer.Dialog

open Sequence

/-- A list in the order of its keys. Elements of one key keep their order. -/
structure StablySorted {α : Type} (key : α → Nat) (xs ys : List α) : Prop where
  perm : ys.Perm xs
  sorted : ys.Pairwise fun a b => key a ≤ key b
  stable : ∀ k, ys.filter (key · = k) = xs.filter (key · = k)

theorem stablySorted_mergeSort {α : Type} (key : α → Nat) (xs : List α) :
    StablySorted key xs (xs.mergeSort fun a b => key a ≤ key b) := by
  have htrans : ∀ a b c : α, decide (key a ≤ key b) = true → decide (key b ≤ key c) = true →
      decide (key a ≤ key c) = true := by
    intro a b c hab hbc
    simp only [decide_eq_true_eq] at hab hbc ⊢
    exact hab.trans hbc
  have htotal : ∀ a b : α, (decide (key a ≤ key b) || decide (key b ≤ key a)) = true := by
    intro a b
    simpa using Nat.le_total (key a) (key b)
  have hperm := List.mergeSort_perm xs fun a b => decide (key a ≤ key b)
  refine ⟨hperm, (List.pairwise_mergeSort htrans htotal xs).imp (by simp), fun k => ?_⟩
  -- The elements of one key are sorted as they are, so sorting keeps them as a sublist.
  have hclass : (xs.filter (key · = k)).Pairwise fun a b => decide (key a ≤ key b) = true := by
    rw [List.pairwise_filter]
    refine List.pairwise_of_forall fun a b ha hb => ?_
    simp only [decide_eq_true_eq] at ha hb ⊢
    rw [ha, hb]
  have hsublist := (List.sublist_mergeSort htrans htotal hclass List.filter_sublist).filter
    (key · = k)
  rw [List.filter_filter] at hsublist
  simp only [Bool.and_self] at hsublist
  exact (hsublist.eq_of_length (hperm.filter _).length_eq.symm).symm

namespace Action

/-- An action as it is written for its control. Its place among the actions of the control counts
from one, and orders it where there are several. -/
def settled (strict several : Bool) (place : Nat) (a : Action) : Action where
  event := a.event
  property := a.property.filter (!·.isEmpty)
  value := a.value
  condition := if Text.trim a.condition = "" then "1" else Text.trim a.condition
  order := a.order.or (if strict then some 5 else if several then some place else none)

/-- Where an action goes among the others of its control. -/
def rank (a : Action) : Nat :=
  a.order.getD 0

end Action

/-- The actions of a control as they are written, in the order of their publication. -/
def settle (strict : Bool) (as : List Action) : List Action :=
  as.zipIdx.map fun (a, i) => a.settled strict (1 < as.length) (i + 1)

theorem conditionText_eq (condition : String) : conditionText condition =
    if Text.trim condition = "" then "1" else Text.trim condition := by
  rw [conditionText]
  simp only [String.isEmpty_iff]
  rfl

/-- An entry of actions that a sequence stamped resolves to the stable sort of what these come to. -/
theorem stablySorted_resolve (s : Sequence) (x : Address) (as : List Action) :
    StablySorted Action.rank (settle s.strict as)
      (Entry.resolve ⟨x.dialog, x.control, as.map s.stamp⟩).actions := by
  have hsettle : (as.map s.stamp).zipIdx.map (fun (a, i) =>
      { a with
        property := a.property.filter (!·.isEmpty)
        condition := conditionText a.condition
        order := a.order.or (if 1 < (as.map s.stamp).length then some (i + 1) else none) }) =
      settle s.strict as := by
    rw [settle, List.zipIdx_map, List.map_map]
    refine List.map_congr_left fun (a, i) _ => ?_
    simp only [Function.comp_apply, Prod.map_apply, Action.settled, ← conditionText_eq, stamp]
    cases s.strict <;> cases horder : a.order <;> simp [Action.withOrder, strictOrder, horder]
  have hsorted := stablySorted_mergeSort Action.rank (settle s.strict as)
  rw [← hsettle] at hsorted ⊢
  exact hsorted

theorem filter_address_eq {es : List Entry} (h : (es.map Entry.address).Nodup) {e : Entry}
    (he : e ∈ es) : es.filter (·.address = e.address) = [e] := by
  induction es with
  | nil => simp at he
  | cons d es ih =>
    obtain ⟨hhead, htail⟩ := List.nodup_cons.1 h
    rcases List.mem_cons.1 he with rfl | he
    · rw [List.filter_cons_of_pos (by simp), List.filter_eq_nil_iff.2 fun f hf => ?_]
      exact fun heq => hhead (of_decide_eq_true heq ▸ List.mem_map_of_mem hf)
    · have hne : d.address ≠ e.address := fun heq => hhead (heq ▸ List.mem_map_of_mem he)
      rw [List.filter_cons_of_neg (by simpa using hne), ih htail he]

section run

variable (strict : Bool) (calls : List Call)

/-- What a row of calls on an empty sequence comes to. -/
def resolvedRun : Resolved :=
  (({ strict } : Sequence).performAll calls).resolve

/-- The entry of a control holds what was posted there, if anything was. -/
theorem filter_entries_resolvedRun (x : Address) :
    (resolvedRun strict calls).entries.filter (·.address = x) =
      if posted x calls = [] then []
      else [Entry.resolve ⟨x.dialog, x.control,
        (posted x calls).map (({ strict } : Sequence).stamp)⟩] := by
  let s := ({ strict } : Sequence).performAll calls
  have hkeeps : Keeps calls s := keeps_performAll strict calls
  have hstamp : s.stamp = ({ strict } : Sequence).stamp :=
    stamp_congr (strict_performAll _ calls)
  have hresolve : (resolvedRun strict calls).entries.filter (·.address = x) =
      ((s.entries.filter (·.address = x)).filter fun e => !e.actions.isEmpty).map Entry.resolve := by
    rw [resolvedRun, Sequence.resolve, List.filter_map, List.filter_filter, List.filter_filter]
    congr 1
    refine List.filter_congr fun e _ => ?_
    rw [Function.comp_apply, Bool.and_comm]
    rfl
  rw [hresolve]
  by_cases hx : x ∈ s.entries.map Entry.address
  · obtain ⟨e, he, rfl⟩ := List.mem_map.1 hx
    have hactions := hkeeps.actions e he
    have heta : e = ⟨e.address.dialog, e.address.control, e.actions⟩ := rfl
    rw [filter_address_eq hkeeps.nodup he]
    by_cases hposted : posted e.address calls = []
    · rw [if_pos hposted, List.filter_cons_of_neg (by simp [hactions, hposted])]
      rfl
    · rw [if_neg hposted, List.filter_cons_of_pos (by simp [hactions, hposted]), heta, hactions,
        hstamp]
      rfl
  · have hnone : opened? x calls = none := hkeeps.opened?_eq_none hx
    have hempty : s.entries.filter (·.address = x) = [] := by
      rw [List.filter_eq_nil_iff]
      exact fun e he heq => hx (of_decide_eq_true heq ▸ List.mem_map_of_mem he)
    rw [hempty, if_pos (posted_eq_nil hnone)]
    rfl

/-- The entry of a control depends on nothing but the calls about it. -/
theorem filter_entries_congr {calls others : List Call} {x : Address}
    (h : others.filter (·.concerns x) = calls.filter (·.concerns x)) :
    (resolvedRun strict others).entries.filter (·.address = x) =
      (resolvedRun strict calls).entries.filter (·.address = x) := by
  have hposted : posted x others = posted x calls := by
    rw [← (posted_filter_concerns x others).1, h, (posted_filter_concerns x calls).1]
  rw [filter_entries_resolvedRun, filter_entries_resolvedRun, hposted]

theorem ordered_resolvedRun : (resolvedRun strict calls).entries.Pairwise fun e f =>
    opened? e.address calls < opened? f.address calls := by
  have hordered := List.pairwise_map.1 (keeps_performAll strict calls).ordered
  exact List.pairwise_map.2 (hordered.filter _)

/-- A run of calls leaves one entry at each control at which actions were posted since it was last
cleared. It holds all these actions as they are written, sorted by their orders with ties as they
were posted, and depends on no call about another control. The entries stand in the order of the
first calls that opened them. -/
theorem entries_of_calls :
    (∀ x, (posted x calls = [] ∧ (resolvedRun strict calls).entries.filter (·.address = x) = []) ∨
      (posted x calls ≠ [] ∧ ∃ e, (resolvedRun strict calls).entries.filter (·.address = x) = [e] ∧
        StablySorted Action.rank (settle strict (posted x calls)) e.actions)) ∧
    (∀ x others, others.filter (·.concerns x) = calls.filter (·.concerns x) →
      (resolvedRun strict others).entries.filter (·.address = x) =
        (resolvedRun strict calls).entries.filter (·.address = x)) ∧
    (resolvedRun strict calls).entries.Pairwise fun e f =>
      opened? e.address calls < opened? f.address calls := by
  refine ⟨fun x => ?_, fun x others h => filter_entries_congr strict h,
    ordered_resolvedRun strict calls⟩
  rw [filter_entries_resolvedRun]
  by_cases hposted : posted x calls = []
  · exact Or.inl ⟨hposted, if_pos hposted⟩
  · exact Or.inr ⟨hposted, _, if_neg hposted, stablySorted_resolve { strict } x _⟩

end run

end Installer.Dialog
