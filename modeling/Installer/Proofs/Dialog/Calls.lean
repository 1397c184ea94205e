import Installer.Dialog.Sequence
import Mathlib.Data.List.Infix

/-!
# Calls on a sequence

A sequence is made by calls that publish, register and clear. What a row of calls leaves at one
control is read off the calls themselves: the calls behind the last clearing of that control count,
and of these only those that publish there.
-/
namespace Installer.Dialog

/-- A control, by its dialog and its own name. -/
structure Address where
  dialog : String
  control : String
deriving DecidableEq

def Entry.address (e : Entry) : Address :=
  ⟨e.dialog, e.control⟩

theorem Entry.isOf_iff {e : Entry} {x : Address} : e.isOf x.dialog x.control ↔ e.address = x := by
  obtain ⟨dialog, control⟩ := x
  simp [isOf, address]

namespace Sequence

/-- A call on a sequence. -/
inductive Call where
  | on (dialog : Target) (control : String) (ps : List Publication)
  | register (d : Definition)
  | clear (dialog control : String)
deriving DecidableEq

def perform (s : Sequence) : Call → Sequence
  | .on dialog control ps => s.on dialog control ps
  | .register d => s.register d
  | .clear dialog control => s.clear dialog control

def performAll (s : Sequence) (calls : List Call) : Sequence :=
  calls.foldl perform s

theorem performAll_concat (s : Sequence) (calls : List Call) (c : Call) :
    s.performAll (calls ++ [c]) = (s.performAll calls).perform c := by
  rw [performAll, List.foldl_append]
  rfl

namespace Call

def clears (x : Address) : Call → Bool
  | .clear dialog control => decide (Address.mk dialog control = x)
  | _ => false

/-- The actions that the call publishes for the control, if it publishes there at all. -/
def published? (x : Address) : Call → Option (List Action)
  | .on dialog control ps =>
      if Address.mk dialog.id control = x then some (ps.map (·.action)) else none
  | _ => none

def concerns (x : Address) (c : Call) : Bool :=
  c.clears x || (c.published? x).isSome

end Call

/-- The calls behind the last one that clears the control. -/
def since (x : Address) (calls : List Call) : List Call :=
  (calls.reverse.takeWhile fun c => !c.clears x).reverse

/-- All actions published for the control since it was last cleared. -/
def posted (x : Address) (calls : List Call) : List Action :=
  ((since x calls).filterMap (·.published? x)).flatten

/-- The place of the first call that publishes for the control since it was last cleared. -/
def opened? (x : Address) (calls : List Call) : Option Nat :=
  ((since x calls).findIdx? fun c => (c.published? x).isSome).map
    (calls.length - (since x calls).length + ·)

section step

variable (x : Address) (calls : List Call) (c : Call)

theorem since_concat :
    since x (calls ++ [c]) = if c.clears x then [] else since x calls ++ [c] := by
  rw [since, List.reverse_append, List.reverse_singleton, List.singleton_append,
    List.takeWhile_cons]
  cases c.clears x <;> simp [since]

theorem length_since_le : (since x calls).length ≤ calls.length := by
  have hle := (List.takeWhile_sublist (fun c => !c.clears x) (l := calls.reverse)).length_le
  rwa [List.length_reverse, ← List.length_reverse] at hle

theorem posted_concat : posted x (calls ++ [c]) =
    if c.clears x then [] else posted x calls ++ (c.published? x).getD [] := by
  rw [posted, since_concat]
  split
  · rfl
  · rw [List.filterMap_append, List.flatten_append, ← posted]
    cases hc : c.published? x <;> simp [hc]

theorem opened?_concat : opened? x (calls ++ [c]) =
    if c.clears x then none
    else (opened? x calls).or ((c.published? x).map fun _ => calls.length) := by
  rw [opened?, since_concat]
  split
  · rfl
  · have hlength := length_since_le x calls
    have hshift : calls.length + 1 - ((since x calls).length + 1) =
        calls.length - (since x calls).length := by omega
    rw [List.findIdx?_append, List.length_append, List.length_append, List.length_singleton,
      hshift, opened?]
    cases hfirst : (since x calls).findIdx? fun c => (c.published? x).isSome with
    | some i => rfl
    | none =>
      cases hc : c.published? x with
      | none => simp [hc]
      | some as =>
        simp [hc]
        omega

end step

/-- A call leaves what is published for a control that it is not about. -/
theorem concat_of_not_concerns {x : Address} {c : Call} (h : c.concerns x = false)
    (calls : List Call) : posted x (calls ++ [c]) = posted x calls ∧
      opened? x (calls ++ [c]) = opened? x calls := by
  obtain ⟨hclears, hpublished⟩ : c.clears x = false ∧ c.published? x = none := by
    simpa [Call.concerns] using h
  rw [posted_concat, opened?_concat, hclears, hpublished]
  simp

section published

variable (dialog : Target) (control : String) (ps : List Publication) (x : Address)
  (calls : List Call)

theorem posted_on : posted x (calls ++ [.on dialog control ps]) =
    if x = ⟨dialog.id, control⟩ then posted x calls ++ ps.map (·.action)
    else posted x calls := by
  rw [posted_concat]
  by_cases hx : x = ⟨dialog.id, control⟩
  · simp [Call.clears, Call.published?, hx]
  · simp [Call.clears, Call.published?, hx, Ne.symm hx]

theorem opened?_on : opened? x (calls ++ [.on dialog control ps]) =
    if x = ⟨dialog.id, control⟩ then (opened? x calls).or (some calls.length)
    else opened? x calls := by
  rw [opened?_concat]
  by_cases hx : x = ⟨dialog.id, control⟩
  · simp [Call.clears, Call.published?, hx]
  · simp [Call.clears, Call.published?, hx, Ne.symm hx]

end published

theorem opened?_lt {x : Address} {calls : List Call} {i : Nat} (h : opened? x calls = some i) :
    i < calls.length := by
  obtain ⟨j, hj, rfl⟩ := Option.map_eq_some_iff.1 h
  have hlt := (List.findIdx?_eq_some_iff_findIdx_eq.1 hj).1
  have hle := length_since_le x calls
  omega

/-- What is published for a control depends on nothing but the calls about it. -/
theorem posted_filter_concerns (x : Address) (calls : List Call) :
    posted x (calls.filter (·.concerns x)) = posted x calls ∧
      (opened? x (calls.filter (·.concerns x))).isSome = (opened? x calls).isSome := by
  induction calls using List.reverseRecOn with
  | nil => exact ⟨rfl, rfl⟩
  | append_singleton calls c ih =>
    rw [List.filter_append]
    by_cases hc : c.concerns x = true
    · rw [List.filter_cons_of_pos hc, List.filter_nil, posted_concat, posted_concat,
        opened?_concat, opened?_concat, ih.1]
      refine ⟨rfl, ?_⟩
      split
      · rfl
      · rw [Option.isSome_or, Option.isSome_or, ih.2, Option.isSome_map, Option.isSome_map]
    · obtain ⟨hposted, hopened⟩ := concat_of_not_concerns (Bool.eq_false_iff.2 hc) calls
      rwa [List.filter_cons_of_neg hc, List.filter_nil, List.append_nil, hposted, hopened]

theorem posted_eq_nil {x : Address} {calls : List Call} (h : opened? x calls = none) :
    posted x calls = [] := by
  rw [opened?, Option.map_eq_none_iff, List.findIdx?_eq_none_iff] at h
  rw [posted, List.flatten_eq_nil_iff]
  intro as has
  obtain ⟨c, hc, hpublished⟩ := List.mem_filterMap.1 has
  simpa [hpublished] using h c hc

section append

variable (x : Address) (as : List Action)

theorem map_address_append (es : List Entry) :
    (append x.dialog x.control as es).map Entry.address =
      if x ∈ es.map Entry.address then es.map Entry.address
      else es.map Entry.address ++ [x] := by
  induction es with
  | nil => rfl
  | cons e es ih =>
    rw [append]
    by_cases he : e.address = x
    · rw [if_pos (Entry.isOf_iff.2 he), if_pos (by simp [he])]
      rfl
    · rw [if_neg (mt Entry.isOf_iff.1 he), List.map_cons, ih, List.map_cons]
      by_cases hx : x ∈ es.map Entry.address
      · rw [if_pos hx, if_pos (List.mem_cons_of_mem _ hx)]
      · rw [if_neg hx, if_neg (by simpa [Ne.symm he] using hx), List.cons_append]

theorem mem_address_append {y : Address} {es : List Entry} :
    y ∈ (append x.dialog x.control as es).map Entry.address ↔
      y ∈ es.map Entry.address ∨ y = x := by
  rw [map_address_append]
  split
  case isTrue hx => exact ⟨Or.inl, fun h => h.elim id fun heq => heq ▸ hx⟩
  case isFalse => rw [List.mem_append, List.mem_singleton]

/-- Appending puts actions behind those of one control and leaves the others alone. -/
theorem actions_of_mem_append {es : List Entry} (kept : Address → List Action)
    (hdistinct : (es.map Entry.address).Nodup) (hkept : ∀ e ∈ es, e.actions = kept e.address)
    (hnew : x ∉ es.map Entry.address → kept x = []) :
    ∀ f ∈ append x.dialog x.control as es,
      f.actions = if f.address = x then kept x ++ as else kept f.address := by
  induction es with
  | nil =>
    intro f hf
    obtain rfl := List.mem_singleton.1 hf
    have hx : Entry.address ⟨x.dialog, x.control, as⟩ = x := rfl
    rw [if_pos hx, hnew (by simp), List.nil_append]
  | cons e es ih =>
    obtain ⟨hhead, htail⟩ := List.nodup_cons.1 hdistinct
    obtain ⟨hfirst, hrest⟩ := List.forall_mem_cons.1 hkept
    intro f hf
    rw [append] at hf
    by_cases he : e.address = x
    · rw [if_pos (Entry.isOf_iff.2 he)] at hf
      rcases List.mem_cons.1 hf with rfl | hf
      · have hx : Entry.address { e with actions := e.actions ++ as } = x := he
        rw [if_pos hx, ← he, ← hfirst]
      · have hother : f.address ≠ x := fun h =>
          hhead (he.trans h.symm ▸ List.mem_map_of_mem hf)
        rw [if_neg hother, hrest f hf]
    · rw [if_neg (mt Entry.isOf_iff.1 he)] at hf
      rcases List.mem_cons.1 hf with rfl | hf
      · rw [if_neg he, hfirst]
      · exact ih htail hrest (fun hx => hnew (by simpa [Ne.symm he] using hx)) f hf

end append

theorem registerAny_spec (s : Sequence) (d : Option Definition) :
    (s.registerAny d).strict = s.strict ∧ (s.registerAny d).entries = s.entries := by
  cases d with
  | none => exact ⟨rfl, rfl⟩
  | some d =>
    rw [registerAny, register]
    split <;> exact ⟨rfl, rfl⟩

theorem stamp_congr {s t : Sequence} (h : s.strict = t.strict) : s.stamp = t.stamp := by
  funext a
  rw [stamp, stamp, h]

/-- Publishing appends to the entries; definitions that come along leave them alone. -/
theorem on_spec (s : Sequence) (dialog : Target) (control : String) (ps : List Publication) :
    (s.on dialog control ps).strict = s.strict ∧ (s.on dialog control ps).entries =
      append dialog.id control ((ps.map (·.action)).map s.stamp) s.entries := by
  have hfold : ∀ (t : Sequence), t.strict = s.strict ∧ t.entries = s.entries →
      (ps.foldl (fun t p => t.registerAny p.definition) t).strict = s.strict ∧
      (ps.foldl (fun t p => t.registerAny p.definition) t).entries = s.entries := by
    induction ps with
    | nil => exact fun t h => h
    | cons p ps ih =>
      intro t h
      obtain ⟨hstrict, hentries⟩ := t.registerAny_spec p.definition
      exact ih _ ⟨hstrict.trans h.1, hentries.trans h.2⟩
  obtain ⟨hstrict, hentries⟩ := hfold _ (s.registerAny_spec dialog.definition?)
  refine ⟨hstrict, ?_⟩
  rw [on]
  simp only [stamp_congr hstrict, hentries, List.map_map, Function.comp_def]

theorem strict_perform (s : Sequence) (c : Call) : (s.perform c).strict = s.strict := by
  cases c with
  | on dialog control ps => exact (s.on_spec dialog control ps).1
  | register d => exact (s.registerAny_spec (some d)).1
  | clear dialog control => rfl

theorem strict_performAll (s : Sequence) (calls : List Call) :
    (s.performAll calls).strict = s.strict := by
  induction calls generalizing s with
  | nil => rfl
  | cons c calls ih => exact (ih _).trans (s.strict_perform c)

/-- A sequence keeps what its calls published: an entry for each control for which a call published
since it was last cleared, in the order of the first such calls. -/
structure Keeps (calls : List Call) (s : Sequence) : Prop where
  actions : ∀ e ∈ s.entries, e.actions = (posted e.address calls).map s.stamp
  entry : ∀ x, x ∈ s.entries.map Entry.address ↔ (opened? x calls).isSome
  ordered : (s.entries.map Entry.address).Pairwise fun x y => opened? x calls < opened? y calls

namespace Keeps

variable {calls : List Call} {s : Sequence}

theorem exists_opened? (h : Keeps calls s) {x : Address} (hx : x ∈ s.entries.map Entry.address) :
    ∃ i, opened? x calls = some i :=
  Option.isSome_iff_exists.1 ((h.entry x).1 hx)

theorem opened?_eq_none (h : Keeps calls s) {x : Address}
    (hx : x ∉ s.entries.map Entry.address) : opened? x calls = none := by
  simpa using mt (h.entry x).2 hx

theorem nodup (h : Keeps calls s) : (s.entries.map Entry.address).Nodup :=
  h.ordered.imp_of_mem fun {x y} hx _ hlt heq => by
    obtain ⟨i, hi⟩ := h.exists_opened? hx
    rw [← heq, hi] at hlt
    exact absurd (Option.some_lt_some.1 hlt) (lt_irrefl i)

/-- A call that is not about the control of any entry changes nothing. -/
theorem of_same {t : Sequence} {c : Call} (h : Keeps calls s) (hstrict : t.strict = s.strict)
    (hentries : t.entries = s.entries) (hc : ∀ x, c.concerns x = false) :
    Keeps (calls ++ [c]) t := by
  have hnothing := fun x => concat_of_not_concerns (hc x) calls
  constructor
  · intro e he
    rw [(hnothing _).1, stamp_congr hstrict]
    exact h.actions e (hentries ▸ he)
  · intro x
    rw [hentries, (hnothing x).2]
    exact h.entry x
  · simp only [hentries, hnothing]
    exact h.ordered

theorem clear (h : Keeps calls s) (dialog control : String) :
    Keeps (calls ++ [.clear dialog control]) (s.clear dialog control) := by
  let c : Call := .clear dialog control
  have hentries : (s.clear dialog control).entries =
      s.entries.filter fun e => e.address ≠ ⟨dialog, control⟩ := by
    refine List.filter_congr fun e _ => ?_
    have hiff := Entry.isOf_iff (e := e) (x := ⟨dialog, control⟩)
    rw [Bool.eq_iff_iff, Bool.not_eq_true', decide_eq_true_eq, ← Bool.not_eq_true]
    exact not_congr hiff
  have hother : ∀ x, x ≠ ⟨dialog, control⟩ →
      posted x (calls ++ [c]) = posted x calls ∧ opened? x (calls ++ [c]) = opened? x calls :=
    fun x hx => concat_of_not_concerns
      (by simpa [c, Call.concerns, Call.clears, Call.published?] using hx.symm) calls
  have hcleared : opened? ⟨dialog, control⟩ (calls ++ [c]) = none := by
    rw [opened?_concat, if_pos (by simp [c, Call.clears])]
  have hmem : ∀ x, x ∈ (s.clear dialog control).entries.map Entry.address ↔
      x ∈ s.entries.map Entry.address ∧ x ≠ ⟨dialog, control⟩ := by
    intro x
    simp only [hentries, List.mem_map, List.mem_filter, decide_eq_true_eq]
    constructor
    · rintro ⟨e, ⟨he, hne⟩, rfl⟩
      exact ⟨⟨e, he, rfl⟩, hne⟩
    · rintro ⟨⟨e, he, rfl⟩, hne⟩
      exact ⟨e, ⟨he, hne⟩, rfl⟩
  constructor
  · intro e he
    obtain ⟨hold, hne⟩ := List.mem_filter.1 (hentries ▸ he)
    rw [(hother _ (by simpa using hne)).1]
    exact h.actions e hold
  · intro x
    rw [hmem, h.entry]
    by_cases hx : x = ⟨dialog, control⟩
    · rw [hx, hcleared]
      simp
    · rw [(hother x hx).2]
      exact and_iff_left hx
  · have hsub : ((s.clear dialog control).entries.map Entry.address).Sublist
        (s.entries.map Entry.address) := by
      rw [hentries]
      exact List.filter_sublist.map _
    refine (h.ordered.sublist hsub).imp_of_mem fun {x y} hx hy hlt => ?_
    rw [(hother x ((hmem x).1 hx).2).2, (hother y ((hmem y).1 hy).2).2]
    exact hlt

/-- A control that has an entry keeps the place of its first call. -/
theorem opened?_on_of_mem (h : Keeps calls s) (dialog : Target) (control : String)
    (ps : List Publication) {x : Address} (hx : x ∈ s.entries.map Entry.address) :
    opened? x (calls ++ [.on dialog control ps]) = opened? x calls := by
  rw [opened?_on]
  split
  · obtain ⟨i, hi⟩ := h.exists_opened? hx
    rw [hi, Option.some_or]
  · rfl

theorem on (h : Keeps calls s) (dialog : Target) (control : String) (ps : List Publication) :
    Keeps (calls ++ [.on dialog control ps]) (s.on dialog control ps) := by
  let here : Address := ⟨dialog.id, control⟩
  obtain ⟨hstrict, hentries⟩ := s.on_spec dialog control ps
  constructor
  · have hactions := actions_of_mem_append here ((ps.map (·.action)).map s.stamp)
      (fun x => (posted x calls).map s.stamp) h.nodup h.actions fun hnew => by
        rw [posted_eq_nil (h.opened?_eq_none hnew), List.map_nil]
    intro e he
    rw [hactions e (hentries ▸ he), stamp_congr hstrict, posted_on]
    by_cases hx : e.address = here
    · rw [if_pos hx, if_pos hx, hx, List.map_append]
    · rw [if_neg hx, if_neg hx]
  · intro x
    have hmem : x ∈ (s.on dialog control ps).entries.map Entry.address ↔
        x ∈ s.entries.map Entry.address ∨ x = here := by
      rw [hentries]
      exact mem_address_append here _
    rw [hmem, opened?_on, h.entry]
    by_cases hx : x = here
    · rw [if_pos hx]
      exact iff_of_true (Or.inr hx) (by simp)
    · rw [if_neg hx, or_iff_left hx]
  · have hordered : (s.entries.map Entry.address).Pairwise fun x y =>
        opened? x (calls ++ [.on dialog control ps]) <
          opened? y (calls ++ [.on dialog control ps]) :=
      h.ordered.imp_of_mem fun {x y} hx hy hlt => by
        rwa [h.opened?_on_of_mem dialog control ps hx, h.opened?_on_of_mem dialog control ps hy]
    have haddresses := map_address_append here ((ps.map (·.action)).map s.stamp) s.entries
    rw [hentries, haddresses]
    by_cases hnew : here ∈ s.entries.map Entry.address
    · rw [if_pos hnew]
      exact hordered
    · rw [if_neg hnew]
      refine List.pairwise_append.2 ⟨hordered, List.pairwise_singleton _ _, fun x hx y hy => ?_⟩
      obtain rfl := List.mem_singleton.1 hy
      obtain ⟨i, hi⟩ := h.exists_opened? hx
      rw [h.opened?_on_of_mem dialog control ps hx, hi, opened?_on, if_pos rfl,
        h.opened?_eq_none hnew, Option.none_or]
      exact Option.some_lt_some.2 (opened?_lt hi)

/-- Every call keeps what was published. -/
theorem perform (h : Keeps calls s) (c : Call) : Keeps (calls ++ [c]) (s.perform c) := by
  cases c with
  | on dialog control ps => exact h.on dialog control ps
  | register d =>
    obtain ⟨hstrict, hentries⟩ := s.registerAny_spec (some d)
    exact h.of_same hstrict hentries fun _ => rfl
  | clear dialog control => exact h.clear dialog control

end Keeps

/-- A sequence that starts empty keeps what all calls on it published. -/
theorem keeps_performAll (strict : Bool) (calls : List Call) :
    Keeps calls (({ strict } : Sequence).performAll calls) := by
  induction calls using List.reverseRecOn with
  | nil => exact ⟨by simp [performAll], by simp [performAll, opened?, since], .nil⟩
  | append_singleton calls c ih =>
    rw [performAll_concat]
    exact ih.perform c

end Sequence

end Installer.Dialog
