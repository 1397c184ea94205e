import Installer.Dialog.Navigation
import Mathlib.Data.List.Forall2
import Mathlib.Data.List.Infix
import Mathlib.Logic.Relation

/-!
# The graph of a sequence

The transitions of the graph are the actions that lead to a dialog, in the order of the sequence.
Names are collected once each, and lists of them are in strict order.
-/
namespace Installer.Dialog

theorem mem_addOnce {x y : String} {xs : List String} : y ∈ addOnce xs x ↔ y ∈ xs ∨ y = x := by
  rw [addOnce]
  split
  case isTrue hx =>
    exact ⟨Or.inl, fun h => h.elim id fun heq => heq ▸ hx⟩
  case isFalse => simp

theorem mem_foldl_addOnce {y : String} (xs seen : List String) :
    y ∈ xs.foldl addOnce seen ↔ y ∈ seen ∨ y ∈ xs := by
  induction xs generalizing seen with
  | nil => simp
  | cons x xs ih => rw [List.foldl_cons, ih, mem_addOnce, List.mem_cons, or_assoc]

theorem nodup_foldl_addOnce (xs : List String) {seen : List String} (h : seen.Nodup) :
    (xs.foldl addOnce seen).Nodup := by
  induction xs generalizing seen with
  | nil => exact h
  | cons x xs ih =>
    refine ih ?_
    rw [addOnce]
    split
    case isTrue => exact h
    case isFalse hx =>
      exact List.nodup_append.2 ⟨h, by simp, by
        rintro y hy _ hz rfl
        exact hx (List.mem_singleton.1 hz ▸ hy)⟩

/-- Names that are collected stay where they are. -/
theorem prefix_foldl_addOnce (xs seen : List String) : seen <+: xs.foldl addOnce seen := by
  induction xs generalizing seen with
  | nil => exact List.prefix_rfl
  | cons x xs ih =>
    refine List.IsPrefix.trans ?_ (ih _)
    rw [addOnce]
    split
    · exact List.prefix_rfl
    · exact List.prefix_append _ _

theorem mem_sortedOnce {y : String} (xs : List String) : y ∈ sortedOnce xs ↔ y ∈ xs := by
  rw [sortedOnce, List.mem_mergeSort, mem_foldl_addOnce]
  simp

/-- The names with a property, each once and in order. -/
structure Lists (xs : List String) (P : String → Prop) : Prop where
  ordered : xs.Pairwise (· < ·)
  mem : ∀ x, x ∈ xs ↔ P x

theorem lists_sortedOnce {xs : List String} {P : String → Prop} (h : ∀ x, x ∈ xs ↔ P x) :
    Lists (sortedOnce xs) P := by
  refine ⟨?_, fun x => (mem_sortedOnce xs).trans (h x)⟩
  have hnodup : (sortedOnce xs).Nodup :=
    (List.mergeSort_perm _ _).nodup_iff.2 (nodup_foldl_addOnce xs .nil)
  have htrans : ∀ a b c : String, decide (a ≤ b) = true → decide (b ≤ c) = true →
      decide (a ≤ c) = true := fun _ _ _ hab hbc =>
    decide_eq_true (String.le_trans (of_decide_eq_true hab) (of_decide_eq_true hbc))
  have htotal : ∀ a b : String, (decide (a ≤ b) || decide (b ≤ a)) = true := fun a b => by
    simpa using String.le_total a b
  have hsorted : (sortedOnce xs).Pairwise fun a b => decide (a ≤ b) = true :=
    List.pairwise_mergeSort htrans htotal _
  refine (hsorted.and hnodup).imp fun h => ?_
  exact String.not_le.1 fun hle => h.2 (String.le_antisymm (of_decide_eq_true h.1) hle)

theorem destination_eq_some {a : Action} {destination : String} :
    a.destination? = some destination ↔
      (a.event = some .newDialog ∨ a.event = some .spawnDialog) ∧ destination ≠ "" ∧
        a.value = destination := by
  have hnavigates : a.event.any Event.navigates = true ↔
      a.event = some .newDialog ∨ a.event = some .spawnDialog := by
    cases a.event with
    | none => simp
    | some event => cases event <;> simp [Event.navigates]
  rw [Action.destination?, Option.ite_none_right_eq_some, Bool.and_eq_true, hnavigates,
    Bool.not_eq_true', ← Bool.not_eq_true, String.isEmpty_iff, Option.some_inj, and_assoc]
  refine and_congr_right fun _ => ⟨?_, ?_⟩
  · rintro ⟨hne, rfl⟩
    exact ⟨hne, rfl⟩
  · rintro ⟨hne, rfl⟩
    exact ⟨hne, rfl⟩

/-- An action that leads to a dialog: its event shows or opens one, and its value names it. -/
def Action.Navigates (a : Action) : Prop :=
  (a.event = some .newDialog ∨ a.event = some .spawnDialog) ∧ a.value ≠ ""

instance (a : Action) : Decidable a.Navigates :=
  inferInstanceAs (Decidable (_ ∧ _))

/-- A transition with all that an action of an entry says about it. -/
structure Transition.Follows (t : Transition) (x : Entry) (a : Action) : Prop where
  source : t.source = x.dialog
  destination : t.destination = a.value
  control : t.control = x.control
  event : a.event = some t.event
  condition : t.condition = a.condition

theorem transition?_eq_none {x : Entry} {a : Action} (h : ¬a.Navigates) :
    x.transition? a = none := by
  have hnone : a.destination? = none :=
    Option.eq_none_iff_forall_ne_some.2 fun d hd => by
      obtain ⟨hevent, hne, rfl⟩ := destination_eq_some.1 hd
      exact h ⟨hevent, hne⟩
  rw [Entry.transition?, hnone]
  cases a.event <;> rfl

/-- An action that leads to a dialog has the transition that says so. -/
theorem exists_follows {a : Action} (h : a.Navigates) (x : Entry) :
    ∃ t, x.transition? a = some t ∧ t.Follows x a := by
  have hdestination : a.destination? = some a.value := destination_eq_some.2 ⟨h.1, h.2, rfl⟩
  obtain ⟨event, hevent⟩ : ∃ event, a.event = some event :=
    h.1.elim (fun h => ⟨_, h⟩) fun h => ⟨_, h⟩
  exact ⟨⟨x.dialog, a.value, x.control, event, a.condition⟩,
    by rw [Entry.transition?, hevent, hdestination], rfl, rfl, rfl, hevent, rfl⟩

theorem transition?_eq_some {x : Entry} {a : Action} {t : Transition}
    (h : x.transition? a = some t) : a.Navigates ∧ t.Follows x a := by
  by_cases ha : a.Navigates
  · obtain ⟨u, hu, hfollows⟩ := exists_follows ha x
    obtain rfl := Option.some.inj (hu.symm.trans h)
    exact ⟨ha, hfollows⟩
  · rw [transition?_eq_none ha] at h
    cases h

/-- The actions that lead away from a dialog, each with its entry, in their order. -/
def Resolved.exits (r : Resolved) (dialog : String) : List (Entry × Action) :=
  (r.entries.filter (·.dialog = dialog)).flatMap fun x =>
    (x.actions.filter fun a => a.Navigates).map (x, ·)

theorem forall₂_transitions (x : Entry) : List.Forall₂ (fun xa t => t.Follows xa.1 xa.2)
    ((x.actions.filter fun a => a.Navigates).map (x, ·)) x.transitions := by
  rw [Entry.transitions]
  induction x.actions with
  | nil => exact .nil
  | cons a as ih =>
    by_cases ha : a.Navigates
    · obtain ⟨t, ht, hfollows⟩ := exists_follows ha x
      rw [List.filter_cons_of_pos (by simpa using ha), List.filterMap_cons_some ht]
      exact .cons hfollows ih
    · rw [List.filter_cons_of_neg (by simpa using ha),
        List.filterMap_cons_none (transition?_eq_none ha)]
      exact ih

theorem source_of_mem_transitions {x : Entry} {t : Transition} (ht : t ∈ x.transitions) :
    t.source = x.dialog := by
  obtain ⟨a, _, ha⟩ := List.mem_filterMap.1 ht
  exact (transition?_eq_some ha).2.source

/-- The transitions of a dialog are those of its entries. -/
theorem leaving_ofResolved (r : Resolved) (dialog : String) :
    (Navigation.ofResolved r).leaving dialog =
      (r.entries.filter (·.dialog = dialog)).flatMap Entry.transitions := by
  change (r.entries.flatMap Entry.transitions).filter (·.source == dialog) = _
  induction r.entries with
  | nil => rfl
  | cons x xs ih =>
    rw [List.flatMap_cons, List.filter_append, ih]
    by_cases hx : x.dialog = dialog
    · rw [List.filter_cons_of_pos (by simpa using hx), List.flatMap_cons,
        List.filter_eq_self.2 fun t ht => by simpa [source_of_mem_transitions ht] using hx]
    · rw [List.filter_cons_of_neg (by simpa using hx),
        List.filter_eq_nil_iff.2 fun t ht => by simpa [source_of_mem_transitions ht] using hx,
        List.nil_append]

/-- A dialog has one transition for every action that leads away from it, in the order of the
actions. -/
theorem forall₂_leaving (r : Resolved) (dialog : String) :
    List.Forall₂ (fun xa t => t.Follows xa.1 xa.2) (r.exits dialog)
      ((Navigation.ofResolved r).leaving dialog) := by
  rw [leaving_ofResolved, Resolved.exits]
  induction r.entries.filter (·.dialog = dialog) with
  | nil => exact .nil
  | cons x xs ih =>
    rw [List.flatMap_cons, List.flatMap_cons]
    exact List.rel_append (forall₂_transitions x) ih

namespace Navigation

variable (n : Navigation)

/-- The successors of a dialog are the destinations of its transitions. -/
theorem lists_successors (dialog : String) :
    Lists (n.successors dialog) fun x => ∃ t ∈ n.leaving dialog, t.destination = x :=
  lists_sortedOnce fun _ => List.mem_map

end Navigation

/-- The successors of a dialog are the destinations of the actions published for its controls. -/
theorem mem_successors {r : Resolved} {source destination : String} :
    destination ∈ (Navigation.ofResolved r).successors source ↔
      ∃ x ∈ r.entries, x.dialog = source ∧ ∃ a ∈ x.actions, a.destination? = some destination := by
  rw [((Navigation.ofResolved r).lists_successors source).mem, leaving_ofResolved]
  simp only [List.mem_flatMap, List.mem_filter, Entry.transitions, List.mem_filterMap,
    decide_eq_true_eq]
  constructor
  · rintro ⟨t, ⟨x, ⟨hx, hsource⟩, a, ha, ht⟩, rfl⟩
    obtain ⟨hnavigates, hfollows⟩ := transition?_eq_some ht
    refine ⟨x, hx, hsource, a, ha, ?_⟩
    rw [hfollows.destination]
    exact destination_eq_some.2 ⟨hnavigates.1, hnavigates.2, rfl⟩
  · rintro ⟨x, hx, hsource, a, ha, hdestination⟩
    obtain ⟨hevent, hne, rfl⟩ := destination_eq_some.1 hdestination
    obtain ⟨t, ht, hfollows⟩ := exists_follows ⟨hevent, hne⟩ x
    exact ⟨t, ⟨x, ⟨hx, hsource⟩, a, ha, ht⟩, hfollows.destination⟩

end Installer.Dialog
