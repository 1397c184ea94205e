import Installer.Proofs.Dialog.Graph
import Mathlib.Data.List.Perm.Subperm
import Mathlib.Logic.Relation

/-!
# Ways through the dialogs

The graph of a sequence has the dialogs that the sequence defines, publishes for and leads to. A
search from one of them follows every dialog that it finds, each once, so it needs no more steps than
there are dialogs, and it finds just what a row of transitions leads to, whatever cycles there are.
-/
namespace Installer.Dialog

namespace Navigation

/-- One transition leads from a dialog to the other. -/
def Leads (n : Navigation) (source destination : String) : Prop :=
  destination ∈ n.successors source

theorem leads_iff {n : Navigation} {source destination : String} :
    n.Leads source destination ↔ destination ∈ (n.leaving source).map (·.destination) :=
  mem_sortedOnce _

/-- The state of a search before it follows the dialog at `next`. -/
structure Searching (n : Navigation) (start : String) (next : Nat) (found : List String) : Prop where
  nodup : found.Nodup
  known : ∀ x ∈ found, x ∈ n.dialogs
  started : start ∈ found
  reached : ∀ x ∈ found, Relation.ReflTransGen n.Leads start x
  followed : ∀ x ∈ found.take next, ∀ y, n.Leads x y → y ∈ found

namespace Searching

variable {n : Navigation} {start : String} {next : Nat} {found : List String}

/-- A search begins with the dialog itself. -/
theorem begin (h : start ∈ n.dialogs) : n.Searching start 0 [start] where
  nodup := by simp
  known := by simpa using h
  started := List.mem_singleton_self start
  reached := by simpa using Relation.ReflTransGen.refl
  followed := by simp

/-- A step finds the successors of the dialog that it follows. -/
theorem step (hclosed : ∀ x y, n.Leads x y → y ∈ n.dialogs) (h : n.Searching start next found)
    {x : String} (hx : found[next]? = some x) :
    n.Searching start (next + 1)
      (((n.leaving x).map (·.destination)).foldl addOnce found) := by
  have hmem : ∀ y, y ∈ ((n.leaving x).map (·.destination)).foldl addOnce found ↔
      y ∈ found ∨ n.Leads x y := fun y => by rw [mem_foldl_addOnce, leads_iff]
  have hfound : x ∈ found := List.mem_of_getElem? hx
  have htake : (((n.leaving x).map (·.destination)).foldl addOnce found).take (next + 1) =
      found.take next ++ [x] := by
    obtain ⟨more, hmore⟩ := prefix_foldl_addOnce ((n.leaving x).map (·.destination)) found
    obtain ⟨hlt, rfl⟩ := List.getElem?_eq_some_iff.1 hx
    rw [← hmore, List.take_append_of_le_length hlt, List.take_concat_get']
  constructor
  · exact nodup_foldl_addOnce _ h.nodup
  · intro y hy
    exact ((hmem y).1 hy).elim (h.known y) (hclosed x y)
  · exact (hmem start).2 (Or.inl h.started)
  · intro y hy
    exact ((hmem y).1 hy).elim (h.reached y) fun hlead => (h.reached x hfound).tail hlead
  · intro w hw y hlead
    rw [htake] at hw
    rcases List.mem_append.1 hw with hw | hw
    · exact (hmem y).2 (Or.inl (h.followed w hw y hlead))
    · obtain rfl := List.mem_singleton.1 hw
      exact (hmem y).2 (Or.inr hlead)

/-- There are no more dialogs to follow than the graph has. -/
theorem length_le (h : n.Searching start next found) : found.length ≤ n.dialogs.length :=
  (h.nodup.subperm h.known).length_le

/-- A search that has followed all it found has found what is reachable. -/
theorem mem_iff (h : n.Searching start next found) (hdone : found.length ≤ next) (x : String) :
    x ∈ found ↔ Relation.ReflTransGen n.Leads start x := by
  refine ⟨h.reached x, fun hpath => ?_⟩
  induction hpath with
  | refl => exact h.started
  | tail _ hlead ih =>
    refine h.followed _ ?_ _ hlead
    rwa [List.take_of_length_le hdone]

/-- A search with a step for every dialog that the graph has left finds what is reachable. -/
theorem mem_search_iff (hclosed : ∀ x y, n.Leads x y → y ∈ n.dialogs)
    (h : n.Searching start next found) {steps : Nat} (hsteps : n.dialogs.length ≤ next + steps)
    (x : String) : x ∈ n.search steps next found ↔ Relation.ReflTransGen n.Leads start x := by
  induction steps generalizing next found with
  | zero => exact h.mem_iff (h.length_le.trans hsteps) x
  | succ steps ih =>
    rw [search]
    split
    case h_1 hnone => exact h.mem_iff (List.getElem?_eq_none_iff.1 hnone) x
    case h_2 dialog hdialog => exact ih (h.step hclosed hdialog) (by omega)

end Searching

end Navigation

/-- Some action of a sequence leads to the dialog. -/
def Resolved.Targets (r : Resolved) (x : String) : Prop :=
  ∃ e ∈ r.entries, ∃ a ∈ e.actions, a.Navigates ∧ a.value = x

section graph

variable (r : Resolved)

open Navigation

theorem exists_destination_iff {e : Entry} {x : String} :
    (∃ t ∈ e.transitions, t.destination = x) ↔ ∃ a ∈ e.actions, a.Navigates ∧ a.value = x := by
  constructor
  · rintro ⟨t, ht, rfl⟩
    obtain ⟨a, ha, hat⟩ := List.mem_filterMap.1 ht
    obtain ⟨hnavigates, hfollows⟩ := transition?_eq_some hat
    exact ⟨a, ha, hnavigates, hfollows.destination.symm⟩
  · rintro ⟨a, ha, hnavigates, rfl⟩
    obtain ⟨t, ht, hfollows⟩ := exists_follows hnavigates e
    exact ⟨t, List.mem_filterMap.2 ⟨a, ha, ht⟩, hfollows.destination⟩

theorem exists_transition_iff {x : String} :
    (∃ t ∈ (ofResolved r).transitions, t.destination = x) ↔ r.Targets x := by
  simp only [Resolved.Targets, ← exists_destination_iff]
  change (∃ t ∈ r.entries.flatMap Entry.transitions, t.destination = x) ↔ _
  simp only [List.mem_flatMap]
  constructor
  · rintro ⟨t, ⟨e, he, ht⟩, hx⟩
    exact ⟨e, he, t, ht, hx⟩
  · rintro ⟨e, he, t, ht, hx⟩
    exact ⟨t, ⟨e, he, ht⟩, hx⟩

/-- The dialogs of the graph are those that are defined, those with actions, and those that an action
leads to. -/
theorem mem_dialogs_ofResolved {x : String} : x ∈ (ofResolved r).dialogs ↔
    (∃ d ∈ r.definitions, d.id = x) ∨ (∃ e ∈ r.entries, e.dialog = x) ∨ r.Targets x := by
  have hentries : x ∈ r.entries.flatMap (fun e =>
      e.dialog :: e.transitions.map (·.destination)) ↔
        (∃ e ∈ r.entries, e.dialog = x) ∨ r.Targets x := by
    simp only [List.mem_flatMap, List.mem_cons, List.mem_map, exists_destination_iff, and_or_left,
      exists_or, eq_comm (a := x)]
    rfl
  change x ∈ List.foldl addOnce [] _ ↔ _
  rw [mem_foldl_addOnce, or_iff_right List.not_mem_nil, List.mem_append, hentries, List.mem_map]

theorem mem_dialogs_of_leads {x y : String} (h : (ofResolved r).Leads x y) :
    y ∈ (ofResolved r).dialogs := by
  obtain ⟨t, ht, rfl⟩ := (lists_successors (ofResolved r) x).mem y |>.1 h
  have htarget := (exists_transition_iff r).1 ⟨t, List.mem_of_mem_filter ht, rfl⟩
  exact (mem_dialogs_ofResolved r).2 (Or.inr (Or.inr htarget))

theorem lists_reachable (dialog : String) : Lists ((ofResolved r).reachable dialog) fun x =>
    dialog ∈ (ofResolved r).dialogs ∧ Relation.ReflTransGen (ofResolved r).Leads dialog x := by
  rw [reachable]
  split
  case isTrue hdialog =>
    refine lists_sortedOnce fun x => ?_
    rw [(Searching.begin hdialog).mem_search_iff (fun _ _ => mem_dialogs_of_leads r) (by omega) x]
    exact (and_iff_right hdialog).symm
  case isFalse hdialog => exact ⟨.nil, fun x => by simp [hdialog]⟩

/-- The graph of a sequence has one transition for every action that leads from one dialog to another,
in the order of the actions. Its other answers are in strict order: the destinations of a dialog's
transitions, the dialogs that a row of transitions leads to, the dialogs that are defined, have
actions or are led to, and those of them that no action leads to. -/
theorem navigation_of_resolved :
    (∀ dialog, List.Forall₂ (fun xa t => t.Follows xa.1 xa.2) (r.exits dialog)
      ((ofResolved r).leaving dialog)) ∧
    (∀ dialog, Lists ((ofResolved r).successors dialog) fun x =>
      ∃ t ∈ (ofResolved r).leaving dialog, t.destination = x) ∧
    (∀ dialog, Lists ((ofResolved r).reachable dialog) fun x => dialog ∈ (ofResolved r).dialogs ∧
      Relation.ReflTransGen (fun a b => b ∈ (ofResolved r).successors a) dialog x) ∧
    (ofResolved r).dialogs.Nodup ∧
    Lists (ofResolved r).sortedDialogs (fun x =>
      (∃ d ∈ r.definitions, d.id = x) ∨ (∃ e ∈ r.entries, e.dialog = x) ∨ r.Targets x) ∧
    Lists (ofResolved r).entryPoints (fun x => x ∈ (ofResolved r).dialogs ∧ ¬r.Targets x) := by
  refine ⟨forall₂_leaving r, lists_successors _, lists_reachable r, nodup_foldl_addOnce _ .nil,
    lists_sortedOnce fun x => mem_dialogs_ofResolved r, lists_sortedOnce fun x => ?_⟩
  rw [List.mem_filter, ← exists_transition_iff]
  simp

end graph

end Installer.Dialog
