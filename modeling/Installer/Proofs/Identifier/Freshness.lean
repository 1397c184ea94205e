import Installer.Identifier.Allocator
import Mathlib.Data.List.Nodup
import Mathlib.Data.List.Perm.Subperm

/-!
# Freshness of identifiers

An allocator never gives an identifier that is in use: with as many underscores as there are
identifiers in use, one form at least is free.
-/
namespace Installer.Identifier

/-- An identifier with underscores behind it. -/
def underscored (id : String) (n : Nat) : String :=
  id ++ String.ofList (List.replicate n '_')

@[simp] theorem underscored_zero (id : String) : underscored id 0 = id := by
  simp [underscored]

theorem underscored_push (id : String) (n : Nat) :
    underscored (id.push '_') n = underscored id (n + 1) := by
  apply String.toList_inj.1
  simp [underscored, List.replicate_succ]

theorem underscored_injective (id : String) : Function.Injective (underscored id) := by
  intro m n h
  have hlist := congrArg String.toList h
  simpa [underscored] using congrArg List.length hlist

namespace Allocator

/-- Freshening puts underscores behind the identifier, one for each form in use that it met, and
stops at a form that is not in use or where its steps end. -/
theorem freshen_spec (taken : List String) (steps : Nat) (id : String) :
    ∃ n, freshen taken steps id = underscored id n ∧ (∀ m < n, underscored id m ∈ taken) ∧
      (underscored id n ∉ taken ∨ n = steps) := by
  induction steps generalizing id with
  | zero => exact ⟨0, by simp [freshen], by simp, Or.inr rfl⟩
  | succ steps ih =>
    by_cases hid : id ∈ taken
    · obtain ⟨n, hn, hbelow, hstop⟩ := ih (id.push '_')
      refine ⟨n + 1, ?_, ?_, ?_⟩
      · rw [freshen, if_pos hid, hn, underscored_push]
      · intro m hm
        cases m with
        | zero => simpa using hid
        | succ m =>
          rw [← underscored_push]
          exact hbelow m (by omega)
      · rw [← underscored_push]
        exact hstop.imp_right fun h => by omega
    · exact ⟨0, by simp [freshen, hid], by simp, Or.inl (by simpa using hid)⟩

/-- As many steps as there are identifiers in use are enough. -/
theorem freshen_not_mem (taken : List String) (id : String) :
    freshen taken taken.length id ∉ taken := by
  obtain ⟨n, hn, hbelow, hstop⟩ := freshen_spec taken taken.length id
  rw [hn]
  rcases hstop with hfree | rfl
  · exact hfree
  · intro hlast
    -- All forms up to the last are in use, one more than there is room for.
    have hforms : ((List.range (taken.length + 1)).map (underscored id)).Nodup :=
      List.nodup_range.map (underscored_injective id)
    have hsubset : (List.range (taken.length + 1)).map (underscored id) ⊆ taken := by
      intro form hform
      obtain ⟨m, hm, rfl⟩ := List.mem_map.1 hform
      rcases Nat.lt_succ_iff_lt_or_eq.1 (List.mem_range.1 hm) with hm | rfl
      · exact hbelow m hm
      · exact hlast
    have hlength := (hforms.subperm hsubset).length_le
    rw [List.length_map, List.length_range] at hlength
    omega

theorem allocate_not_mem (a : Allocator) (kind : Kind) (raw : String) :
    (a.allocate kind raw).1 ∉ a.taken :=
  freshen_not_mem _ _

/-- Counting a request concerns the candidate of that request only. -/
theorem find?_countRequest (kind k : Kind) (name key : String) (cs : List Counter) :
    ((countRequest kind name cs).find? fun c => c.kind = k ∧ c.name = key).map (·.repeats) =
      if kind = k ∧ name = key then
        some (((cs.find? fun c => c.kind = k ∧ c.name = key).map (·.repeats + 1)).getD 0)
      else (cs.find? fun c => c.kind = k ∧ c.name = key).map (·.repeats) := by
  induction cs with
  | nil => by_cases h : kind = k ∧ name = key <;> simp [countRequest, h]
  | cons c cs ih =>
    rw [countRequest]
    by_cases hc : c.kind = kind ∧ c.name = name
    · obtain ⟨rfl, rfl⟩ := hc
      by_cases h : c.kind = k ∧ c.name = key <;> simp [h]
    · rw [if_neg hc, List.find?_cons, List.find?_cons]
      by_cases h : c.kind = k ∧ c.name = key
      · obtain ⟨rfl, rfl⟩ := h
        have hother : ¬ (kind = c.kind ∧ name = c.name) := fun h => hc ⟨h.1.symm, h.2.symm⟩
        simp [hother]
      · simpa [h] using ih

theorem repeats?_allocate (a : Allocator) (kind k : Kind) (raw key : String) :
    (a.allocate kind raw).2.repeats? k key =
      if kind = k ∧ Text.fold (candidate kind raw) = key then
        some (((a.repeats? k key).map (· + 1)).getD 0)
      else a.repeats? k key := by
  change ((countRequest kind (Text.fold (candidate kind raw)) a.counters).find? _).map _ = _
  rw [find?_countRequest, repeats?, Option.map_map]
  rfl

/-- A request is remembered, and nothing is forgotten. -/
theorem isSome_repeats?_allocate (a : Allocator) (kind : Kind) (raw key : String) :
    ((a.allocate kind raw).2.repeats? kind key).isSome ↔
      Text.fold (candidate kind raw) = key ∨ (a.repeats? kind key).isSome := by
  rw [repeats?_allocate]
  by_cases h : Text.fold (candidate kind raw) = key <;> simp [h]

theorem taken_allocate (a : Allocator) (kind : Kind) (raw : String) :
    (a.allocate kind raw).2.taken = (a.allocate kind raw).1 :: a.taken := rfl

end Allocator

end Installer.Identifier
