import Installer.Proofs.Identifier.Freshness
import Mathlib.Data.List.Induction
import Mathlib.Data.Nat.PSub

/-!
# Requests to an allocator

Between two resets an allocator is asked for new identifiers and told to keep clear of given ones.
All that it has answered or was told is in use, and nothing else is. Its counters say how often a
candidate was asked for, letter case aside.
-/
namespace Installer.Identifier.Allocator

/-- What an allocator is asked: for a new identifier, or to keep clear of one. -/
inductive Request where
  | allocate (kind : Kind) (raw : String)
  | reserve (id : String)
deriving DecidableEq

/-- A request for a candidate of a kind, letter case aside. -/
def Request.asksFor (kind : Kind) (key : String) : Request → Bool
  | .allocate k raw => k = kind ∧ Text.fold (candidate k raw) = key
  | .reserve _ => false

/-- One request, with the identifier that is in use from then on. -/
def serve (a : Allocator) : Request → String × Allocator
  | .allocate kind raw => a.allocate kind raw
  | .reserve id => (id, a.reserve id)

/-- The identifiers that a row of requests brings into use, with the allocator behind it. -/
def serveAll (a : Allocator) : List Request → List String × Allocator
  | [] => ([], a)
  | r :: rs =>
      let (id, b) := a.serve r
      let (ids, c) := b.serveAll rs
      (id :: ids, c)

theorem serveAll_append (a : Allocator) (rs qs : List Request) :
    a.serveAll (rs ++ qs) = ((a.serveAll rs).1 ++ ((a.serveAll rs).2.serveAll qs).1,
      ((a.serveAll rs).2.serveAll qs).2) := by
  induction rs generalizing a with
  | nil => rfl
  | cons r rs ih => simp [serveAll, ih]

theorem serveAll_concat (a : Allocator) (rs : List Request) (r : Request) :
    a.serveAll (rs ++ [r]) =
      ((a.serveAll rs).1 ++ [((a.serveAll rs).2.serve r).1], ((a.serveAll rs).2.serve r).2) :=
  serveAll_append a rs [r]

theorem length_serveAll (a : Allocator) (rs : List Request) :
    (a.serveAll rs).1.length = rs.length := by
  induction rs generalizing a with
  | nil => rfl
  | cons r rs ih => simp [serveAll, ih]

/-- What a request brings into use is in use behind it, and all else as before. -/
theorem mem_taken_serve (a : Allocator) (r : Request) (id : String) :
    id ∈ (a.serve r).2.taken ↔ id = (a.serve r).1 ∨ id ∈ a.taken := by
  cases r with
  | allocate kind raw => simp [serve, taken_allocate]
  | reserve given =>
    simp only [serve, reserve]
    split
    · next hgiven => exact ⟨Or.inr, fun h => h.elim (· ▸ hgiven) fun h => h⟩
    · exact List.mem_cons

theorem mem_taken_serveAll (a : Allocator) (rs : List Request) (id : String) :
    id ∈ (a.serveAll rs).2.taken ↔ id ∈ (a.serveAll rs).1 ∨ id ∈ a.taken := by
  induction rs generalizing a with
  | nil => simp [serveAll]
  | cons r rs ih => simp [serveAll, ih, mem_taken_serve, or_assoc, or_left_comm]

/-- From an empty allocator, in use is what the requests have brought into use. -/
theorem mem_taken_serveAll_empty (generation : Nat) (rs : List Request) (id : String) :
    id ∈ ((empty generation).serveAll rs).2.taken ↔ id ∈ ((empty generation).serveAll rs).1 := by
  simp [mem_taken_serveAll, empty]

theorem repeats?_serve (a : Allocator) (r : Request) (kind : Kind) (key : String) :
    (a.serve r).2.repeats? kind key =
      if r.asksFor kind key then some (((a.repeats? kind key).map (· + 1)).getD 0)
      else a.repeats? kind key := by
  cases r with
  | allocate k raw => simp [serve, repeats?_allocate, Request.asksFor]
  | reserve id => simp [serve, reserve, repeats?, Request.asksFor, apply_ite Allocator.counters]

/-- A counter holds the number of requests for its candidate, the first one left out. -/
theorem repeats?_serveAll (generation : Nat) (rs : List Request) (kind : Kind) (key : String) :
    ((empty generation).serveAll rs).2.repeats? kind key =
      Nat.ppred (rs.countP (·.asksFor kind key)) := by
  induction rs using List.reverseRecOn with
  | nil => rfl
  | append_singleton rs r ih =>
    rw [serveAll_concat, repeats?_serve, ih, List.countP_append, List.countP_singleton]
    by_cases h : r.asksFor kind key = true
    · rw [if_pos h, if_pos h]
      cases rs.countP (·.asksFor kind key) <;> rfl
    · rw [if_neg h, if_neg h]
      rfl

theorem repeats_of_mem_countRequest {kind : Kind} {name : String} {cs : List Counter} {c : Counter}
    (h : c ∈ countRequest kind name cs) :
    c ∈ cs ∨ c.repeats = 0 ∨ ∃ d ∈ cs, c.repeats = d.repeats + 1 := by
  induction cs with
  | nil =>
    rw [countRequest, List.mem_singleton] at h
    exact Or.inr (Or.inl (h ▸ rfl))
  | cons d ds ih =>
    rw [countRequest] at h
    split at h
    · rcases List.mem_cons.1 h with rfl | h
      · exact Or.inr (Or.inr ⟨d, by simp, rfl⟩)
      · exact Or.inl (by simp [h])
    · rcases List.mem_cons.1 h with rfl | h
      · exact Or.inl (by simp)
      · obtain h | h | ⟨e, he, h⟩ := ih h
        · exact Or.inl (by simp [h])
        · exact Or.inr (Or.inl h)
        · exact Or.inr (Or.inr ⟨e, by simp [he], h⟩)

/-- No counter reaches the number of requests. -/
theorem repeats_lt_length (generation : Nat) (rs : List Request) :
    ∀ c ∈ ((empty generation).serveAll rs).2.counters, c.repeats < rs.length := by
  induction rs using List.reverseRecOn with
  | nil => simp [serveAll, empty]
  | append_singleton rs r ih =>
    intro c hc
    rw [serveAll_concat] at hc
    rw [List.length_append, List.length_singleton]
    cases r with
    | allocate kind raw =>
      obtain h | h | ⟨d, hd, h⟩ := repeats_of_mem_countRequest hc
      · exact Nat.lt_succ_of_lt (ih c h)
      · omega
      · have := ih d hd
        omega
    | reserve id =>
      simp only [serve, reserve, apply_ite Allocator.counters, ite_self] at hc
      exact Nat.lt_succ_of_lt (ih c hc)

/-- Underscores go behind an identifier, one after the other, as long as the form that it has is in
use; the search ends with a form that is not. -/
inductive Settles (taken : List String) : String → String → Prop
  | free {id : String} (h : id ∉ taken) : Settles taken id id
  | again {id final : String} (h : id ∈ taken) (rest : Settles taken (id.push '_') final) :
      Settles taken id final

theorem settles_underscored {taken : List String} {id : String} {n : Nat}
    (hbelow : ∀ m < n, underscored id m ∈ taken) (hfree : underscored id n ∉ taken) :
    Settles taken id (underscored id n) := by
  induction n generalizing id with
  | zero =>
    rw [underscored_zero] at hfree ⊢
    exact .free hfree
  | succ n ih =>
    have hid : id ∈ taken := by simpa using hbelow 0 (by omega)
    refine .again hid ?_
    rw [← underscored_push] at hfree ⊢
    exact ih (fun m hm => underscored_push id m ▸ hbelow (m + 1) (by omega)) hfree

/-- The search ends at any identifier, and it ends with the form that freshening finds. -/
theorem settles_freshen (taken : List String) (id : String) :
    Settles taken id (freshen taken taken.length id) := by
  have hfree := freshen_not_mem taken id
  obtain ⟨n, hn, hbelow, _⟩ := freshen_spec taken taken.length id
  rw [hn] at hfree ⊢
  exact settles_underscored hbelow hfree

end Installer.Identifier.Allocator
