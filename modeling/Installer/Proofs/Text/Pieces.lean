import Installer.Text.Basic
import Installer.Text.Pieces
import Mathlib.Data.List.TakeWhile

/-!
# Texts from pieces

Splitting and joining a text undo each other as long as the separator stands in no piece, and what is
stripped off a text stands at its ends.
-/
namespace Installer.Text

theorem splitAt_eq_splitOn (x : Char) (cs : List Char) :
    splitAt (· == x) cs = cs.splitOn x := by
  induction cs with
  | nil => rfl
  | cons c cs ih =>
    rw [splitAt, List.splitOn, List.splitOnP_cons_eq_if_modifyHead, ← List.splitOn, ← ih]
    cases hcs : splitAt (· == x) cs with
    | nil => exact absurd hcs (splitAt_ne_nil _ cs)
    | cons piece pieces => rfl

theorem joinWith_eq_intercalate (sep : List Char) (pieces : List (List Char)) :
    joinWith sep pieces = sep.intercalate pieces := by
  induction pieces with
  | nil => rfl
  | cons piece pieces ih =>
    cases pieces with
    | nil => simp [joinWith]
    | cons next rest => rw [joinWith, ih, List.intercalate_cons_cons]; simp

theorem joinWith_splitAt (x : Char) (cs : List Char) :
    joinWith [x] (splitAt (· == x) cs) = cs := by
  rw [joinWith_eq_intercalate, splitAt_eq_splitOn, List.intercalate_splitOn]

theorem splitAt_joinWith {x : Char} {pieces : List (List Char)} (hx : ∀ piece ∈ pieces, x ∉ piece)
    (hne : pieces ≠ []) : splitAt (· == x) (joinWith [x] pieces) = pieces := by
  rw [joinWith_eq_intercalate, splitAt_eq_splitOn, List.splitOn_intercalate x hx hne]

theorem mem_joinWith {sep : List Char} {pieces : List (List Char)} {c : Char}
    (h : c ∈ joinWith sep pieces) : c ∈ sep ∨ ∃ piece ∈ pieces, c ∈ piece := by
  induction pieces with
  | nil => simp [joinWith] at h
  | cons piece pieces ih =>
    cases pieces with
    | nil => exact Or.inr ⟨piece, by simp, h⟩
    | cons next rest =>
      have hjoin : joinWith sep (piece :: next :: rest) =
          piece ++ sep ++ joinWith sep (next :: rest) := by simp [joinWith]
      rw [hjoin, List.mem_append, List.mem_append] at h
      rcases h with (h | h) | h
      · exact Or.inr ⟨piece, by simp, h⟩
      · exact Or.inl h
      · rcases ih h with h | ⟨other, hother, h⟩
        · exact Or.inl h
        · exact Or.inr ⟨other, List.mem_cons_of_mem _ hother, h⟩

/-- What is stripped off a text stands at its ends. -/
theorem exists_strip (p : Char → Bool) (cs : List Char) :
    ∃ before behind, cs = before ++ strip p cs ++ behind ∧ ∀ c ∈ before ++ behind, p c = true := by
  refine ⟨cs.takeWhile p, ((cs.dropWhile p).reverse.takeWhile p).reverse, ?_, ?_⟩
  · have htail := congrArg List.reverse
      (List.takeWhile_append_dropWhile (p := p) (l := (cs.dropWhile p).reverse))
    rw [List.reverse_append, List.reverse_reverse] at htail
    rw [strip, dropTail, List.append_assoc, htail, List.takeWhile_append_dropWhile]
  · intro c hc
    rw [List.mem_append, List.mem_reverse] at hc
    rcases hc with hc | hc <;> exact List.mem_takeWhile_imp hc

theorem strip_append {p : Char → Bool} {before cs behind : List Char}
    (hends : ∀ c ∈ before ++ behind, p c = true) (hcs : ∀ c ∈ cs, p c = false) :
    strip p (before ++ cs ++ behind) = cs := by
  have hkeep : ∀ xs : List Char, (∀ c ∈ xs, p c = false) → xs.dropWhile p = xs := by
    intro xs hxs
    rw [List.dropWhile_eq_self_iff]
    intro hlength
    simp [hxs _ (List.getElem_mem hlength)]
  rw [List.forall_mem_append] at hends
  rw [strip, dropTail, List.append_assoc, List.dropWhile_append_of_pos hends.1]
  by_cases hne : cs = []
  · subst hne
    have hnone : behind.dropWhile p = [] := List.dropWhile_eq_nil_iff.2 hends.2
    simp [hnone]
  · have hfirst : (cs ++ behind).dropWhile p = cs ++ behind := by
      rw [List.dropWhile_append, hkeep cs hcs]
      simp [hne]
    rw [hfirst, List.reverse_append,
      List.dropWhile_append_of_pos fun c hc => hends.2 c (List.mem_reverse.1 hc),
      hkeep _ fun c hc => hcs c (List.mem_reverse.1 hc), List.reverse_reverse]

end Installer.Text
