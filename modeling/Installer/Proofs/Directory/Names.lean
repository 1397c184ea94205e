import Installer.Directory.Tree
import Mathlib.Data.List.Forall2
import Mathlib.Tactic.Common

/-!
# Names of directories

Two names name the same directory when what they are compared by is the same. This is an
equivalence, across rooted and relative names alike, since a change of letter case makes no relative
name rooted. Rows of names are compared name by name.
-/
namespace Installer

namespace Text

/-- Only letters change, and they stay letters. -/
theorem lower_cases (c : Char) :
    lower c = c ∨ isLetter c = true ∧ isLetter (lower c) = true := by
  by_cases hc : ('A' ≤ c && c ≤ 'Z') = true
  · right
    have hletter : ∀ n ≤ 90, 65 ≤ n → isLetter (Char.ofNat (n + 32)) = true := by decide
    refine ⟨by simp [isLetter, hc], ?_⟩
    rw [lower, if_pos hc]
    simp only [Bool.and_eq_true, decide_eq_true_eq, Char.le_def, UInt32.le_iff_toNat_le] at hc
    exact hletter c.toNat hc.2 hc.1
  · left
    rw [lower, if_neg hc]

theorem isLetter_lower (c : Char) : isLetter (lower c) = isLetter c := by
  rcases lower_cases c with h | ⟨h, hl⟩
  · rw [h]
  · rw [h, hl]

/-- A character that is no letter is the lower case of itself alone. -/
theorem lower_eq_iff {d : Char} (hd : isLetter d = false) (c : Char) : lower c = d ↔ c = d := by
  rcases lower_cases c with h | ⟨h, hl⟩
  · rw [h]
  · constructor
    · rintro rfl
      exact absurd hl (by simp [hd])
    · rintro rfl
      exact absurd h (by simp [hd])

theorem toList_fold (s : String) : (fold s).toList = s.toList.map lower := by
  rw [fold, String.toList_ofList]

end Text

namespace Identifier

theorem isSeparator_lower (c : Char) : isSeparator (Text.lower c) = isSeparator c := by
  have hback := Text.lower_eq_iff (show Text.isLetter '\\' = false by decide) c
  have hslash := Text.lower_eq_iff (show Text.isLetter '/' = false by decide) c
  rw [Bool.eq_iff_iff]
  simp only [isSeparator, Bool.or_eq_true, beq_iff_eq, hback, hslash]

theorem isRootedChars_map_lower (cs : List Char) :
    isRootedChars (cs.map Text.lower) = isRootedChars cs := by
  have hcolon : ∀ d, (Text.lower d == ':') = (d == ':') := fun d => by
    rw [Bool.eq_iff_iff, beq_iff_eq, beq_iff_eq, Text.lower_eq_iff (by decide)]
  match cs with
  | [] => rfl
  | [c] => simp [isRootedChars, isSeparator_lower]
  | c :: d :: ds => simp [isRootedChars, isSeparator_lower, Text.isLetter_lower, hcolon]

/-- Letter case does not decide whether a path is rooted. -/
theorem isRooted_congr {a b : String} (h : Text.fold a = Text.fold b) : isRooted a = isRooted b := by
  have hlower := congrArg (isRootedChars ·.toList) h
  simp only [Text.toList_fold, isRootedChars_map_lower] at hlower
  exact hlower

end Identifier

namespace Directory
open Identifier

/-- What a name is compared by: its text without letter case, that of a relative name expanded. -/
def comparedBy (s : String) : Bool × String :=
  (isRooted s, Text.fold (if isRooted s then s else expand false s))

theorem sameName_iff {a b : String} : sameName a b = true ↔ comparedBy a = comparedBy b := by
  unfold sameName comparedBy
  by_cases hrooted : isRooted a = true ∨ isRooted b = true
  · rw [if_pos (by simpa using hrooted), Text.sameText_iff, Prod.mk.injEq]
    constructor
    · intro h
      have hsame := isRooted_congr h
      have ha : isRooted a = true := by simpa [hsame] using hrooted
      exact ⟨hsame, by simpa [ha, ← hsame] using h⟩
    · rintro ⟨hsame, h⟩
      have ha : isRooted a = true := by simpa [hsame] using hrooted
      simpa [ha, ← hsame] using h
  · rw [not_or, Bool.not_eq_true, Bool.not_eq_true] at hrooted
    simp [hrooted.1, hrooted.2, Text.sameText_iff]

/-- Rows of names that name the same directories, one after the other. -/
def SameTrail : List String → List String → Prop :=
  List.Forall₂ (sameName · · = true)

theorem sameTrail_iff {xs ys : List String} :
    SameTrail xs ys ↔ xs.map comparedBy = ys.map comparedBy := by
  simp only [SameTrail, sameName_iff]
  rw [← List.forall₂_eq_eq_eq, List.forall₂_map_left_iff, List.forall₂_map_right_iff]

theorem equivalence_sameTrail : Equivalence SameTrail where
  refl _ := sameTrail_iff.2 rfl
  symm h := sameTrail_iff.2 (sameTrail_iff.1 h).symm
  trans h h' := sameTrail_iff.2 ((sameTrail_iff.1 h).trans (sameTrail_iff.1 h'))

/-- Rows of names up to those that name the same directories. -/
def trailSetoid : Setoid (List String) where
  r := SameTrail
  iseqv := equivalence_sameTrail

theorem sameTrail_append_left {xs ys zs : List String} :
    SameTrail (xs ++ ys) (xs ++ zs) ↔ SameTrail ys zs := by
  simp only [sameTrail_iff, List.map_append, List.append_cancel_left_eq]

theorem sameTrail_singleton {x y : String} : SameTrail [x] [y] ↔ sameName x y = true := by
  simp [SameTrail]

theorem sameTrail_concat {xs ys : List String} {x y : String} :
    SameTrail (xs ++ [x]) (ys ++ [y]) ↔ SameTrail xs ys ∧ sameName x y = true := by
  simp only [sameTrail_iff, sameName_iff, List.map_append, List.map_cons, List.map_nil]
  constructor
  · intro h
    obtain ⟨hrow, hlast⟩ := List.append_inj' h rfl
    exact ⟨hrow, List.singleton_inj.1 hlast⟩
  · rintro ⟨hrow, hlast⟩
    rw [hrow, hlast]

theorem not_sameTrail_nil_concat {ys : List String} {y : String} :
    ¬ SameTrail [] (ys ++ [y]) := by
  intro h
  have hlength := List.Forall₂.length_eq h
  simp at hlength

end Directory

end Installer
