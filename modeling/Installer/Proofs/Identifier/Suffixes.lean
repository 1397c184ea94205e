import Installer.Proofs.Directory.Names
import Installer.Proofs.Identifier.Forms
import Mathlib.Data.Nat.PSub

/-!
# Numbers behind candidates

A repeated candidate gets a dot and the number of earlier requests behind it. As no candidate ends
in a digit, candidate and number can be read off the result, letter case aside: no candidate looks
like another one with a number.
-/
namespace Installer

namespace Text

theorem lower_of_isDigit {c : Char} (h : isDigit c = true) : lower c = c := by
  rcases lower_cases c with hc | ⟨hletter, _⟩
  · exact hc
  · rw [isDigit_of_isLetter hletter] at h
    simp at h

theorem isDigit_lower (c : Char) : isDigit (lower c) = isDigit c := by
  rcases lower_cases c with hc | ⟨hletter, hlower⟩
  · rw [hc]
  · rw [isDigit_of_isLetter hletter, isDigit_of_isLetter hlower]

theorem getLast?_map_lower (cs : List Char) :
    (cs.map lower).getLast?.any isDigit = cs.getLast?.any isDigit := by
  simp [List.getLast?_map, Option.any_map, isDigit_lower]

theorem map_lower_decimal (n : Nat) : (decimal n).map lower = decimal n := by
  have hsame : ∀ c ∈ decimal n, lower c = id c := fun c hc =>
    lower_of_isDigit (isDigit_of_mem_decimal hc)
  rw [List.map_congr_left hsame, List.map_id]

/-- The digits behind the last dot of a text can be read off it. -/
theorem append_dot_decimal_inj {xs ys : List Char} {m n : Nat}
    (h : xs ++ '.' :: decimal m = ys ++ '.' :: decimal n) : xs = ys ∧ m = n := by
  have hdot : ∀ k, '.' ∉ decimal k :=
    fun k hmem => absurd (isDigit_of_mem_decimal hmem) (by decide)
  rcases List.append_eq_append_iff.1 h with ⟨zs, rfl, hzs⟩ | ⟨zs, rfl, hzs⟩
  · cases zs with
    | nil => simpa [decimal_injective.eq_iff] using hzs
    | cons z zs =>
      obtain ⟨_, hdigits⟩ := List.cons.inj hzs
      exact absurd (by simp [hdigits]) (hdot m)
  · cases zs with
    | nil => simpa [decimal_injective.eq_iff, eq_comm] using hzs
    | cons z zs =>
      obtain ⟨_, hdigits⟩ := List.cons.inj hzs
      exact absurd (by simp [hdigits]) (hdot n)

end Text

namespace Identifier

/-- A candidate behind a number of earlier requests for it: the first one gets it as it is, and
every other one with the number behind it. -/
def suffixed (candidate : String) : Nat → String
  | 0 => candidate
  | n + 1 => candidate ++ "." ++ String.ofList (Text.decimal (n + 1))

theorem numbered_ppred (candidate : String) (n : Nat) :
    Allocator.numbered candidate n.ppred = suffixed candidate n := by
  cases n with
  | zero => rfl
  | succ n => simp [Allocator.numbered, suffixed, ← String.toList_inj]

theorem toList_suffixed_succ (candidate : String) (n : Nat) :
    (suffixed candidate (n + 1)).toList = candidate.toList ++ '.' :: Text.decimal (n + 1) := by
  simp [suffixed]

/-- With a number behind it, letter case aside, an identifier ends in a digit. -/
theorem toList_fold_suffixed_succ (candidate : String) (n : Nat) :
    (Text.fold (suffixed candidate (n + 1))).toList =
      (Text.fold candidate).toList ++ '.' :: Text.decimal (n + 1) := by
  have hdot : Text.lower '.' = '.' := rfl
  rw [Text.toList_fold, Text.toList_fold, toList_suffixed_succ, List.map_append, List.map_cons,
    Text.map_lower_decimal, hdot]

/-- A text that does not end in a digit is no text with a number behind it, letter case aside. -/
theorem fold_ne_fold_suffixed {c : String} (hc : c.toList.getLast?.any Text.isDigit = false)
    (d : String) (n : Nat) : Text.fold c ≠ Text.fold (suffixed d (n + 1)) := by
  intro h
  have hlist := congrArg String.toList h
  rw [toList_fold_suffixed_succ, Text.toList_fold] at hlist
  have hlast := Text.getLast?_append_decimal ((Text.fold d).toList ++ ['.']) (n + 1)
  rw [List.append_assoc, List.singleton_append, ← hlist, Text.getLast?_map_lower, hc] at hlast
  simp at hlast

/-- Text and number can be told from each other where the text does not end in a digit. -/
theorem fold_suffixed_inj {c d : String} (hc : c.toList.getLast?.any Text.isDigit = false)
    (hd : d.toList.getLast?.any Text.isDigit = false) {m n : Nat}
    (h : Text.fold (suffixed c m) = Text.fold (suffixed d n)) :
    Text.fold c = Text.fold d ∧ m = n := by
  cases m with
  | zero =>
    cases n with
    | zero => exact ⟨h, rfl⟩
    | succ n => exact absurd h (fold_ne_fold_suffixed hc d n)
  | succ m =>
    cases n with
    | zero => exact absurd h.symm (fold_ne_fold_suffixed hd c m)
    | succ n =>
      have hlist := congrArg String.toList h
      rw [toList_fold_suffixed_succ, toList_fold_suffixed_succ] at hlist
      obtain ⟨htext, hnumber⟩ := Text.append_dot_decimal_inj hlist
      exact ⟨String.toList_inj.1 htext, hnumber⟩

end Identifier

end Installer
