import Installer.Directory.Tree
import Mathlib.Data.List.Infix
import Mathlib.Tactic.Common

/-!
# Segments of leading parts

The leading parts of a path are again paths, and their segments are the leading segments of the
whole. A look-up by the text of a leading part is therefore a look-up by a row of segments.
-/
namespace Installer.Text

theorem splitAt_of_forall_not {p : Char → Bool} {cs : List Char} (h : ∀ c ∈ cs, p c = false) :
    splitAt p cs = [cs] := by
  induction cs with
  | nil => rfl
  | cons c cs ih =>
    have hc : p c = false := h c (by simp)
    rw [splitAt, ih fun d hd => h d (by simp [hd])]
    simp [hc]

theorem splitAt_append_cons (p : Char → Bool) {c : Char} (hc : p c = true) (xs ys : List Char) :
    splitAt p (xs ++ c :: ys) = splitAt p xs ++ splitAt p ys := by
  induction xs with
  | nil => simp [splitAt, hc]
  | cons x xs ih =>
    rw [List.cons_append, splitAt, splitAt, ih]
    by_cases hx : p x = true
    · simp [hx]
    · simp only [hx, Bool.false_eq_true, if_false]
      cases hxs : splitAt p xs with
      | nil => exact absurd hxs (splitAt_ne_nil p xs)
      | cons piece pieces => rfl

/-- The first piece is what stands before the first separator. -/
theorem head?_splitAt (p : Char → Bool) (cs : List Char) :
    (splitAt p cs).head? = some (cs.takeWhile fun c => !p c) := by
  induction cs with
  | nil => rfl
  | cons c cs ih =>
    rw [splitAt]
    by_cases hc : p c = true
    · simp [hc]
    · cases hcs : splitAt p cs with
      | nil => exact absurd hcs (splitAt_ne_nil p cs)
      | cons piece pieces =>
        rw [hcs] at ih
        have hpiece : piece = cs.takeWhile fun c => !p c := by simpa using ih
        simp [hc, hpiece]

theorem not_of_mem_splitAt {p : Char → Bool} {cs piece : List Char} (h : piece ∈ splitAt p cs) :
    ∀ c ∈ piece, p c = false := by
  induction cs generalizing piece with
  | nil =>
    have hp : piece = [] := by simpa [splitAt] using h
    simp [hp]
  | cons x xs ih =>
    rw [splitAt] at h
    by_cases hx : p x = true
    · rw [if_pos hx] at h
      rcases List.mem_cons.1 h with rfl | h
      · simp
      · exact ih h
    · rw [if_neg hx] at h
      cases hxs : splitAt p xs with
      | nil => exact absurd hxs (splitAt_ne_nil p xs)
      | cons q qs =>
        rw [hxs] at h ih
        rcases List.mem_cons.1 h with rfl | h
        · intro c hc
          rcases List.mem_cons.1 hc with rfl | hc
          · simpa using hx
          · exact ih (by simp) c hc
        · exact ih (by simp [h])

end Installer.Text

namespace Installer.Directory
open Identifier

/-- A row of characters that can be a segment of a path that is not rooted. -/
def IsSegment (s : String) : Prop :=
  s ≠ "" ∧ ∀ c ∈ s.toList, isSeparator c = false

theorem segments_of_rooted {path : String} (h : isRooted path = true) : segments path = [path] := by
  simp [segments, h]

theorem isSegment_of_mem_segments {path s : String} (hr : isRooted path = false)
    (hs : s ∈ segments path) : IsSegment s := by
  simp only [segments, hr, Bool.false_eq_true, if_false, List.mem_map, List.mem_filter] at hs
  obtain ⟨piece, ⟨hmem, hne⟩, rfl⟩ := hs
  refine ⟨?_, by simpa using Text.not_of_mem_splitAt hmem⟩
  intro h
  have : piece = [] := by simpa using congrArg String.toList h
  simp [this] at hne

/-- A path that is not rooted begins with a character of its first segment. -/
theorem not_isSeparator_head {c : Char} {cs : List Char} (h : isRootedChars (c :: cs) = false) :
    isSeparator c = false := by
  cases cs with
  | nil => simpa [isRootedChars] using h
  | cons d ds =>
    simp only [isRootedChars, Bool.or_eq_false_iff] at h
    exact h.1

/-- The first segment of a path that is not rooted is not rooted either. -/
theorem not_isRooted_head {path s : String} {ss : List String} (hr : isRooted path = false)
    (hss : segments path = s :: ss) : isRooted s = false := by
  cases hcs : path.toList with
  | nil => simp [segments, hr, hcs, Text.splitAt] at hss
  | cons c cs =>
    have hr' : isRootedChars (c :: cs) = false := by simpa [isRooted, hcs] using hr
    have hc := not_isSeparator_head hr'
    have hhead := Text.head?_splitAt isSeparator (c :: cs)
    cases hsplit : Text.splitAt isSeparator (c :: cs) with
    | nil => exact absurd hsplit (Text.splitAt_ne_nil _ _)
    | cons piece pieces =>
      rw [hsplit] at hhead
      have hpiece : piece = c :: cs.takeWhile fun d => !isSeparator d := by
        simpa [hc] using hhead
      have hs : s = String.ofList piece := by
        simp only [segments, hr, Bool.false_eq_true, if_false, hcs, hsplit, hpiece] at hss
        simpa [hpiece] using (List.cons.inj hss).1.symm
      rw [hs, isRooted, String.toList_ofList, hpiece]
      cases cs with
      | nil => simpa [isRootedChars] using hc
      | cons d ds =>
        by_cases hd : isSeparator d = true
        · simpa [isRootedChars, hd] using hc
        · simpa [isRootedChars, hd] using hr'

theorem segments_ne_nil {path : String} (h : path ≠ "") : segments path ≠ [] := by
  by_cases hr : isRooted path = true
  · simp [segments_of_rooted hr]
  have hr' : isRootedChars path.toList = false := by simpa [isRooted] using hr
  cases hcs : path.toList with
  | nil => exact absurd (String.toList_inj.1 (by simpa using hcs)) h
  | cons c cs =>
    rw [hcs] at hr'
    have hc := not_isSeparator_head hr'
    have hr : isRooted path = false := by simpa using hr
    simp only [segments, hr, Bool.false_eq_true, if_false, hcs, Text.splitAt, hc]
    cases hsplit : Text.splitAt isSeparator cs with
    | nil => simp
    | cons piece pieces => simp

theorem isRooted_append_separator {path : String} (h : path ≠ "") (s : String) :
    isRooted (path ++ "\\" ++ s) = isRooted path := by
  cases hcs : path.toList with
  | nil => exact absurd (String.toList_inj.1 (by simpa using hcs)) h
  | cons c cs =>
    cases cs with
    | nil => simp [isRooted, isRootedChars, hcs]
    | cons d ds => simp [isRooted, isRootedChars, hcs]

/-- A segment behind a path is one more segment. -/
theorem segments_append {path s : String} (hne : path ≠ "") (hr : isRooted path = false)
    (hs : IsSegment s) : segments (path ++ "\\" ++ s) = segments path ++ [s] := by
  have hlist : (path ++ "\\" ++ s).toList = path.toList ++ '\\' :: s.toList := by simp
  have hsnil : s.toList ≠ [] := fun h => hs.1 (String.toList_inj.1 (by simpa using h))
  rw [segments, isRooted_append_separator hne, hr, segments, hr, hlist,
    Text.splitAt_append_cons isSeparator (by rfl), Text.splitAt_of_forall_not hs.2]
  simp [hsnil]

theorem map_segments_pathsBehind {path : String} {ss : List String} (hne : path ≠ "")
    (hr : isRooted path = false) (hss : ∀ s ∈ ss, IsSegment s) :
    (pathsBehind path ss).map segments = ss.inits.tail.map (segments path ++ ·) := by
  induction ss generalizing path with
  | nil => rfl
  | cons s ss ih =>
    have hs := hss s (by simp)
    have hne' : path ++ "\\" ++ s ≠ "" := by
      intro h
      have := congrArg String.toList h
      simp at this
    have hr' : isRooted (path ++ "\\" ++ s) = false := by
      rw [isRooted_append_separator hne, hr]
    have htail := ih hne' hr' fun t ht => hss t (by simp [ht])
    have hfirst := segments_append hne hr hs
    cases ss with
    | nil => simp [pathsBehind, hfirst]
    | cons t ts =>
      rw [pathsBehind, List.map_cons, htail, hfirst]
      simp

/-- The segments of the leading parts of a path are the leading rows of its segments. -/
theorem map_segments_pathPrefixes (path : String) :
    (pathPrefixes path).map segments = (segments path).inits.tail := by
  by_cases hr : isRooted path = true
  · simp [pathPrefixes, segments_of_rooted hr, pathsBehind]
  have hr : isRooted path = false := by simpa using hr
  cases hss : segments path with
  | nil => simp [pathPrefixes, hss]
  | cons s ss =>
    have hs : ∀ t ∈ s :: ss, IsSegment t := fun t ht => isSegment_of_mem_segments hr (hss ▸ ht)
    have hseg := (hs s (by simp))
    have hsr : isRooted s = false := not_isRooted_head hr hss
    have hself : segments s = [s] := by
      have hsnil : s.toList ≠ [] := fun h => hseg.1 (String.toList_inj.1 (by simpa using h))
      rw [segments, hsr, Text.splitAt_of_forall_not hseg.2]
      simp [hsnil]
    rw [pathPrefixes, hss]
    simp only [List.map_cons, hself]
    rw [map_segments_pathsBehind hseg.1 hsr fun t ht => hs t (by simp [ht]), hself]
    cases ss with
    | nil => simp
    | cons t ts => simp

end Installer.Directory
