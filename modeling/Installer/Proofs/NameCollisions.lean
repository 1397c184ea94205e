import Installer.Proofs.Directory.Laying
import Installer.Proofs.Identifier.Spelling

/-!
# When two names share a directory

Merging a second path ends at the node of the first one exactly when their segments name the same
directories. For names without placeholders the comparison is one of identifiers: characters that an
identifier may not have count as their hexadecimal codes, and a leading dot counts as an underscore.
So names that keep their spelling in an identifier share a directory only if they are the same
letter case aside, but `my app` and `my20app` share one although they are two folders on the target.
-/
namespace Installer

namespace Identifier

/-- Folders are expanded only behind `%` or `[`. -/
theorem expandFolders_eq_self {cs : List Char} (hpercent : '%' ∉ cs) (hbracket : '[' ∉ cs) :
    expandFolders cs = cs := by
  calc expandFolders cs = expandFolders (cs ++ []) := by rw [List.append_nil]
    _ = cs ++ expandFolders [] := expandFolders_append hpercent hbracket []
    _ = cs ++ [] := congrArg _ (by decide +kernel)
    _ = cs := List.append_nil cs

end Identifier

open Identifier

namespace Directory

/-- A relative name of one segment without the characters that mark folders. -/
def IsBareName (name : String) : Prop :=
  isRooted name = false ∧ segments name = [name] ∧
    '%' ∉ name.toList ∧ '[' ∉ name.toList ∧ ']' ∉ name.toList

instance (name : String) : Decidable (IsBareName name) :=
  inferInstanceAs (Decidable (_ ∧ _))

/-- The spelling of a name in an identifier: illegal characters as hexadecimal codes, a leading dot
as an underscore. -/
def escapedName (name : String) : String :=
  String.ofList (guardHead false (escape name.toList))

/-- A name that is spelled in an identifier as it is. -/
def KeepsSpelling (name : String) : Prop :=
  IsPlain name.toList ∧ name.toList.head? ≠ some '.'

instance (name : String) : Decidable (KeepsSpelling name) :=
  inferInstanceAs (Decidable (_ ∧ _))

theorem IsBareName.ne_empty {name : String} (h : IsBareName name) : name ≠ "" := by
  rintro rfl
  exact absurd h (by decide)

theorem expand_of_isBareName {name : String} (h : IsBareName name) :
    expand false name = escapedName name := by
  obtain ⟨hrooted, hsegments, hpercent, hbracket, _⟩ := h
  have hmem : name ∈ segments name := by simp [hsegments]
  have hsegment : IsSegment name := isSegment_of_mem_segments hrooted hmem
  have hdots : (name.toList.map fun c => if c == '\\' then '.' else c) = name.toList := by
    refine (List.map_congr_left fun c hc => ?_).trans (List.map_id _)
    have hne : c ≠ '\\' := by
      rintro rfl
      exact absurd (hsegment.2 _ hc) (by decide)
    simp [hne]
  rw [expand, expandChars, expandFolders_eq_self hpercent hbracket, hdots, escapedName]

theorem escapedName_of_keepsSpelling {name : String} (h : KeepsSpelling name) :
    escapedName name = name := by
  obtain ⟨hplain, hhead⟩ := h
  have hguard : guardHead false name.toList = name.toList := by
    cases hcs : name.toList with
    | nil => rfl
    | cons c cs =>
      have hc : c ≠ '.' := by
        rintro rfl
        exact hhead (by rw [hcs]; rfl)
      simp [guardHead, hc]
  rw [escapedName, escape_of_isPlain hplain, hguard, String.ofList_toList]

/-- Bare names are compared by how they are spelled in identifiers. -/
theorem sameName_of_isBareName {a b : String} (ha : IsBareName a) (hb : IsBareName b) :
    sameName a b = Text.sameText (escapedName a) (escapedName b) := by
  rw [sameName, ha.1, hb.1, expand_of_isBareName ha, expand_of_isBareName hb]
  rfl

namespace Tree

/-- A second path that is merged ends at the node of the first exactly when their segments name the
same directories. -/
theorem merge_eq_iff_sameTrail {t : Tree} (ht : t.Reachable) {parent : Option Nat}
    (hp : t.Holds parent) {a b : String} (ha : a ≠ "") (hb : b ≠ "") (fa fb : List String) :
    ((t.merge parent a fa).2.merge parent b fb).1 = (t.merge parent a fa).1 ↔
      SameTrail (segments a) (segments b) := by
  obtain ⟨hfounded, hapart⟩ := ht.founded_and_apart
  have hsa := segments_ne_nil ha
  have hsb := segments_ne_nil hb
  let u := (t.merge parent a fa).2
  let v := (u.merge parent b fb).2
  have hu : Lays t parent [segments a] u := .overlay hfounded hapart hp fa hsa
  have hpu : u.Holds parent := hu.holds hp
  have hv : Lays u parent [segments b] v := .overlay hu.founded hu.apart hpu fb hsb
  have hpv : v.Holds parent := hv.holds hpu
  have hleada : v.lead? parent (segments a) = some (t.merge parent a fa).1 :=
    lead?_mono hv.grows (overlay_leads hfounded hp fa hsa).2
  have hleadb : v.lead? parent (segments b) = some (u.merge parent b fb).1 :=
    (overlay_leads hu.founded hpu fb hsb).2
  have htraila := ((lead?_eq_some_iff hv.founded hv.apart hpv hsa).1 hleada).2
  obtain ⟨hlt, htrailb⟩ := (lead?_eq_some_iff hv.founded hv.apart hpv hsb).1 hleadb
  constructor
  · intro hnode
    rw [show (u.merge parent b fb).1 = (t.merge parent a fa).1 from hnode] at htrailb
    exact sameTrail_append_left.1
      (equivalence_sameTrail.trans (equivalence_sameTrail.symm htraila) htrailb)
  · intro hsame
    have hback : SameTrail (v.way parent ++ segments b) (v.way parent ++ segments a) :=
      sameTrail_append_left.2 (equivalence_sameTrail.symm hsame)
    have hthere : v.lead? parent (segments a) = some (u.merge parent b fb).1 :=
      (lead?_eq_some_iff hv.founded hv.apart hpv hsa).2
        ⟨hlt, equivalence_sameTrail.trans htrailb hback⟩
    exact Option.some.inj (hthere.symm.trans hleada)

/-- Two bare names share a directory exactly when they are spelled alike in identifiers, letter case
aside. For names that keep their spelling there, this is when they are alike themselves. -/
theorem shared_directory_iff {t : Tree} (ht : t.Reachable) {parent : Option Nat}
    (hp : t.Holds parent) {a b : String} (ha : IsBareName a) (hb : IsBareName b)
    (fa fb : List String) :
    (((t.merge parent a fa).2.merge parent b fb).1 = (t.merge parent a fa).1 ↔
      Text.sameText (escapedName a) (escapedName b) = true) ∧
    (KeepsSpelling a → KeepsSpelling b →
      (((t.merge parent a fa).2.merge parent b fb).1 = (t.merge parent a fa).1 ↔
        Text.sameText a b = true)) := by
  have hnames : ((t.merge parent a fa).2.merge parent b fb).1 = (t.merge parent a fa).1 ↔
      Text.sameText (escapedName a) (escapedName b) = true := by
    rw [merge_eq_iff_sameTrail ht hp ha.ne_empty hb.ne_empty, ha.2.1, hb.2.1,
      sameTrail_singleton, sameName_of_isBareName ha hb]
  refine ⟨hnames, fun hka hkb => ?_⟩
  rw [hnames, escapedName_of_keepsSpelling hka, escapedName_of_keepsSpelling hkb]

theorem shared_directory_iff_capitals :
    Reachable .empty ∧ Holds .empty none ∧ IsBareName "App.1" ∧ IsBareName "aPP.1" ∧
      KeepsSpelling "App.1" ∧ KeepsSpelling "aPP.1" ∧ Text.sameText "App.1" "aPP.1" = true ∧
      ((Tree.empty.merge none "App.1" []).2.merge none "aPP.1" []).1 =
        (Tree.empty.merge none "App.1" []).1 := by
  have hcapital : IsBareName "App.1" := by decide
  have hsmall : IsBareName "aPP.1" := by decide
  have hkeepsCapital : KeepsSpelling "App.1" := by decide
  have hkeepsSmall : KeepsSpelling "aPP.1" := by decide
  have hsame : Text.sameText "App.1" "aPP.1" = true := by decide
  have hshared := (shared_directory_iff .empty (holds_none _) hcapital hsmall [] []).2
    hkeepsCapital hkeepsSmall
  exact ⟨.empty, holds_none _, hcapital, hsmall, hkeepsCapital, hkeepsSmall, hsame, hshared.2 hsame⟩

/-- Two names that differ in more than letter case share a directory. -/
theorem different_names_share_directory :
    Reachable .empty ∧ Holds .empty none ∧ IsBareName "my app" ∧ IsBareName "my20app" ∧
      Text.sameText "my app" "my20app" = false ∧
      ((Tree.empty.merge none "my app" []).2.merge none "my20app" []).1 =
        (Tree.empty.merge none "my app" []).1 := by
  refine ⟨.empty, holds_none _, by decide, by decide, by decide, ?_⟩
  decide +kernel

end Tree

end Directory

end Installer
