import Installer.Proofs.Identifier.Forms
import Mathlib.Data.String.Basic

/-!
# Legal identifiers

An identifier is legal if it is made of plain characters and begins with a letter or an underscore.
Whatever the name, spelling it out, cutting it, guarding its ends and putting numbers or underscores
behind it gives a legal identifier. A name is cut after it has been spelled out, when each character
takes one byte, so it is always cut between two characters.
-/
namespace Installer

namespace Text

theorem replaceAll_ne_nil {pat new cs : List Char} (hnew : new ≠ []) (hcs : cs ≠ []) :
    replaceAll pat new cs ≠ [] := by
  obtain ⟨c, cs, rfl⟩ := List.exists_cons_of_ne_nil hcs
  rw [replaceAll, replaceFrom]
  split
  · exact List.append_ne_nil_of_left_ne_nil hnew _
  · simp

end Text

namespace Identifier

/-- A character that an identifier may begin with. -/
def isLead (c : Char) : Bool :=
  Text.isLetter c || c == '_'

/-- A text that begins with a letter or an underscore. -/
def Leads (cs : List Char) : Prop :=
  cs.head?.any isLead = true

/-- An identifier that the installer accepts: letters, digits, dots and underscores, at least one,
and the first of them a letter or an underscore. -/
structure IsLegal (id : String) : Prop where
  plain : IsPlain id.toList
  leads : Leads id.toList

instance (id : String) : Decidable (IsLegal id) :=
  decidable_of_iff (IsPlain id.toList ∧ id.toList.head?.any isLead = true)
    ⟨fun ⟨hplain, hleads⟩ => ⟨hplain, hleads⟩, fun h => ⟨h.plain, h.leads⟩⟩

theorem Leads.append {cs : List Char} (h : Leads cs) (ds : List Char) : Leads (cs ++ ds) := by
  cases cs with
  | nil => simp [Leads] at h
  | cons c cs => exact h

theorem Leads.ne_nil {cs : List Char} (h : Leads cs) : cs ≠ [] := by
  rintro rfl
  simp [Leads] at h

/-- Plain text behind a legal identifier leaves it legal. -/
theorem IsLegal.append {id s : String} (h : IsLegal id) (hs : IsPlain s.toList) :
    IsLegal (id ++ s) where
  plain := String.toList_append ▸ h.plain.append hs
  leads := String.toList_append ▸ h.leads.append s.toList

theorem IsLegal.append_dot {id s : String} (h : IsLegal id) (hs : IsPlain s.toList) :
    IsLegal (id ++ "." ++ s) :=
  (h.append (by decide)).append hs

theorem isLegal_folder : ∀ f ∈ specialFolders, IsLegal f.2 := by
  decide +kernel

theorem isLegal_of_isFolderId {id : String} (h : IsFolderId id) : IsLegal id := by
  obtain ⟨f, hf, rfl⟩ := h
  exact isLegal_folder f hf

theorem expandFolders_ne_nil {cs : List Char} (h : cs ≠ []) : expandFolders cs ≠ [] := by
  unfold expandFolders
  refine List.foldlRecOn (motive := (· ≠ [])) specialFolders _ h fun ds hds f hf => ?_
  have hnew : f.2.toList ≠ [] := (isLegal_folder f hf).leads.ne_nil
  exact Text.replaceAll_ne_nil hnew (Text.replaceAll_ne_nil hnew hds)

theorem escape_ne_nil {cs : List Char} (h : cs ≠ []) : escape cs ≠ [] := by
  obtain ⟨c, cs, rfl⟩ := List.exists_cons_of_ne_nil h
  rw [escape, List.flatMap_cons]
  refine List.append_ne_nil_of_left_ne_nil ?_ _
  split
  · simp
  · exact Nat.toDigits_ne_nil

/-- A guarded text begins with what was put in front of a digit or a dot, or with the letter or
underscore that it begins with anyway. -/
theorem leads_guardHead {cs : List Char} (hplain : IsPlain cs) (hne : cs ≠ []) :
    Leads (guardHead true cs) := by
  obtain ⟨c, cs, rfl⟩ := List.exists_cons_of_ne_nil hne
  have hc : isPlain c = true := hplain c List.mem_cons_self
  rw [guardHead, Bool.true_and]
  cases hguarded : (Text.isDigit c || c == '.') with
  | true => rfl
  | false =>
    obtain ⟨hdigit, hdot⟩ := Bool.or_eq_false_iff.1 hguarded
    simp only [hdot, Bool.false_eq_true, if_false]
    simpa [Leads, isLead, isPlain, Text.isAlphanumeric, hdigit, hdot] using hc

theorem leads_expandChars {name : List Char} (h : name ≠ []) : Leads (expandChars true name) :=
  leads_guardHead (isPlain_escape _)
    (escape_ne_nil (by simpa using expandFolders_ne_nil h))

theorem leads_shorten {cs : List Char} (h : Leads cs) : Leads (shorten cs) := by
  unfold shorten
  split
  · rfl
  · exact h

theorem leads_guardTail {cs : List Char} (h : Leads cs) : Leads (guardTail cs) := by
  unfold guardTail
  split
  · exact h.append _
  · exact h

/-- The name that an identifier spells out: what identifies in the given one, or the kind's. -/
def ownName (kind : Kind) (raw : String) : List Char :=
  let name := essential kind (Text.strip Text.isBlank raw.toList)
  if name.isEmpty then kind.typeName.toList else name

/-- The name spelled out. -/
def spelledName (kind : Kind) (raw : String) : String :=
  String.ofList (expandChars true (ownName kind raw))

theorem candidate_eq (kind : Kind) (raw : String) : candidate kind raw = String.ofList (guardTail
    (if kind == .directory then (spelledName kind raw).toList
      else shorten (spelledName kind raw).toList)) := by
  rw [spelledName, String.toList_ofList]
  rfl

theorem ownName_ne_nil (kind : Kind) (raw : String) : ownName kind raw ≠ [] := by
  unfold ownName
  simp only
  split
  · cases kind <;> decide
  · next h => simpa using h

theorem isLegal_spelledName (kind : Kind) (raw : String) : IsLegal (spelledName kind raw) where
  plain := by
    rw [spelledName, String.toList_ofList]
    exact isPlain_guardHead (isPlain_escape _)
  leads := by
    rw [spelledName, String.toList_ofList]
    exact leads_expandChars (ownName_ne_nil kind raw)

theorem isLegal_candidate (kind : Kind) (raw : String) : IsLegal (candidate kind raw) where
  plain := isPlain_candidate kind raw
  leads := by
    have hspelled := (isLegal_spelledName kind raw).leads
    rw [candidate_eq, String.toList_ofList]
    refine leads_guardTail ?_
    split
    · exact hspelled
    · exact leads_shorten hspelled

theorem utf8Size_of_isPlain {c : Char} (h : isPlain c = true) : c.utf8Size = 1 := by
  have hcode := code_of_isPlain h
  rw [Char.utf8Size_eq_one_iff, UInt32.le_iff_toNat_le]
  change c.toNat ≤ 127
  omega

/-- Plain text takes one byte for each character. -/
theorem utf8ByteSize_of_isPlain {cs : List Char} (h : IsPlain cs) :
    (String.ofList cs).utf8ByteSize = cs.length := by
  rw [String.utf8ByteSize_ofList]
  induction cs with
  | nil => rfl
  | cons c cs ih =>
    have hrest : IsPlain cs := fun d hd => h d (List.mem_cons_of_mem _ hd)
    rw [String.utf8Len_cons, ih hrest, utf8Size_of_isPlain (h c List.mem_cons_self),
      List.length_cons]

/-- A text within the bound stays as it is, and a longer one keeps as many of its last bytes as the
bound says behind a mark. The bytes that are left out end where a character ends. -/
inductive Shortens (s : String) : String → Prop
  | within (h : s.utf8ByteSize ≤ maxLength) : Shortens s s
  | beyond (left kept : String) (hs : s = left ++ kept) (hleft : left ≠ "")
      (hkept : kept.utf8ByteSize = maxLength) : Shortens s ("_..." ++ kept)

theorem shortens_shorten {s : String} (h : IsPlain s.toList) :
    Shortens s (String.ofList (shorten s.toList)) := by
  have hbytes := utf8ByteSize_of_isPlain h
  rw [String.ofList_toList] at hbytes
  unfold shorten
  split
  · next hlong =>
    let n := s.toList.length - maxLength
    have hkept : IsPlain (s.toList.drop n) := fun c hc => h c (List.mem_of_mem_drop hc)
    have hmark : String.ofList ('_' :: '.' :: '.' :: '.' :: s.toList.drop n) =
        "_..." ++ String.ofList (s.toList.drop n) := by
      simp [← String.toList_inj]
    rw [hmark]
    refine .beyond (String.ofList (s.toList.take n)) _ ?_ ?_ ?_
    · rw [← String.ofList_append, List.take_append_drop, String.ofList_toList]
    · intro hempty
      have hlength := congrArg (·.toList.length) hempty
      simp only [String.toList_ofList, List.length_take, String.toList_empty, List.length_nil]
        at hlength
      omega
    · rw [utf8ByteSize_of_isPlain hkept, List.length_drop]
      omega
  · next hshort =>
    rw [String.ofList_toList]
    exact .within (by omega)

theorem isLegal_underscored {id : String} (h : IsLegal id) (n : Nat) :
    IsLegal (underscored id n) where
  plain := isPlain_underscored h.plain n
  leads := by
    rw [underscored, String.toList_append]
    exact h.leads.append _

namespace Allocator

theorem isLegal_numbered (kind : Kind) (raw : String) (repeats : Option Nat) :
    IsLegal (numbered (candidate kind raw) repeats) where
  plain := isPlain_numbered kind raw repeats
  leads := by
    have hcandidate := (isLegal_candidate kind raw).leads
    cases repeats with
    | none => exact hcandidate
    | some n =>
      rw [numbered, String.toList_append]
      exact hcandidate.append _

/-- Whatever it was asked before, an allocator gives legal identifiers. -/
theorem isLegal_allocate (a : Allocator) (kind : Kind) (raw : String) :
    IsLegal (a.allocate kind raw).1 := by
  obtain ⟨n, hn⟩ := a.allocate_spec kind raw
  rw [hn]
  exact isLegal_underscored (isLegal_numbered kind raw _) n

end Allocator

end Identifier

end Installer
