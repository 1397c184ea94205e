import Installer.Proofs.Identifier.Freshness

/-!
# The form of generated identifiers

A generated identifier is made of plain characters. Either it has a dot in it or it does not end in
a digit, so it is no numbered identifier; and it is that of a special folder only where the very
folder was asked for first.
-/
namespace Installer

namespace Text

/-- Replacing leaves characters alone that the pattern does not have. -/
theorem mem_replaceFrom {c : Char} {pat : List Char} (hpat : pat ≠ []) (hc : c ∉ pat)
    (new : List Char) {skip : Nat} {cs : List Char} (h : c ∈ cs.drop skip) :
    c ∈ replaceFrom pat new skip cs := by
  induction cs generalizing skip with
  | nil => simp at h
  | cons x xs ih =>
    cases skip with
    | succ skip => exact ih (by simpa using h)
    | zero =>
      rw [replaceFrom]
      by_cases hprefix : pat.isPrefixOf (x :: xs) = true
      · obtain ⟨rest, hrest⟩ := List.isPrefixOf_iff_prefix.1 hprefix
        have hmem : c ∈ rest := by
          have hmem : c ∈ pat ++ rest := by simpa [hrest] using h
          exact (List.mem_append.1 hmem).resolve_left hc
        have hdrop : xs.drop (pat.length - 1) = rest := by
          obtain ⟨y, ys, rfl⟩ := List.exists_cons_of_ne_nil hpat
          obtain ⟨_, rfl⟩ := List.cons.inj hrest
          simp
        rw [if_pos hprefix]
        exact List.mem_append_right _ (ih (hdrop ▸ hmem))
      · rw [if_neg hprefix]
        rcases List.mem_cons.1 (by simpa using h) with rfl | h
        · exact List.mem_cons_self
        · exact List.mem_cons_of_mem _ (ih (by simpa using h))

theorem mem_replaceAll {c : Char} {pat : List Char} (hpat : pat ≠ []) (hc : c ∉ pat)
    (new : List Char) {cs : List Char} (h : c ∈ cs) : c ∈ replaceAll pat new cs :=
  mem_replaceFrom hpat hc new (by simpa using h)

theorem isDigit_of_isLetter {c : Char} (h : isLetter c = true) : isDigit c = false := by
  have h9 : '9'.val.toNat = 57 := rfl
  have hA : 'A'.val.toNat = 65 := rfl
  have ha : 'a'.val.toNat = 97 := rfl
  simp only [isLetter, isDigit, Bool.or_eq_true, Bool.and_eq_true, decide_eq_true_eq,
    Bool.and_eq_false_iff, decide_eq_false_iff_not, Char.le_def, UInt32.le_iff_toNat_le] at h ⊢
  omega

theorem isDigit_of_mem_decimal {n : Nat} {c : Char} (h : c ∈ decimal n) : isDigit c = true := by
  have hdigit : c.isDigit = true := Nat.isDigit_of_mem_toDigits (by decide) (by decide) h
  simpa [Char.isDigit, isDigit, Char.le_def] using hdigit

theorem decimal_injective : Function.Injective decimal := by
  intro m n h
  have hvalue := congrArg (fun cs => Nat.ofDigitChars 10 cs 0) h
  simpa [decimal] using hvalue

/-- A number at the end of a text ends it in a digit. -/
theorem getLast?_append_decimal (cs : List Char) (n : Nat) :
    (cs ++ decimal n).getLast?.any isDigit = true := by
  have hne : decimal n ≠ [] := Nat.toDigits_ne_nil
  rw [List.getLast?_append_of_ne_nil _ hne, List.getLast?_eq_some_getLast hne, Option.any_some,
    isDigit_of_mem_decimal (List.getLast_mem hne)]

end Text

namespace Identifier

theorem isPlain_of_isDigit {c : Char} (h : Text.isDigit c = true) : isPlain c = true := by
  simp [isPlain, Text.isAlphanumeric, h]

theorem isPlain_of_mem_hex {n : Nat} {c : Char} (h : c ∈ Text.hex n) : isPlain c = true := by
  have hdigit : ∀ d < 16, isPlain d.digitChar = true := by decide
  induction n using Nat.strongRecOn with
  | ind n ih =>
    rw [Text.hex, Nat.toDigits_eq_if (by decide)] at h
    split at h
    · next hlt => exact List.mem_singleton.1 h ▸ hdigit n hlt
    · rcases List.mem_append.1 h with h | h
      · exact ih (n / 16) (by omega) h
      · exact List.mem_singleton.1 h ▸ hdigit (n % 16) (Nat.mod_lt _ (by decide))

theorem code_of_isPlain {c : Char} (h : isPlain c = true) : (97 ≤ c.toNat ∧ c.toNat ≤ 122) ∨
    (65 ≤ c.toNat ∧ c.toNat ≤ 90) ∨ (48 ≤ c.toNat ∧ c.toNat ≤ 57) ∨ c.toNat = 46 ∨
      c.toNat = 95 := by
  simp only [isPlain, Text.isAlphanumeric, Text.isLetter, Text.isDigit, Bool.or_eq_true,
    Bool.and_eq_true, decide_eq_true_eq, beq_iff_eq, Char.le_def, UInt32.le_iff_toNat_le] at h
  rcases h with (((h | h) | h) | rfl) | rfl
  · exact Or.inl h
  · exact Or.inr (Or.inl h)
  · exact Or.inr (Or.inr (Or.inl h))
  · simp
  · simp

/-- A plain character is neither blank nor a sign of a rooted path. -/
theorem not_isBlank_of_isPlain {c : Char} (h : isPlain c = true) :
    Text.isBlank c = false ∧ isSeparator c = false ∧ c ≠ ':' := by
  have hcode := code_of_isPlain h
  refine ⟨?_, ?_, ?_⟩
  · simp only [Text.isBlank, Bool.or_eq_false_iff, Bool.and_eq_false_iff, decide_eq_false_iff_not,
      beq_eq_false_iff_ne]
    omega
  · simp only [isSeparator, Bool.or_eq_false_iff, beq_eq_false_iff_ne]
    constructor <;> rintro rfl <;> simp at hcode
  · rintro rfl
    simp at hcode

/-- A text of plain characters only. -/
def IsPlain (cs : List Char) : Prop :=
  ∀ c ∈ cs, isPlain c = true

instance (cs : List Char) : Decidable (IsPlain cs) :=
  decidable_of_iff (cs.all isPlain = true) List.all_eq_true

theorem IsPlain.append {cs ds : List Char} (hc : IsPlain cs) (hd : IsPlain ds) :
    IsPlain (cs ++ ds) :=
  List.forall_mem_append.2 ⟨hc, hd⟩

theorem IsPlain.cons {c : Char} {cs : List Char} (hc : isPlain c = true) (hcs : IsPlain cs) :
    IsPlain (c :: cs) :=
  List.forall_mem_cons.2 ⟨hc, hcs⟩

theorem isPlain_escape (cs : List Char) : IsPlain (escape cs) := by
  intro d hd
  obtain ⟨c, _, hc⟩ := List.mem_flatMap.1 hd
  split at hc
  · next hplain => exact List.mem_singleton.1 hc ▸ hplain
  · exact isPlain_of_mem_hex hc

theorem escape_of_isPlain {cs : List Char} (h : IsPlain cs) : escape cs = cs := by
  induction cs with
  | nil => rfl
  | cons c cs ih =>
    obtain ⟨hc, hcs⟩ := List.forall_mem_cons.1 h
    have hrest : escape cs = cs := ih hcs
    rw [escape, List.flatMap_cons, if_pos hc, ← escape, hrest]
    rfl

theorem isPlain_guardHead {guardDigit : Bool} {cs : List Char} (h : IsPlain cs) :
    IsPlain (guardHead guardDigit cs) := by
  cases cs with
  | nil => exact h
  | cons c cs =>
    rw [guardHead]
    split
    · exact h.cons (by decide)
    · split
      · exact IsPlain.cons (by decide) fun d hd => h d (by simp [hd])
      · exact h

theorem isPlain_guardTail {cs : List Char} (h : IsPlain cs) : IsPlain (guardTail cs) := by
  unfold guardTail
  split
  · exact h.append (by simp [IsPlain, isPlain])
  · exact h

theorem isPlain_shorten {cs : List Char} (h : IsPlain cs) : IsPlain (shorten cs) := by
  unfold shorten
  split
  · have hkept : IsPlain (cs.drop (cs.length - maxLength)) :=
      fun c hc => h c (List.mem_of_mem_drop hc)
    exact (((hkept.cons (by decide)).cons (by decide)).cons (by decide)).cons (by decide)
  · exact h

theorem isPlain_candidate (kind : Kind) (raw : String) : IsPlain (candidate kind raw).toList := by
  rw [candidate, String.toList_ofList]
  refine isPlain_guardTail ?_
  have hexpanded : ∀ name, IsPlain (expandChars true name) := fun name =>
    isPlain_guardHead (isPlain_escape _)
  split
  · exact hexpanded _
  · exact isPlain_shorten (hexpanded _)

theorem getLast?_guardTail (cs : List Char) :
    (guardTail cs).getLast?.any Text.isDigit = false := by
  unfold guardTail
  split
  · simp [Text.isDigit]
  · next h => simpa using h

/-- A candidate does not end in a digit. -/
theorem getLast?_candidate (kind : Kind) (raw : String) :
    (candidate kind raw).toList.getLast?.any Text.isDigit = false := by
  rw [candidate, String.toList_ofList]
  exact getLast?_guardTail _

theorem placeholder_spec : ∀ f ∈ specialFolders, f.1.toList ≠ [] ∧ '.' ∉ f.1.toList := by
  decide +kernel

/-- The identifiers of special folders are of a kind of their own. -/
theorem folder_spec : ∀ f ∈ specialFolders, IsPlain f.2.toList ∧ '.' ∉ f.2.toList ∧
    f.2.toList.getLast? ≠ some '_' ∧ "TARGETDIR".toList.isPrefixOf f.2.toList = false ∧
    f.2 ≠ "INSTALLDIR" := by
  decide +kernel

theorem dot_not_mem_folder {f : String × String} (hf : f ∈ specialFolders) : '.' ∉ f.2.toList :=
  (folder_spec f hf).2.1

theorem dot_mem_expandFolders {cs : List Char} (h : '.' ∈ cs) : '.' ∈ expandFolders cs := by
  refine List.foldlRecOn specialFolders _ h fun ds hds f hf => ?_
  obtain ⟨hne, hplaceholder⟩ := placeholder_spec f hf
  have hexpanded := Text.mem_replaceAll hne hplaceholder f.2.toList hds
  refine Text.mem_replaceAll (by simp [bracketed]) ?_ _ hexpanded
  simpa [bracketed] using dot_not_mem_folder hf

theorem dot_mem_expandChars {cs : List Char} (h : '.' ∈ cs) : '.' ∈ expandChars true cs := by
  have hmap : '.' ∈ (expandFolders cs).map fun c => if c == '\\' then '.' else c :=
    List.mem_map.2 ⟨'.', dot_mem_expandFolders h, rfl⟩
  have hescape : '.' ∈ escape ((expandFolders cs).map fun c => if c == '\\' then '.' else c) :=
    List.mem_flatMap.2 ⟨'.', hmap, by decide⟩
  unfold expandChars
  revert hescape
  generalize escape _ = ds
  intro hescape
  cases ds with
  | nil => exact hescape
  | cons d ds =>
    rw [guardHead]
    split
    · exact List.mem_cons_of_mem _ hescape
    · split
      · next hne hdot => simp [hdot] at hne
      · exact hescape

/-- Stripping leaves plain characters at the front alone, and a dot behind them. -/
theorem strip_append_dot {xs : List Char} (hxs : IsPlain xs) (ys : List Char) :
    Text.strip Text.isBlank (xs ++ '.' :: ys) = xs ++ '.' :: Text.dropTail Text.isBlank ys := by
  have hfront : (xs ++ '.' :: ys).dropWhile Text.isBlank = xs ++ '.' :: ys := by
    cases xs with
    | nil => rfl
    | cons x xs => simp [(not_isBlank_of_isPlain (hxs x (by simp))).1]
  have hdot : Text.isBlank '.' = false := rfl
  rw [Text.strip, hfront, Text.dropTail, Text.dropTail, List.reverse_append, List.reverse_cons,
    List.append_assoc, List.dropWhile_append]
  split
  · next h => simp [hdot, List.isEmpty_iff.1 h]
  · simp

theorem not_isRootedChars {xs : List Char} (hxs : IsPlain xs) (ys : List Char) :
    isRootedChars (xs ++ '.' :: ys) = false := by
  cases xs with
  | nil => cases ys <;> rfl
  | cons x xs =>
    have hx := (not_isBlank_of_isPlain (hxs x (by simp))).2.1
    cases xs with
    | nil => simp [isRootedChars, hx]
    | cons y xs =>
      have hy := (not_isBlank_of_isPlain (hxs y (by simp))).2.2
      simp [isRootedChars, hx, hy]

/-- Of the name of a directory below another everything identifies, but blanks at its end. -/
theorem essential_below {parent : String} (hparent : IsPlain parent.toList) (name : String) :
    essential .directory (Text.strip Text.isBlank (parent ++ "." ++ name).toList) =
      parent.toList ++ '.' :: Text.dropTail Text.isBlank name.toList := by
  have hlist : (parent ++ "." ++ name).toList = parent.toList ++ '.' :: name.toList := by simp
  rw [hlist, strip_append_dot hparent, essential, not_isRootedChars hparent]
  rfl

/-- The candidate for a directory below another spells out the identifier of the other, a dot, and
the name. -/
theorem candidate_below {parent : String} (hparent : IsPlain parent.toList) (name : String) :
    candidate .directory (parent ++ "." ++ name) = String.ofList (guardTail (expandChars true
      (parent.toList ++ '.' :: Text.dropTail Text.isBlank name.toList))) := by
  have hne : (parent.toList ++ '.' :: Text.dropTail Text.isBlank name.toList).isEmpty = false := by
    simp
  rw [candidate, candidateChars, essential_below hparent]
  simp only [hne, Bool.false_eq_true, if_false, beq_self_eq_true, if_true]

/-- The candidate for a directory below another has a dot. -/
theorem dot_mem_candidate {parent : String} (hparent : IsPlain parent.toList) (name : String) :
    '.' ∈ (candidate .directory (parent ++ "." ++ name)).toList := by
  have hdot : '.' ∈ expandChars true
      (parent.toList ++ '.' :: Text.dropTail Text.isBlank name.toList) :=
    dot_mem_expandChars (by simp)
  rw [candidate_below hparent, String.toList_ofList]
  unfold guardTail
  split
  · exact List.mem_append_left _ hdot
  · exact hdot

/-- An identifier that is spelled out: a dot in it or no digit at its end. -/
def IsSpelled (id : String) : Prop :=
  '.' ∈ id.toList ∨ id.toList.getLast?.any Text.isDigit = false

/-- The identifier of a special folder. -/
def IsFolderId (id : String) : Prop :=
  ∃ f ∈ specialFolders, f.2 = id

theorem isFolderId_of_specialFolder? {segment folder : String}
    (h : specialFolder? segment = some folder) : IsFolderId folder := by
  obtain ⟨f, hf, rfl⟩ := Option.map_eq_some_iff.1 h
  exact ⟨f, List.mem_of_find?_eq_some hf, rfl⟩

theorem isPlain_of_isFolderId {id : String} (h : IsFolderId id) : IsPlain id.toList := by
  obtain ⟨f, hf, rfl⟩ := h
  exact (folder_spec f hf).1

theorem isPlain_underscored {id : String} (h : IsPlain id.toList) (n : Nat) :
    IsPlain (underscored id n).toList := by
  rw [underscored, String.toList_append, String.toList_ofList]
  refine h.append fun c hc => ?_
  rw [List.eq_of_mem_replicate hc]
  decide

namespace Allocator

/-- An allocated identifier is the numbered candidate with underscores behind it. -/
theorem allocate_spec (a : Allocator) (kind : Kind) (raw : String) :
    ∃ n, (a.allocate kind raw).1 = underscored (numbered (candidate kind raw)
      (a.repeats? kind (Text.fold (candidate kind raw)))) n := by
  obtain ⟨n, hn, _⟩ := freshen_spec a.taken a.taken.length (numbered (candidate kind raw)
    (a.repeats? kind (Text.fold (candidate kind raw))))
  exact ⟨n, hn⟩

theorem isPlain_numbered (kind : Kind) (raw : String) (repeats : Option Nat) :
    IsPlain (numbered (candidate kind raw) repeats).toList := by
  cases repeats with
  | none => exact isPlain_candidate kind raw
  | some n =>
    rw [numbered, String.toList_append, String.toList_ofList]
    refine (isPlain_candidate kind raw).append (IsPlain.cons (by decide) fun c hc => ?_)
    exact isPlain_of_isDigit (Text.isDigit_of_mem_decimal hc)

theorem isPlain_allocate (a : Allocator) (kind : Kind) (raw : String) :
    IsPlain (a.allocate kind raw).1.toList := by
  obtain ⟨n, hn⟩ := a.allocate_spec kind raw
  rw [hn]
  exact isPlain_underscored (isPlain_numbered kind raw _) n

theorem isSpelled_allocate (a : Allocator) (kind : Kind) (raw : String) :
    IsSpelled (a.allocate kind raw).1 := by
  obtain ⟨n, hn⟩ := a.allocate_spec kind raw
  rw [hn, underscored]
  cases n with
  | succ n => exact Or.inr (by simp [List.replicate_succ', Text.isDigit])
  | zero =>
    cases a.repeats? kind (Text.fold (candidate kind raw)) with
    | some n => exact Or.inl (by simp [numbered])
    | none => exact Or.inr (by simpa [numbered] using getLast?_candidate kind raw)

/-- The allocator gives the identifier of a special folder where the candidate is just that, nobody
asked for it before, and it is not in use. -/
theorem allocate_eq_folder_iff (a : Allocator) {folder : String} (hfolder : IsFolderId folder)
    (kind : Kind) (raw : String) :
    (a.allocate kind raw).1 = folder ↔ candidate kind raw = folder ∧
      a.repeats? kind (Text.fold folder) = none ∧ folder ∉ a.taken := by
  obtain ⟨f, hf, rfl⟩ := hfolder
  obtain ⟨_, _, hend, _⟩ := folder_spec f hf
  constructor
  · intro hid
    obtain ⟨n, hn⟩ := a.allocate_spec kind raw
    rw [hid] at hn
    cases n with
    | succ n =>
      refine absurd ?_ hend
      rw [hn, underscored]
      simp [List.replicate_succ']
    | zero =>
      rw [underscored_zero] at hn
      cases hrepeats : a.repeats? kind (Text.fold (candidate kind raw)) with
      | some n =>
        refine absurd ?_ (dot_not_mem_folder hf)
        rw [hn, hrepeats]
        simp [numbered]
      | none =>
        have hcandidate : candidate kind raw = f.2 := by
          rw [hn, hrepeats]
          rfl
        refine ⟨hcandidate, hcandidate ▸ hrepeats, ?_⟩
        rw [← hid]
        exact a.allocate_not_mem kind raw
  · rintro ⟨hcandidate, hrepeats, hfree⟩
    change freshen a.taken a.taken.length _ = _
    rw [hcandidate, hrepeats]
    obtain ⟨n, hn, hbelow, _⟩ := freshen_spec a.taken a.taken.length (numbered f.2 none)
    have hzero : n = 0 := by
      by_contra hpos
      have := hbelow 0 (by omega)
      rw [underscored_zero] at this
      exact hfree this
    rw [hn, hzero, underscored_zero]
    rfl

end Allocator

end Identifier

end Installer
