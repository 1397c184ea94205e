import Installer.Proofs.Identifier.Legal

/-!
# Spelled-out identifiers

Below a legal identifier the name of a directory is spelled out behind a dot, and what stands before
the dot stays untouched: no blank, no mark of a rooted path, no folder to expand and no digit to guard
is in it. No generated identifier looks like that of a numbered root.
-/
namespace Installer

namespace Text

/-- Replacing goes past a text that no occurrence of the pattern can begin in. -/
theorem replaceAll_append {c : Char} {pat xs : List Char} (hxs : c ∉ xs) (new ys : List Char) :
    replaceAll (c :: pat) new (xs ++ ys) = xs ++ replaceAll (c :: pat) new ys := by
  unfold replaceAll
  induction xs with
  | nil => rfl
  | cons x xs ih =>
    obtain ⟨hne, hxs⟩ : c ≠ x ∧ c ∉ xs := by simpa using hxs
    have hprefix : ¬(c :: pat).isPrefixOf (x :: (xs ++ ys)) = true := by
      simp [List.isPrefixOf, hne]
    rw [List.cons_append, replaceFrom, if_neg hprefix, ih hxs]
    rfl

/-- Where replacing puts a character, it was there before or is one of those put in. -/
theorem mem_of_mem_replaceFrom {c : Char} {pat new : List Char} {skip : Nat} {cs : List Char}
    (h : c ∈ replaceFrom pat new skip cs) : c ∈ new ∨ c ∈ cs := by
  induction cs generalizing skip with
  | nil =>
    cases skip <;> simp [replaceFrom] at h
  | cons x xs ih =>
    cases skip with
    | succ skip => exact (ih h).imp_right (List.mem_cons_of_mem _)
    | zero =>
      rw [replaceFrom] at h
      split at h
      · rcases List.mem_append.1 h with h | h
        · exact Or.inl h
        · exact (ih h).imp_right (List.mem_cons_of_mem _)
      · rcases List.mem_cons.1 h with rfl | h
        · exact Or.inr List.mem_cons_self
        · exact (ih h).imp_right (List.mem_cons_of_mem _)

end Text

namespace Identifier

theorem head?_placeholder : ∀ f ∈ specialFolders, ∃ rest, f.1.toList = '%' :: rest := by
  have hheads : ∀ f ∈ specialFolders, f.1.toList.head? = some '%' := by decide +kernel
  exact fun f hf => List.head?_eq_some_iff.1 (hheads f hf)

/-- Folders are expanded only behind `%` or `[`. -/
theorem expandFolders_append {xs : List Char} (hpercent : '%' ∉ xs) (hbracket : '[' ∉ xs)
    (ys : List Char) : expandFolders (xs ++ ys) = xs ++ expandFolders ys := by
  unfold expandFolders
  generalize hfolders : specialFolders = fs
  have hheads : ∀ f ∈ fs, ∃ rest, f.1.toList = '%' :: rest := hfolders ▸ head?_placeholder
  clear hfolders
  induction fs generalizing ys with
  | nil => rfl
  | cons f fs ih =>
    obtain ⟨⟨rest, hrest⟩, hfs⟩ := List.forall_mem_cons.1 hheads
    rw [List.foldl_cons, List.foldl_cons, ← ih _ hfs, hrest, bracketed, List.cons_append,
      Text.replaceAll_append hpercent, Text.replaceAll_append hbracket]

/-- Expanding folders brings no backslash into a text. -/
theorem backslash_not_mem_expandFolders {cs : List Char} (h : '\\' ∉ cs) :
    '\\' ∉ expandFolders cs := by
  refine List.foldlRecOn (motive := ('\\' ∉ ·)) specialFolders _ h fun ds hds f hf hmem => ?_
  have hfolder : '\\' ∉ f.2.toList := fun hf2 =>
    absurd ((folder_spec f hf).1 _ hf2) (by decide)
  have hfirst := (Text.mem_of_mem_replaceFrom hmem).resolve_left hfolder
  exact hds ((Text.mem_of_mem_replaceFrom hfirst).resolve_left hfolder)

/-- The characters of a plain text mark no folder and separate no segments. -/
theorem IsPlain.not_mem {cs : List Char} (h : IsPlain cs) : '%' ∉ cs ∧ '[' ∉ cs ∧ '\\' ∉ cs :=
  ⟨fun hc => absurd (h _ hc) (by decide), fun hc => absurd (h _ hc) (by decide),
    fun hc => absurd (h _ hc) (by decide)⟩

theorem guardHead_of_leads {cs : List Char} (h : Leads cs) : guardHead true cs = cs := by
  cases cs with
  | nil => rfl
  | cons c cs =>
    have hlead : isLead c = true := h
    have hdot : c ≠ '.' := by
      rintro rfl
      exact absurd hlead (by decide)
    have hdigit : Text.isDigit c = false := by
      rcases Bool.or_eq_true_iff.1 hlead with hletter | hunderscore
      · exact Text.isDigit_of_isLetter hletter
      · rw [eq_of_beq hunderscore]
        decide
    simp [guardHead, hdot, hdigit]

theorem escape_append (cs ds : List Char) : escape (cs ++ ds) = escape cs ++ escape ds :=
  List.flatMap_append

theorem map_dot_of_not_mem {cs : List Char} (h : '\\' ∉ cs) :
    (cs.map fun c => if c == '\\' then '.' else c) = cs := by
  refine (List.map_congr_left fun c hc => ?_).trans (List.map_id cs)
  have hne : c ≠ '\\' := fun heq => h (heq ▸ hc)
  simp [hne]

/-- A segment of a path as it is spelled out: without blanks at its end, with folders by their
identifiers, backslashes as dots, and characters that may not stand in an identifier as hexadecimal
code points. -/
def spelledSegment (name : String) : String :=
  String.ofList (escape ((expandFolders (Text.dropTail Text.isBlank name.toList)).map fun c =>
    if c == '\\' then '.' else c))

/-- Segments between separators have no backslashes. -/
theorem spelledSegment_of_not_mem {name : String} (h : '\\' ∉ name.toList) : spelledSegment name =
    String.ofList (escape (expandFolders (Text.dropTail Text.isBlank name.toList))) := by
  have hkept : '\\' ∉ expandFolders (Text.dropTail Text.isBlank name.toList) :=
    backslash_not_mem_expandFolders fun hmem =>
      h (List.mem_reverse.1 ((List.dropWhile_sublist _).mem (List.mem_reverse.1 hmem)))
  rw [spelledSegment, map_dot_of_not_mem hkept]

/-- Behind a dot a text is guarded as it would be alone. -/
theorem guardTail_append_dot (xs ys : List Char) : guardTail (xs ++ '.' :: ys) =
    xs ++ '.' :: ys ++ if ys.getLast?.any Text.isDigit then ['_'] else [] := by
  have hlast : (xs ++ '.' :: ys).getLast?.any Text.isDigit = ys.getLast?.any Text.isDigit := by
    rw [List.getLast?_append_of_ne_nil _ (List.cons_ne_nil _ _)]
    cases ys with
    | nil => rfl
    | cons y ys => rw [List.getLast?_cons_cons]
  rw [guardTail, hlast]
  split
  · rfl
  · rw [List.append_nil]

/-- Below a legal identifier a name is spelled out behind a dot. -/
theorem candidate_below_legal {parent : String} (h : IsLegal parent) (name : String) :
    candidate .directory (parent ++ "." ++ name) = parent ++ "." ++ spelledSegment name ++
      if (spelledSegment name).toList.getLast?.any Text.isDigit then "_" else "" := by
  obtain ⟨hpercent, hbracket, hbackslash⟩ := h.plain.not_mem
  have hexpanded : expandChars true
      (parent.toList ++ '.' :: Text.dropTail Text.isBlank name.toList) =
        parent.toList ++ '.' :: (spelledSegment name).toList := by
    have hdot := @expandFolders_append ['.'] (by decide) (by decide)
      (Text.dropTail Text.isBlank name.toList)
    rw [List.singleton_append] at hdot
    rw [expandChars, expandFolders_append hpercent hbracket, hdot, List.map_append,
      map_dot_of_not_mem hbackslash, escape_append, escape_of_isPlain h.plain,
      guardHead_of_leads (h.leads.append _), spelledSegment, String.toList_ofList]
    generalize expandFolders _ = ds
    rfl
  rw [candidate_below h.plain, hexpanded, guardTail_append_dot, ← String.toList_inj]
  split <;> simp

/-- The identifier spells out the name below that of its parent: behind a dot comes the segment, with
an underscore behind a digit at its end, then perhaps a number that tells it from others, and then
underscores. -/
def SpellsBelow (parent name id : String) : Prop :=
  ∃ suffix underscores, (suffix = "" ∨ ∃ n, 0 < n ∧ suffix = "." ++ String.ofList (Text.decimal n)) ∧
    id = parent ++ "." ++ spelledSegment name ++
      (if (spelledSegment name).toList.getLast?.any Text.isDigit then "_" else "") ++ suffix ++
        String.ofList (List.replicate underscores '_')

theorem spellsBelow_allocate (a : Allocator) {parent : String} (h : IsLegal parent)
    (name : String) :
    SpellsBelow parent name (a.allocate .directory (parent ++ "." ++ name)).1 := by
  obtain ⟨n, hn⟩ := a.allocate_spec .directory (parent ++ "." ++ name)
  rw [hn, candidate_below_legal h]
  cases a.repeats? .directory _ with
  | none => exact ⟨"", n, Or.inl rfl, by rw [String.append_empty, underscored, Allocator.numbered]⟩
  | some k =>
    refine ⟨"." ++ String.ofList (Text.decimal (k + 1)), n, Or.inr ⟨k + 1, by omega, rfl⟩, ?_⟩
    rw [underscored, Allocator.numbered, ← List.singleton_append, String.ofList_append]

/-- Nothing that is spelled out is a text without dots and a number behind it. -/
theorem not_isSpelled_append_digits {root : String} (hroot : '.' ∉ root.toList) {ds : List Char}
    (hne : ds ≠ []) (hds : ∀ d ∈ ds, Text.isDigit d = true) :
    ¬IsSpelled (root ++ String.ofList ds) := by
  rw [IsSpelled, String.toList_append, String.toList_ofList,
    List.getLast?_append_of_ne_nil _ hne, List.getLast?_eq_some_getLast hne, Option.any_some,
    hds _ (List.getLast_mem hne)]
  rintro (hdot | hlast)
  · refine (List.mem_append.1 hdot).elim hroot fun hdigit => ?_
    exact absurd (hds _ hdigit) (by decide)
  · exact absurd hlast (by decide)

/-- No identifier that an allocator gives is such a text. -/
theorem Allocator.allocate_ne_append_digits (a : Allocator) (kind : Kind) (raw : String)
    {root : String} (hroot : '.' ∉ root.toList) {ds : List Char} (hne : ds ≠ [])
    (hds : ∀ d ∈ ds, Text.isDigit d = true) :
    (a.allocate kind raw).1 ≠ root ++ String.ofList ds := by
  intro h
  exact not_isSpelled_append_digits hroot hne hds (h ▸ a.isSpelled_allocate kind raw)

end Identifier

end Installer
