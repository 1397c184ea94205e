import Installer.Proofs.Markup.Sections
import Installer.Proofs.Markup.Tags

/-!
# Character data is read back

A reader looks for an opening, takes all up to the first terminator behind it for a section, and goes
on behind that. In the written form of a tree it finds the sections of the tree's character data and
nothing else: angle brackets are written only where a tag or a section opens, and no name looks like
an opening. Since the sections of character data put together give it back, so does what is read.
-/
namespace Installer.Markup

/-- A text up to its first terminator, and what stands behind that. -/
def upToTerminator : List Char → Option (List Char × List Char)
  | [] => none
  | c :: cs =>
      if terminator.isPrefixOf (c :: cs) then some ([], (c :: cs).drop terminator.length)
      else (upToTerminator cs).map fun found => (c :: found.1, found.2)

theorem upToTerminator_eq_some_iff {cs piece behind : List Char} :
    upToTerminator cs = some (piece, behind) ↔ Closes cs piece behind := by
  rw [closes_iff]
  induction cs generalizing piece with
  | nil => simp [upToTerminator, terminator]
  | cons c cs ih =>
    rw [upToTerminator]
    split
    case isTrue hterminator =>
      obtain ⟨rest, hrest⟩ := List.isPrefixOf_iff_prefix.1 hterminator
      have hhere : Closes (c :: cs) [] rest := closes_iff.2 ⟨hrest.symm, by simp [terminator]⟩
      have hbehind : (c :: cs).drop terminator.length = rest := by rw [← hrest, List.drop_left]
      rw [hbehind, Option.some.injEq, Prod.mk.injEq]
      constructor
      · rintro ⟨rfl, rfl⟩
        exact closes_iff.1 hhere
      · exact fun h => hhere.unique (closes_iff.2 h)
    case isFalse hterminator =>
      rw [List.isPrefixOf_iff_prefix] at hterminator
      constructor
      · intro h
        obtain ⟨⟨piece, behind⟩, hfound, heq⟩ := Option.map_eq_some_iff.1 h
        obtain ⟨rfl, rfl⟩ := Prod.mk.inj heq
        obtain ⟨rfl, hpiece⟩ := ih.1 hfound
        refine ⟨rfl, fun hin => (List.infix_cons_iff.1 hin).elim (fun hhead => ?_) hpiece⟩
        exact hterminator (hhead.trans (List.prefix_append (c :: piece) _))
      · rintro ⟨hcs, hpiece⟩
        cases piece with
        | nil => exact absurd ⟨behind, hcs.symm⟩ hterminator
        | cons d piece =>
          obtain ⟨rfl, hrest⟩ := List.cons.inj hcs
          rw [ih.2 ⟨hrest, fun hin => hpiece (List.infix_cons hin)⟩]
          rfl

/-- Behind its first `skip` characters, the sections that a text shows. Whatever stands between an
opening and the first terminator is one section, and the next opening is looked for behind it. -/
def readSectionsFrom : Nat → List Char → List (List Char)
  | _, [] => []
  | skip + 1, _ :: cs => readSectionsFrom skip cs
  | 0, c :: cs =>
      if opening.isPrefixOf (c :: cs) then
        match upToTerminator (cs.drop (opening.length - 1)) with
        | none => []
        | some (piece, _) =>
            piece :: readSectionsFrom (opening.length - 1 + piece.length + terminator.length) cs
      else readSectionsFrom 0 cs

/-- The sections of character data that a text shows. -/
def readSections (text : List Char) : List (List Char) :=
  readSectionsFrom 0 text

theorem readSectionsFrom_eq_drop (skip : Nat) (cs : List Char) :
    readSectionsFrom skip cs = readSections (cs.drop skip) := by
  induction cs generalizing skip with
  | nil => cases skip <;> rfl
  | cons c cs ih =>
    cases skip with
    | zero => rfl
    | succ skip => exact ih skip

theorem readSections_cons_of_not_opening {c : Char} {cs : List Char} (h : ¬opening <+: c :: cs) :
    readSections (c :: cs) = readSections cs := by
  rw [readSections, readSectionsFrom, if_neg (mt List.isPrefixOf_iff_prefix.1 h)]
  rfl

/-- A section is read up to the first terminator behind its opening, and reading goes on there. -/
theorem readSections_of_closes {text piece behind : List Char} (h : Closes text piece behind) :
    readSections (opening ++ text) = piece :: readSections behind := by
  have hcons : opening ++ text = '<' :: (opening.tail ++ text) := rfl
  have hopening : (opening.tail ++ text).drop (opening.length - 1) = text := by
    rw [← List.length_tail, List.drop_left]
  have hbehind : text.drop (piece.length + terminator.length) = behind := by
    rw [h.text_eq, ← List.append_assoc, ← List.length_append, List.drop_left]
  rw [hcons, readSections, readSectionsFrom, ← hcons,
    if_pos (List.isPrefixOf_iff_prefix.2 (List.prefix_append opening text)), hopening,
    upToTerminator_eq_some_iff.2 h]
  dsimp only
  rw [readSectionsFrom_eq_drop, Nat.add_assoc, ← List.drop_drop, hopening, hbehind]

/-- A reader finds the given sections in the text, whatever follows, and goes on behind it. -/
def ReadsAs (text : List Char) (pieces : List (List Char)) : Prop :=
  ∀ r, readSections (text ++ r) = pieces ++ readSections r

namespace ReadsAs

variable {xs ys : List Char} {ps qs : List (List Char)}

theorem nil : ReadsAs [] [] := fun _ => rfl

theorem append (hx : ReadsAs xs ps) (hy : ReadsAs ys qs) : ReadsAs (xs ++ ys) (ps ++ qs) := by
  intro r
  rw [List.append_assoc, hx, hy, List.append_assoc]

theorem eq (h : ReadsAs xs ps) : readSections xs = ps := by
  simpa [readSections, readSectionsFrom] using h []

/-- Without an angle bracket nothing opens. -/
theorem plain (h : '<' ∉ xs) : ReadsAs xs [] := by
  induction xs with
  | nil => exact nil
  | cons c xs ih =>
    obtain ⟨hc, hxs⟩ := not_or.1 (mt List.mem_cons.2 h)
    intro r
    rw [List.cons_append, readSections_cons_of_not_opening]
    · exact ih hxs r
    · rintro ⟨rest, hrest⟩
      exact hc (List.cons.inj hrest).1

/-- A tag opens no section, as long as no exclamation mark stands behind its angle bracket. -/
theorem tag {c : Char} (hc : c ≠ '!') (h : '<' ∉ c :: xs) : ReadsAs ('<' :: c :: xs) [] := by
  intro r
  rw [List.cons_append, readSections_cons_of_not_opening]
  · exact plain h r
  · rintro ⟨rest, hrest⟩
    exact hc (List.cons.inj (List.cons.inj hrest).2).1.symm

/-- Sections without a terminator in them are read one after the other. -/
theorem row {pieces : List (List Char)} (h : ∀ piece ∈ pieces, ¬terminator <:+: piece) :
    ReadsAs (pieces.flatMap cdataSection) pieces := by
  induction pieces with
  | nil => exact nil
  | cons piece pieces ih =>
    obtain ⟨hpiece, hmore⟩ := List.forall_mem_cons.1 h
    intro r
    rw [flatMap_cdataSection_cons, readSections_of_closes (closes_iff.2 ⟨rfl, hpiece⟩), ih hmore]
    rfl

end ReadsAs

/-- The character data of a tree, in document order. -/
def Element.characterData : Element → List String
  | ⟨_, _, children⟩ => below children
where
  below : List (Content Element) → List String
    | [] => []
    | .element c :: rest => c.characterData ++ below rest
    | .text _ :: rest => below rest
    | .cdata s :: rest => s :: below rest

/-- A tree in which all elements and attributes have names. -/
inductive Element.WellNamed : Element → Prop
  | mk {name : String} {attributes : List (String × String)} {children : List (Content Element)}
      (hname : IsName name) (hattributes : ∀ a ∈ attributes, IsName a.1)
      (helements : ∀ e, .element e ∈ children → WellNamed e) : WellNamed ⟨name, attributes, children⟩

theorem not_mem_escape (s : String) : '<' ∉ escape s := fun hin => (ne_of_mem_escape hin).1 rfl

theorem not_mem_of_isName {name : String} (h : IsName name) : '<' ∉ name.toList := fun hin =>
  absurd (h.2 _ hin) (by decide)

theorem not_mem_tagBody {name : String} {attributes : List (String × String)} (hname : IsName name)
    (hattributes : ∀ a ∈ attributes, IsName a.1) : '<' ∉ tagBody name attributes := by
  have hattribute : ∀ a ∈ attributes, '<' ∉ writeAttribute a := by
    intro a ha
    simp [writeAttribute, not_mem_of_isName (hattributes a ha), not_mem_escape]
  rw [tagBody, List.mem_append, List.mem_flatMap]
  rintro (hin | ⟨a, ha, hin⟩)
  · exact not_mem_of_isName hname hin
  · exact hattribute a ha hin

theorem readsAs_tagBody {name : String} {attributes : List (String × String)} (hname : IsName name)
    (hattributes : ∀ a ∈ attributes, IsName a.1) :
    ReadsAs ('<' :: tagBody name attributes) [] := by
  have hplain := not_mem_tagBody hname hattributes
  obtain ⟨c, cs, hcs, hc⟩ := hname.exists_cons
  have hbang : c ≠ '!' := by
    rintro rfl
    exact absurd hc (by decide)
  rw [tagBody, hcs] at hplain ⊢
  exact .tag hbang hplain

theorem readsAs_break (breaks : Bool) (level : Nat) :
    ReadsAs (if breaks then newLine level else []) [] := by
  refine .plain ?_
  cases breaks <;> simp [newLine]

/-- In a row of children its character data is read, if so it is in every element of the row. -/
theorem readsAs_writeChildren {cs : List (Content Element)}
    (h : ∀ e, .element e ∈ cs → ∀ level,
      ReadsAs (writeElement level e) (e.characterData.flatMap cdataSections))
    (level : Nat) (breaks : Bool) : ReadsAs (writeElement.writeChildren level breaks cs)
      ((Element.characterData.below cs).flatMap cdataSections) := by
  induction cs generalizing breaks with
  | nil => exact .nil
  | cons c cs ih =>
    have hmore := ih fun e he => h e (List.mem_cons_of_mem c he)
    cases c with
    | element e =>
      rw [writeElement.writeChildren, Element.characterData.below, List.flatMap_append]
      exact ((readsAs_break breaks level).append (h e List.mem_cons_self level)).append (hmore true)
    | text s => exact (ReadsAs.plain (not_mem_escape s)).append (hmore false)
    | cdata s => exact (ReadsAs.row fun _ => not_terminator_infix).append (hmore false)

theorem readsAs_writeElement {e : Element} (h : e.WellNamed) (level : Nat) :
    ReadsAs (writeElement level e) (e.characterData.flatMap cdataSections) := by
  -- The induction is on the names of the tree: it gives the same for the elements in the row.
  induction h generalizing level with
  | @mk name attributes children hname hattributes helements ih =>
    have htag := readsAs_tagBody hname hattributes
    rw [writeElement, Element.characterData]
    split
    case isTrue hnone =>
      rw [List.isEmpty_iff.1 hnone]
      exact htag.append (.plain (by decide))
    case isFalse =>
      have hend : ReadsAs ['>'] [] := .plain (by decide)
      have hrow : ReadsAs ('>' :: writeElement.writeChildren (level + 1) true children)
          ((Element.characterData.below children).flatMap cdataSections) :=
        hend.append (readsAs_writeChildren ih (level + 1) true)
      have hbreak : ReadsAs (if breaksAfter true children then newLine level else []) [] :=
        readsAs_break _ level
      have hclose : ReadsAs ('<' :: '/' :: name.toList) [] :=
        .tag (by decide) (by simp [not_mem_of_isName hname])
      simpa using (((htag.append hrow).append hbreak).append hclose).append hend

/-- In a document its character data is found, cut into sections, and nothing else. -/
theorem readSections_render {root : Element} (h : root.WellNamed) :
    readSections (render root).toList = root.characterData.flatMap cdataSections := by
  have hdeclaration : ReadsAs declaration [] := .tag (by decide) (by decide)
  have hbreak : ReadsAs (newLine 0) [] := readsAs_break true 0
  have hend : ReadsAs ['\n'] [] := .plain (by decide)
  have hdocument := ((hdeclaration.append hbreak).append (readsAs_writeElement h 0)).append hend
  simpa [render] using hdocument.eq

/-- Character data is cut into sections that give it back. There is at least one, put together they
are the data, and none has a terminator in it, so that the first terminator behind the opening of a
section is the one that closes it. Hence a reader of the row finds the sections and with them the
data, whatever follows, and a reader of a document finds them in their place among the sections of
its other character data. -/
theorem sections_read_back (d : String) :
    cdataSections d ≠ [] ∧ (cdataSections d).flatten = d.toList ∧
      (∀ s ∈ cdataSections d, ¬terminator <:+: s) ∧
      (∀ before s behind r, cdataSections d = before ++ s :: behind →
        ∃ text, (cdataSections d).flatMap cdataSection ++ r =
            before.flatMap cdataSection ++ (opening ++ text) ∧
          Closes text s (behind.flatMap cdataSection ++ r)) ∧
      (∀ r, readSections ((cdataSections d).flatMap cdataSection ++ r) =
        cdataSections d ++ readSections r) ∧
      (readSections ((cdataSections d).flatMap cdataSection)).flatten = d.toList ∧
      ∀ (root : Element) (before behind : List String), root.WellNamed →
        root.characterData = before ++ d :: behind →
        readSections (render root).toList =
          before.flatMap cdataSections ++ (cdataSections d ++ behind.flatMap cdataSections) := by
  have hsections : ∀ s ∈ cdataSections d, ¬terminator <:+: s := fun _ => not_terminator_infix
  have hflatten : (cdataSections d).flatten = d.toList := flatten_sectionsFrom 0 d.toList
  have hrow : ReadsAs ((cdataSections d).flatMap cdataSection) (cdataSections d) := .row hsections
  refine ⟨sectionsFrom_ne_nil 0 d.toList, hflatten, hsections, ?closed, hrow, ?alone, ?document⟩
  case closed =>
    intro before s behind r hd
    refine ⟨s ++ (terminator ++ (behind.flatMap cdataSection ++ r)), ?_, ?_⟩
    · rw [hd, List.flatMap_append, List.append_assoc, flatMap_cdataSection_cons]
    · exact closes_iff.2 ⟨rfl, hsections s (by simp [hd])⟩
  case alone =>
    rw [hrow.eq, hflatten]
  case document =>
    intro root before behind hroot hdata
    rw [readSections_render hroot, hdata, List.flatMap_append, List.flatMap_cons]

/-- Brackets before a terminator, two terminators side by side and what only looks like an opening
move no section. -/
theorem sections_read_back_overlapping :
    let root : Element := ⟨"a", [("k", "]]>")],
      [.text "<![CDATA[", .element ⟨"b", [], [.cdata "<![CDATA["]⟩, .cdata "]]]>]]>]"]⟩
    cdataSections "]]]>]]>]" = ["]]]".toList] ++ ">]]".toList :: [">]".toList] ∧
      Closes ">]]]]><![CDATA[>]]]>".toList ">]]".toList "<![CDATA[>]]]>".toList ∧
      root.WellNamed ∧ root.characterData = ["<![CDATA["] ++ "]]]>]]>]" :: [] ∧
      readSections (render root).toList = ["<![CDATA[", "]]]", ">]]", ">]"].map String.toList := by
  intro root
  obtain ⟨-, -, -, hclosed, -, -, hdocument⟩ := sections_read_back "]]]>]]>]"
  have hsections : cdataSections "]]]>]]>]" =
      ["]]]".toList] ++ ">]]".toList :: [">]".toList] := by decide
  obtain ⟨text, -, hcloses⟩ := hclosed _ _ _ [] hsections
  have hroot : root.WellNamed := by
    refine .mk (by decide) (by decide) fun e he => ?_
    obtain rfl : e = ⟨"b", [], [.cdata "<![CDATA["]⟩ := by simpa using he
    exact .mk (by decide) (by simp) (by simp)
  refine ⟨hsections, ?_, hroot, rfl, ?_⟩
  · obtain rfl := hcloses.text_eq
    exact hcloses
  · rw [hdocument root ["<![CDATA["] [] hroot rfl, hsections]
    decide

end Installer.Markup
