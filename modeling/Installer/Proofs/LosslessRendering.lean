import Installer.Proofs.Markup.Sections
import Installer.Proofs.Markup.Tags
import Mathlib.Data.List.Chain

/-!
# Rendering loses nothing

The written form of a tree can be read in one way only, as long as its names are names, its texts
are not mistaken for indentation, and no two texts and no two pieces of character data stand side by
side. What is left of a row tells what its next child is: behind the indentation stands a closing
tag, a section of character data, a tag, or none of these and hence a text.
-/
namespace Installer.Markup

def indentation : List Char :=
  [' ', '\n']

/-- Two children can stand side by side and be told apart. -/
def Apart : Content Element → Content Element → Prop
  | .text _, .text _ => False
  | .cdata _, .cdata _ => False
  | _, _ => True

instance : ∀ c d, Decidable (Apart c d)
  | .element _, _ => .isTrue trivial
  | .text _, .element _ => .isTrue trivial
  | .text _, .text _ => .isFalse id
  | .text _, .cdata _ => .isTrue trivial
  | .cdata _, .element _ => .isTrue trivial
  | .cdata _, .text _ => .isTrue trivial
  | .cdata _, .cdata _ => .isFalse id

/-- A text is more than indentation, as each text is that is not empty and not all white space. -/
def IsVisible (s : String) : Prop :=
  ∃ c ∈ s.toList, c ∉ indentation

instance (s : String) : Decidable (IsVisible s) :=
  decidable_of_iff (s.toList.any (fun c => decide (c ∉ indentation)) = true) (by simp [IsVisible])

/-- A tree whose written form can be read: its names are names, its texts can be seen, and what
stands side by side in it can be told apart. -/
inductive Element.Legible : Element → Prop
  | mk {name : String} {attributes : List (String × String)} {children : List (Content Element)}
      (hname : IsName name) (hattributes : ∀ a ∈ attributes, IsName a.1)
      (hapart : children.IsChain Apart) (htexts : ∀ s, .text s ∈ children → IsVisible s)
      (helements : ∀ e, .element e ∈ children → Legible e) : Legible ⟨name, attributes, children⟩

/-- The line break before a tag, where a line may be broken. -/
def lineBreak (breaks : Bool) (level : Nat) : List Char :=
  if breaks then newLine level else []

theorem mem_lineBreak {breaks : Bool} {level : Nat} {c : Char} (h : c ∈ lineBreak breaks level) :
    c ∈ indentation := by
  cases breaks <;> simp_all [lineBreak, newLine, indentation]
  tauto

/-- What is left inside an element of which a row of children is still to come: the row, the closing
tag up to the element's name, and what follows. -/
def inside (level : Nat) (breaks : Bool) (children : List (Content Element)) (r : List Char) :
    List Char :=
  writeElement.writeChildren (level + 1) breaks children ++
    (lineBreak (breaksAfter breaks children) level ++ '<' :: '/' :: r)

section

variable (level : Nat) (breaks : Bool) (cs : List (Content Element)) (r : List Char)

theorem inside_nil : inside level breaks [] r = lineBreak breaks level ++ '<' :: '/' :: r := by
  simp [inside, writeElement.writeChildren, breaksAfter]

theorem inside_element (e : Element) :
    inside level breaks (.element e :: cs) r =
      lineBreak breaks (level + 1) ++ (writeElement (level + 1) e ++ inside level true cs r) := by
  simp only [inside, writeElement.writeChildren, breaksAfter, lineBreak, List.append_assoc]
  rfl

theorem inside_text (s : String) :
    inside level breaks (.text s :: cs) r = escape s ++ inside level false cs r := by
  simp [inside, writeElement.writeChildren, breaksAfter]

theorem inside_cdata (s : String) :
    inside level breaks (.cdata s :: cs) r =
      (cdataSections s).flatMap cdataSection ++ inside level false cs r := by
  simp [inside, writeElement.writeChildren, breaksAfter]

end

/-- What is left behind the attributes of an element. -/
def behindAttributes (level : Nat) (e : Element) (r : List Char) : List Char :=
  match e.children with
  | [] => '/' :: '>' :: r
  | cs => '>' :: inside level true cs (e.name.toList ++ '>' :: r)

theorem endsTag_behindAttributes (level : Nat) (e : Element) (r : List Char) :
    EndsTag (behindAttributes level e r) := by
  unfold behindAttributes
  split
  · exact ⟨'/', _, rfl, Or.inl rfl⟩
  · exact ⟨'>', _, rfl, Or.inr rfl⟩

theorem writeElement_append (level : Nat) (e : Element) (r : List Char) :
    writeElement level e ++ r =
      '<' :: (tagBody e.name e.attributes ++ behindAttributes level e r) := by
  obtain ⟨name, attributes, children⟩ := e
  cases children with
  | nil => simp [writeElement, behindAttributes]
  | cons c cs => simp [writeElement, behindAttributes, inside, lineBreak]

/-- What may come next in a row. -/
inductive Sign where
  | close
  | element
  | text
  | cdata
deriving DecidableEq

/-- What comes next in a row of children. -/
def Sign.ofRow : List (Content Element) → Sign
  | [] => .close
  | .element _ :: _ => .element
  | .text _ :: _ => .text
  | .cdata _ :: _ => .cdata

/-- What comes next, as it is read off what stands behind the indentation. -/
def Sign.ofUnindented : List Char → Sign
  | '<' :: '/' :: _ => .close
  | '<' :: '!' :: _ => .cdata
  | '<' :: _ => .element
  | _ => .text

/-- What comes next, as it is read off what is left. -/
def Sign.read (cs : List Char) : Sign :=
  .ofUnindented (cs.dropWhile (· ∈ indentation))

/-- Indentation is passed by. -/
theorem Sign.read_append {xs : List Char} (hxs : ∀ c ∈ xs, c ∈ indentation) (r : List Char) :
    Sign.read (xs ++ r) = Sign.read r := by
  rw [Sign.read, List.dropWhile_append_of_pos (by simpa using hxs), Sign.read]

theorem Sign.read_tag (r : List Char) : Sign.read ('<' :: r) = .ofUnindented ('<' :: r) := by
  rw [Sign.read, List.dropWhile_cons_of_neg (by decide)]

theorem Sign.ofUnindented_of_ne {c : Char} (h : c ≠ '<') (r : List Char) :
    Sign.ofUnindented (c :: r) = .text := by
  unfold Sign.ofUnindented
  split <;> simp_all

/-- Tags of elements begin with a character of a name, unlike closing tags and sections. -/
theorem Sign.read_element {e : Element} (he : IsName e.name) (level : Nat) (r : List Char) :
    Sign.read (writeElement level e ++ r) = .element := by
  obtain ⟨c, cs, hcs, hc⟩ := he.exists_cons
  have hslash : c ≠ '/' := by rintro rfl; exact absurd hc (by decide)
  have hbang : c ≠ '!' := by rintro rfl; exact absurd hc (by decide)
  rw [writeElement_append, Sign.read_tag, tagBody, hcs]
  unfold Sign.ofUnindented
  split <;> simp_all

theorem Sign.read_cdata (s : String) (r : List Char) :
    Sign.read ((cdataSections s).flatMap cdataSection ++ r) = .cdata := by
  obtain ⟨x, xs, hxs⟩ := List.exists_cons_of_ne_nil (sectionsFrom_ne_nil 0 s.toList)
  rw [cdataSections, hxs, flatMap_cdataSection_cons]
  exact Sign.read_tag _

/-- A text that can be seen shows a character that opens no tag. -/
theorem Sign.read_text {s : String} (hs : IsVisible s) (r : List Char) :
    Sign.read (escape s ++ r) = .text := by
  obtain ⟨c, hc, hseen⟩ := hs
  have hwritten : ∃ d ∈ escape s, d ∉ indentation := by
    rcases escapeChar_cases c with ⟨_, hhead⟩ | ⟨_, hself⟩
    · exact ⟨'&', List.mem_flatMap.2 ⟨c, hc, List.mem_of_mem_head? hhead⟩, by decide⟩
    · exact ⟨c, List.mem_flatMap.2 ⟨c, hc, by simp [hself]⟩, hseen⟩
  cases hrest : (escape s).dropWhile (· ∈ indentation) with
  | nil =>
    obtain ⟨d, hd, hseen⟩ := hwritten
    exact absurd (by simpa using List.dropWhile_eq_nil_iff.1 hrest d hd) hseen
  | cons d ds =>
    have hd : d ∈ escape s := (List.dropWhile_suffix _).subset (hrest ▸ List.mem_cons_self)
    rw [Sign.read, List.dropWhile_append, hrest]
    exact Sign.ofUnindented_of_ne (ne_of_mem_escape hd).1 (ds ++ r)

/-- What the children of a legible element have in common. -/
structure LegibleRow (cs : List (Content Element)) : Prop where
  apart : cs.IsChain Apart
  texts : ∀ s, .text s ∈ cs → IsVisible s
  elements : ∀ e, .element e ∈ cs → e.Legible

theorem LegibleRow.tail {c : Content Element} {cs : List (Content Element)}
    (h : LegibleRow (c :: cs)) : LegibleRow cs where
  apart := h.apart.tail
  texts s hs := h.texts s (List.mem_cons_of_mem c hs)
  elements e he := h.elements e (List.mem_cons_of_mem c he)

theorem Element.Legible.isName {e : Element} (h : e.Legible) : IsName e.name := by
  cases h with
  | mk hname => exact hname

/-- What is left of a row tells what comes next in it. -/
theorem Sign.read_inside {cs : List (Content Element)} (h : LegibleRow cs) (level : Nat)
    (breaks : Bool) (r : List Char) : Sign.read (inside level breaks cs r) = Sign.ofRow cs := by
  have hbreak : ∀ level : Nat, ∀ c ∈ lineBreak breaks level, c ∈ indentation := fun _ _ =>
    mem_lineBreak
  match cs with
  | [] =>
    rw [inside_nil, Sign.read_append (hbreak _)]
    exact Sign.read_tag _
  | .element e :: cs =>
    rw [inside_element, Sign.read_append (hbreak _)]
    exact Sign.read_element (h.elements e List.mem_cons_self).isName _ _
  | .text s :: cs =>
    rw [inside_text]
    exact Sign.read_text (h.texts s List.mem_cons_self) _
  | .cdata s :: cs =>
    rw [inside_cdata]
    exact Sign.read_cdata s _

/-- Behind a text a tag or a section opens at once. -/
theorem head?_inside_of_text {s : String} {cs : List (Content Element)}
    (h : LegibleRow (.text s :: cs)) (level : Nat) (r : List Char) :
    (inside level false cs r).head? = some '<' := by
  match cs, h.apart with
  | [], _ =>
    rw [inside_nil]
    rfl
  | .element e :: cs, _ =>
    rw [inside_element, writeElement_append]
    rfl
  | .cdata t :: cs, _ =>
    obtain ⟨x, xs, hxs⟩ := List.exists_cons_of_ne_nil (sectionsFrom_ne_nil 0 t.toList)
    rw [inside_cdata, cdataSections, hxs, flatMap_cdataSection_cons]
    rfl
  | .text t :: cs, hapart => exact absurd hapart.rel id

/-- Behind character data no section opens. -/
theorem not_opening_inside_of_cdata {s : String} {cs : List (Content Element)}
    (h : LegibleRow (.cdata s :: cs)) (level : Nat) (r : List Char) :
    ¬opening <+: inside level false cs r := by
  rintro ⟨t, ht⟩
  have hnext : Sign.ofRow cs = .cdata := by
    rw [← Sign.read_inside h.tail level false r, ← ht]
    exact Sign.read_tag _
  match cs, h.apart with
  | [], _ => cases hnext
  | .element e :: cs, _ => cases hnext
  | .text t :: cs, _ => cases hnext
  | .cdata t :: cs, hapart => exact absurd hapart.rel id

/-- A row of children is read off what is left of it, if each element in it is read off its written
form. -/
theorem row_inj {cs ds : List (Content Element)} (hcs : LegibleRow cs) (hds : LegibleRow ds)
    (hread : ∀ e, .element e ∈ cs → ∀ {f : Element}, f.Legible → ∀ {level : Nat} {r s : List Char},
      writeElement level e ++ r = writeElement level f ++ s → e = f ∧ r = s)
    {level : Nat} {breaks : Bool} {r s : List Char}
    (h : inside level breaks cs r = inside level breaks ds s) : cs = ds ∧ r = s := by
  induction cs generalizing ds breaks with
  | nil =>
    have hnext := congrArg Sign.read h
    rw [Sign.read_inside hcs, Sign.read_inside hds] at hnext
    match ds with
    | [] =>
      rw [inside_nil, inside_nil] at h
      exact ⟨rfl, by simpa using List.append_cancel_left h⟩
  | cons c cs ih =>
    have hnext := congrArg Sign.read h
    rw [Sign.read_inside hcs, Sign.read_inside hds] at hnext
    have hmore : ∀ {ds : List (Content Element)} {breaks : Bool}, LegibleRow ds →
        inside level breaks cs r = inside level breaks ds s → cs = ds ∧ r = s := fun hds =>
      ih hcs.tail hds fun e he => hread e (List.mem_cons_of_mem c he)
    match c, ds with
    | .element e, .element f :: ds =>
      rw [inside_element, inside_element] at h
      obtain ⟨rfl, hbehind⟩ := hread e List.mem_cons_self (hds.elements f List.mem_cons_self)
        (List.append_cancel_left h)
      obtain ⟨rfl, hrest⟩ := hmore hds.tail hbehind
      exact ⟨rfl, hrest⟩
    | .text a, .text b :: ds =>
      rw [inside_text, inside_text] at h
      have hplain : ∀ t : String, ∀ c ∈ escape t, decide (c ≠ '<') = true := fun t c hc =>
        decide_eq_true (ne_of_mem_escape hc).1
      obtain ⟨hescape, hbehind⟩ := append_inj_of_run (hplain a) (hplain b)
        (by simp [head?_inside_of_text hcs]) (by simp [head?_inside_of_text hds]) h
      obtain ⟨rfl, hrest⟩ := hmore hds.tail hbehind
      exact ⟨by rw [escape_injective hescape], hrest⟩
    | .cdata a, .cdata b :: ds =>
      rw [inside_cdata, inside_cdata] at h
      obtain ⟨rfl, hbehind⟩ := cdata_inj (not_opening_inside_of_cdata hcs level r)
        (not_opening_inside_of_cdata hds level s) h
      obtain ⟨rfl, hrest⟩ := hmore hds.tail hbehind
      exact ⟨rfl, hrest⟩

/-- A legible element is read off its written form, whatever follows. -/
theorem Element.Legible.inj {a b : Element} (ha : a.Legible) (hb : b.Legible) {level : Nat}
    {r s : List Char} (h : writeElement level a ++ r = writeElement level b ++ s) :
    a = b ∧ r = s := by
  -- The induction is on what makes the first tree legible: it gives the same for its children.
  induction ha generalizing b level r s with
  | @mk name attributes children hname hattributes hapart htexts helements ih =>
    obtain @⟨name', attributes', children', hname', hattributes', hapart', htexts', hinner'⟩ := hb
    rw [writeElement_append, writeElement_append] at h
    obtain ⟨rfl, rfl, hbehind⟩ := tagBody_inj hname hname' hattributes hattributes'
      (endsTag_behindAttributes ..) (endsTag_behindAttributes ..) (List.cons.inj h).2
    have hrow : LegibleRow children := ⟨hapart, htexts, helements⟩
    have hrow' : LegibleRow children' := ⟨hapart', htexts', hinner'⟩
    match children, children' with
    | [], [] => exact ⟨rfl, by simpa [behindAttributes] using hbehind⟩
    | [], d :: ds => simp [behindAttributes] at hbehind
    | c :: cs, [] => simp [behindAttributes] at hbehind
    | c :: cs, d :: ds =>
      obtain ⟨hchildren, hclose⟩ := row_inj hrow hrow' (fun e he _ hf => ih e he hf)
        (List.cons.inj hbehind).2
      rw [hchildren]
      exact ⟨rfl, by simpa using hclose⟩

/-- Legible trees with the same written form are the same. -/
theorem render_eq_iff {a b : Element} (ha : a.Legible) (hb : b.Legible) :
    render a = render b ↔ a = b := by
  refine ⟨fun h => ?_, fun h => h ▸ rfl⟩
  have hwritten := String.ofList_injective h
  simp only [List.append_assoc] at hwritten
  exact (ha.inj hb (List.append_cancel_left (List.append_cancel_left hwritten))).1

/-- A blank at the end of a text is seen in the document, and so is a section cut in two. -/
theorem render_ne_of_blank_behind :
    let tree := fun s : String =>
      (⟨"a", [("k", "<")], [.text s, .element ⟨"b", [], []⟩, .cdata "]]>"]⟩ : Element)
    (tree "x").Legible ∧ (tree "x ").Legible ∧ render (tree "x") ≠ render (tree "x ") := by
  intro tree
  have hb : Element.Legible ⟨"b", [], []⟩ :=
    .mk (by decide) (by simp) (by simp) (by simp) (by simp)
  have htree : ∀ s, IsVisible s → (tree s).Legible := fun s hs =>
    .mk (by decide) (by decide) (by simp [Apart]) (by simpa using hs) (by simpa using hb)
  have hx : (tree "x").Legible := htree _ (by decide)
  have hy : (tree "x ").Legible := htree _ (by decide)
  refine ⟨hx, hy, fun h => ?_⟩
  simpa [tree] using (render_eq_iff hx hy).1 h

end Installer.Markup
