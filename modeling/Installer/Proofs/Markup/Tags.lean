import Installer.Markup.Render
import Installer.Text.Basic
import Mathlib.Data.List.TakeWhile

/-!
# Reading tags and texts off their written form

A written value has no quote and a written text no angle bracket in it, so each ends where the next
one stands, and escaping keeps characters apart. A name ends at the first character that names do
not have.
-/
namespace Installer.Markup

/-- A row of characters with a property ends where the property does. -/
theorem append_inj_of_run {p : Char → Bool} {xs ys r s : List Char} (hxs : ∀ c ∈ xs, p c = true)
    (hys : ∀ c ∈ ys, p c = true) (hr : ∀ c ∈ r.head?, p c = false)
    (hs : ∀ c ∈ s.head?, p c = false) (h : xs ++ r = ys ++ s) : xs = ys ∧ r = s := by
  have hrun : ∀ {zs t : List Char}, (∀ c ∈ zs, p c = true) → (∀ c ∈ t.head?, p c = false) →
      (zs ++ t).takeWhile p = zs := by
    intro zs t hzs ht
    have hend : t.takeWhile p = [] := by
      cases t with
      | nil => rfl
      | cons c t => rw [List.takeWhile_cons_of_neg (by simpa using ht c rfl)]
    rw [List.takeWhile_append_of_pos hzs, hend, List.append_nil]
  have hsame : xs = ys := by rw [← hrun hxs hr, h, hrun hys hs]
  exact ⟨hsame, List.append_cancel_left (hsame ▸ h)⟩

/-- The characters that are written as references. -/
def escapedChars : List Char :=
  ['<', '>', '&', '\x27', '\x22']

/-- A character is written as a reference or as it is. -/
theorem escapeChar_cases (c : Char) :
    (c ∈ escapedChars ∧ (escapeChar c).head? = some '&') ∨
      (c ∉ escapedChars ∧ escapeChar c = [c]) := by
  unfold escapeChar
  split
  case h_6 hlt hgt hamp hapos hquot =>
    exact Or.inr ⟨by simpa [escapedChars] using ⟨hlt, hgt, hamp, hapos, hquot⟩, rfl⟩
  all_goals exact Or.inl ⟨by decide, rfl⟩

/-- References are told apart by their beginnings. -/
theorem escapeChar_inj {c d : Char} {r s : List Char}
    (h : escapeChar c ++ r = escapeChar d ++ s) : c = d ∧ r = s := by
  rcases escapeChar_cases c with ⟨hc, hchead⟩ | ⟨hc, hcself⟩ <;>
    rcases escapeChar_cases d with ⟨hd, hdhead⟩ | ⟨hd, hdself⟩
  · simp only [escapedChars, List.mem_cons, List.not_mem_nil, or_false] at hc hd
    rcases hc with rfl | rfl | rfl | rfl | rfl <;> rcases hd with rfl | rfl | rfl | rfl | rfl <;>
      simp_all [escapeChar]
  · obtain ⟨cs, hcs⟩ := List.head?_eq_some_iff.1 hchead
    rw [hcs, hdself] at h
    obtain ⟨rfl, _⟩ := List.cons.inj h
    exact absurd (by decide) hd
  · obtain ⟨ds, hds⟩ := List.head?_eq_some_iff.1 hdhead
    rw [hcself, hds] at h
    obtain ⟨rfl, _⟩ := List.cons.inj h
    exact absurd (by decide) hc
  · rw [hcself, hdself] at h
    exact List.cons.inj h

theorem escape_injective {a b : String} (h : escape a = escape b) : a = b := by
  have hlist : ∀ cs ds : List Char, cs.flatMap escapeChar = ds.flatMap escapeChar → cs = ds := by
    intro cs
    induction cs with
    | nil =>
      intro ds h
      cases ds with
      | nil => rfl
      | cons d ds => rcases escapeChar_cases d with ⟨_, hd⟩ | ⟨_, hd⟩ <;> simp_all
    | cons c cs ih =>
      intro ds h
      cases ds with
      | nil => rcases escapeChar_cases c with ⟨_, hc⟩ | ⟨_, hc⟩ <;> simp_all
      | cons d ds =>
        obtain ⟨rfl, hrest⟩ := escapeChar_inj h
        rw [ih ds hrest]
  exact String.toList_inj.1 (hlist _ _ h)

/-- No angle bracket opens and no quote stands in a written text. -/
theorem ne_of_mem_escape {s : String} {c : Char} (h : c ∈ escape s) : c ≠ '<' ∧ c ≠ '\x22' := by
  have hwritten : ∀ d, ∀ e ∈ escapeChar d, e ≠ '<' ∧ e ≠ '\x22' := by
    intro d
    unfold escapeChar
    split
    case h_6 hlt _ _ _ hquot => simpa using ⟨hlt, hquot⟩
    all_goals simp
  obtain ⟨d, _, hcd⟩ := List.mem_flatMap.1 h
  exact hwritten d c hcd

/-- The characters that names are made of: letters and digits of ASCII, dots, underscores, hyphens
and colons. -/
def isNameChar (c : Char) : Bool :=
  Text.isAlphanumeric c || c ∈ ['.', '_', '-', ':']

/-- A name of an element or of an attribute. -/
def IsName (s : String) : Prop :=
  s ≠ "" ∧ ∀ c ∈ s.toList, isNameChar c = true

instance (s : String) : Decidable (IsName s) :=
  decidable_of_iff (s ≠ "" ∧ s.toList.all isNameChar = true) (by rw [IsName, List.all_eq_true])

theorem IsName.exists_cons {s : String} (h : IsName s) :
    ∃ c cs, s.toList = c :: cs ∧ isNameChar c = true := by
  obtain ⟨c, cs, hcs⟩ := List.exists_cons_of_ne_nil (mt String.toList_eq_nil_iff.1 h.1)
  exact ⟨c, cs, hcs, h.2 c (by simp [hcs])⟩

/-- A name is read off where no character of a name follows. -/
theorem name_inj {m n : String} (hm : IsName m) (hn : IsName n) {r s : List Char}
    (hr : ∀ c ∈ r.head?, isNameChar c = false) (hs : ∀ c ∈ s.head?, isNameChar c = false)
    (h : m.toList ++ r = n.toList ++ s) : m = n ∧ r = s := by
  obtain ⟨hname, hrest⟩ := append_inj_of_run hm.2 hn.2 hr hs h
  exact ⟨String.toList_inj.1 hname, hrest⟩

theorem writeAttribute_append (a : String × String) (r : List Char) :
    writeAttribute a ++ r =
      ' ' :: (a.1.toList ++ '=' :: '\x22' :: (escape a.2 ++ '\x22' :: r)) := by
  simp [writeAttribute]

/-- An attribute is read off its written form. -/
theorem attribute_inj {a b : String × String} (ha : IsName a.1) (hb : IsName b.1) {r s : List Char}
    (h : writeAttribute a ++ r = writeAttribute b ++ s) : a = b ∧ r = s := by
  rw [writeAttribute_append, writeAttribute_append] at h
  have hequals : isNameChar '=' = false := by decide
  obtain ⟨hname, hvalue⟩ := name_inj ha hb (by simpa using hequals) (by simpa using hequals)
    (List.cons.inj h).2
  simp only [List.cons.injEq, true_and] at hvalue
  have hplain : ∀ v : String, ∀ c ∈ escape v, decide (c ≠ '\x22') = true := fun v c hc =>
    decide_eq_true (ne_of_mem_escape hc).2
  obtain ⟨hescape, hrest⟩ := append_inj_of_run (hplain a.2) (hplain b.2) (by simp) (by simp) hvalue
  exact ⟨Prod.ext hname (escape_injective hescape), (List.cons.inj hrest).2⟩

/-- What may follow the attributes of a tag. -/
def EndsTag (r : List Char) : Prop :=
  ∃ c cs, r = c :: cs ∧ (c = '/' ∨ c = '>')

theorem EndsTag.not_name {r : List Char} (h : EndsTag r) : ∀ c ∈ r.head?, isNameChar c = false := by
  obtain ⟨c, cs, rfl, rfl | rfl⟩ := h <;> simpa using (by decide : isNameChar _ = false)

theorem not_endsTag_attributes {a : String × String} {as : List (String × String)} {r s : List Char}
    (hs : EndsTag s) : (a :: as).flatMap writeAttribute ++ r ≠ s := by
  obtain ⟨c, cs, rfl, hc⟩ := hs
  rw [List.flatMap_cons, List.append_assoc, writeAttribute_append]
  intro h
  obtain ⟨rfl, _⟩ := List.cons.inj h
  exact absurd hc (by decide)

theorem attributes_inj {as bs : List (String × String)} (has : ∀ a ∈ as, IsName a.1)
    (hbs : ∀ b ∈ bs, IsName b.1) {r s : List Char} (hr : EndsTag r) (hs : EndsTag s)
    (h : as.flatMap writeAttribute ++ r = bs.flatMap writeAttribute ++ s) : as = bs ∧ r = s := by
  induction as generalizing bs with
  | nil =>
    cases bs with
    | nil => exact ⟨rfl, h⟩
    | cons b bs => exact absurd h.symm (not_endsTag_attributes hr)
  | cons a as ih =>
    cases bs with
    | nil => exact absurd h (not_endsTag_attributes hs)
    | cons b bs =>
      obtain ⟨ha, hmore⟩ := List.forall_mem_cons.1 has
      obtain ⟨hb, hmore'⟩ := List.forall_mem_cons.1 hbs
      rw [List.flatMap_cons, List.flatMap_cons, List.append_assoc, List.append_assoc] at h
      obtain ⟨rfl, hbehind⟩ := attribute_inj ha hb h
      obtain ⟨rfl, hrest⟩ := ih hmore hmore' hbehind
      exact ⟨rfl, hrest⟩

/-- The name and the attributes of a tag are read off its written form. -/
theorem tagBody_inj {m n : String} {as bs : List (String × String)} (hm : IsName m) (hn : IsName n)
    (has : ∀ a ∈ as, IsName a.1) (hbs : ∀ b ∈ bs, IsName b.1) {r s : List Char} (hr : EndsTag r)
    (hs : EndsTag s) (h : tagBody m as ++ r = tagBody n bs ++ s) : m = n ∧ as = bs ∧ r = s := by
  have hend : ∀ (cs : List (String × String)) {t : List Char}, EndsTag t →
      ∀ c ∈ (cs.flatMap writeAttribute ++ t).head?, isNameChar c = false := by
    intro cs t ht
    cases cs with
    | nil => exact ht.not_name
    | cons d cs =>
      rw [List.flatMap_cons, List.append_assoc, writeAttribute_append]
      simpa using (by decide : isNameChar ' ' = false)
  rw [tagBody, tagBody, List.append_assoc, List.append_assoc] at h
  obtain ⟨rfl, hattributes⟩ := name_inj hm hn (hend as hr) (hend bs hs) h
  exact ⟨rfl, attributes_inj has hbs hr hs hattributes⟩

end Installer.Markup
