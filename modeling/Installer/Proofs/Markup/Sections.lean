import Installer.Markup.Render
import Mathlib.Data.List.Infix

/-!
# Sections of character data

Character data is cut inside every terminator, so its sections put together give it back and none of
them has a terminator in it. That is why a section ends at the first terminator behind its opening,
and why a row of sections is read off its written form.
-/
namespace Installer.Markup

/-- The sections put together are the text behind what was skipped. -/
theorem flatten_sectionsFrom (skip : Nat) (cs : List Char) :
    (sectionsFrom skip cs).flatten = cs.drop skip := by
  induction cs generalizing skip with
  | nil => cases skip <;> rfl
  | cons c cs ih =>
    cases skip with
    | succ skip =>
      rw [sectionsFrom, ih]
      rfl
    | zero =>
      rw [sectionsFrom]
      split
      case isTrue hterminator =>
        obtain ⟨rest, hrest⟩ := List.isPrefixOf_iff_prefix.1 hterminator
        obtain ⟨rfl, rfl⟩ := List.cons.inj hrest
        have hbehind := ih 2
        cases hsections : sectionsFrom 2 (']' :: '>' :: rest) <;> simp_all [terminator]
      case isFalse =>
        have hbehind := ih 0
        cases hsections : sectionsFrom 0 cs <;> simp_all

theorem sectionsFrom_ne_nil (skip : Nat) (cs : List Char) : sectionsFrom skip cs ≠ [] := by
  induction cs generalizing skip with
  | nil => cases skip <;> simp [sectionsFrom]
  | cons c cs ih =>
    cases skip with
    | succ skip => exact ih skip
    | zero =>
      rw [sectionsFrom]
      split <;> split <;> simp

/-- No section has a terminator in it. -/
theorem not_terminator_infix {skip : Nat} {cs piece : List Char}
    (h : piece ∈ sectionsFrom skip cs) : ¬terminator <:+: piece := by
  induction cs generalizing skip piece with
  | nil =>
    obtain rfl : piece = [] := by cases skip <;> simpa [sectionsFrom] using h
    simp [terminator]
  | cons c cs ih =>
    cases skip with
    | succ skip => exact ih h
    | zero =>
      rw [sectionsFrom] at h
      split at h
      case isTrue hterminator =>
        obtain ⟨first, pieces, hsections⟩ := List.exists_cons_of_ne_nil (sectionsFrom_ne_nil 2 cs)
        simp only [hsections, List.mem_cons] at h
        rcases h with rfl | rfl | h
        · decide
        · rw [List.infix_cons_iff]
          have hfirst := ih (show first ∈ sectionsFrom 2 cs by simp [hsections])
          exact fun h => h.elim (by simp [terminator]) hfirst
        · exact ih (show piece ∈ sectionsFrom 2 cs by simp [hsections, h])
      case isFalse hterminator =>
        obtain ⟨first, pieces, hsections⟩ := List.exists_cons_of_ne_nil (sectionsFrom_ne_nil 0 cs)
        simp only [hsections, List.mem_cons] at h
        rcases h with rfl | h
        · -- The section begins the text, and the text begins with no terminator.
          have hprefix : first <+: cs := by
            have hflatten := flatten_sectionsFrom 0 cs
            rw [hsections, List.flatten_cons, List.drop_zero] at hflatten
            exact ⟨_, hflatten⟩
          have hfirst := ih (show first ∈ sectionsFrom 0 cs by simp [hsections])
          rw [List.infix_cons_iff]
          refine fun h => h.elim (fun hhead => hterminator ?_) hfirst
          exact List.isPrefixOf_iff_prefix.2
            (hhead.trans (List.cons_prefix_cons.2 ⟨rfl, hprefix⟩))
        · exact ih (show piece ∈ sectionsFrom 0 cs by simp [hsections, h])

/-- The first terminator of a text stands right behind the piece at its beginning, and in front of all
that is `behind`. -/
structure Closes (text piece behind : List Char) : Prop where
  text_eq : text = piece ++ (terminator ++ behind)
  first : ∀ front, front ++ terminator <+: text → piece.length ≤ front.length

theorem Closes.unique {text x y r s : List Char} (hx : Closes text x r) (hy : Closes text y s) :
    x = y ∧ r = s := by
  have hxy := hx.first y ⟨s, by rw [hy.text_eq, List.append_assoc]⟩
  have hyx := hy.first x ⟨r, by rw [hx.text_eq, List.append_assoc]⟩
  obtain ⟨rfl, hrest⟩ := List.append_inj (hx.text_eq.symm.trans hy.text_eq) (hxy.antisymm hyx)
  exact ⟨rfl, List.append_cancel_left hrest⟩

/-- The terminator behind a piece is the first if there is none in the piece: brackets at its end do
not move the terminator forward. -/
theorem closes_iff {text piece behind : List Char} : Closes text piece behind ↔
    text = piece ++ (terminator ++ behind) ∧ ¬terminator <:+: piece := by
  constructor
  · refine fun h => ⟨h.text_eq, ?_⟩
    rintro ⟨front, back, rfl⟩
    have hle := h.first front ⟨back ++ (terminator ++ behind), by simp [h.text_eq]⟩
    simp only [terminator, List.length_append, List.length_cons] at hle
    omega
  · rintro ⟨rfl, hpiece⟩
    refine ⟨rfl, fun front hfront => ?_⟩
    by_contra hshorter
    obtain ⟨z, rfl⟩ : front <+: piece :=
      List.prefix_of_prefix_length_le ((List.prefix_append _ _).trans hfront)
        (List.prefix_append _ _) (by omega)
    rw [List.append_assoc, List.prefix_append_right_inj] at hfront
    obtain ⟨a, ha⟩ := hfront
    -- What the piece has more would be a beginning of a terminator that does not end in its last
    -- character, or begin with a whole terminator.
    match z with
    | [] => simp at hshorter
    | [_] => simp [terminator] at ha
    | [_, _] => simp [terminator] at ha
    | c :: d :: e :: z =>
      obtain ⟨rfl, rfl, rfl, -⟩ :
          ']' = c ∧ ']' = d ∧ '>' = e ∧ a = z ++ (terminator ++ behind) := by
        simpa [terminator] using ha
      exact hpiece ⟨front, z, by simp [terminator]⟩

/-- Two pieces without a terminator that are each ended by one are the same. -/
theorem append_terminator_inj {x y r s : List Char} (hx : ¬terminator <:+: x)
    (hy : ¬terminator <:+: y) (h : x ++ (terminator ++ r) = y ++ (terminator ++ s)) :
    x = y ∧ r = s := by
  have hfirst : Closes (x ++ (terminator ++ r)) x r := closes_iff.2 ⟨rfl, hx⟩
  exact hfirst.unique (closes_iff.2 ⟨h, hy⟩)

/-- What opens a section. -/
def opening : List Char :=
  "<![CDATA[".toList

theorem flatMap_cdataSection_cons (x : List Char) (xs : List (List Char)) (r : List Char) :
    (x :: xs).flatMap cdataSection ++ r =
      opening ++ (x ++ (terminator ++ (xs.flatMap cdataSection ++ r))) := by
  have hsection : cdataSection x = opening ++ x ++ terminator := rfl
  rw [List.flatMap_cons, hsection, List.append_assoc, List.append_assoc, List.append_assoc]

/-- A row of sections is read off its written form, as long as no section follows. -/
theorem flatMap_cdataSection_inj {xs ys : List (List Char)} {r s : List Char}
    (hxs : ∀ x ∈ xs, ¬terminator <:+: x) (hys : ∀ y ∈ ys, ¬terminator <:+: y)
    (hr : ¬opening <+: r) (hs : ¬opening <+: s)
    (h : xs.flatMap cdataSection ++ r = ys.flatMap cdataSection ++ s) : xs = ys ∧ r = s := by
  induction xs generalizing ys with
  | nil =>
    cases ys with
    | nil => exact ⟨rfl, h⟩
    | cons y ys =>
      rw [flatMap_cdataSection_cons, List.flatMap_nil, List.nil_append] at h
      exact absurd ⟨_, h.symm⟩ hr
  | cons x xs ih =>
    cases ys with
    | nil =>
      rw [flatMap_cdataSection_cons, List.flatMap_nil, List.nil_append] at h
      exact absurd ⟨_, h⟩ hs
    | cons y ys =>
      rw [flatMap_cdataSection_cons, flatMap_cdataSection_cons] at h
      obtain ⟨hx, hmore⟩ := List.forall_mem_cons.1 hxs
      obtain ⟨hy, hmore'⟩ := List.forall_mem_cons.1 hys
      obtain ⟨rfl, hbehind⟩ := append_terminator_inj hx hy (List.append_cancel_left h)
      obtain ⟨rfl, hrest⟩ := ih hmore hmore' hbehind
      exact ⟨rfl, hrest⟩

/-- Character data is read off its written form, as long as no section follows. -/
theorem cdata_inj {a b : String} {r s : List Char} (hr : ¬opening <+: r) (hs : ¬opening <+: s)
    (h : (cdataSections a).flatMap cdataSection ++ r =
      (cdataSections b).flatMap cdataSection ++ s) : a = b ∧ r = s := by
  obtain ⟨hsections, hrest⟩ : cdataSections a = cdataSections b ∧ r = s :=
    flatMap_cdataSection_inj (fun _ => not_terminator_infix) (fun _ => not_terminator_infix) hr hs h
  have hflatten : ∀ c : String, (cdataSections c).flatten = c.toList := fun c =>
    flatten_sectionsFrom 0 c.toList
  have htext : a.toList = b.toList := by
    rw [← hflatten a, ← hflatten b, hsections]
  exact ⟨String.toList_inj.1 htext, hrest⟩

end Installer.Markup
