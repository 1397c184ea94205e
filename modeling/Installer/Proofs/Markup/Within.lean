import Installer.Markup.Element
import Mathlib.Data.List.Basic

/-!
# Elements within elements

A row of elements contains its elements and all below them, in document order. Attributes do not
matter to this, so only what is pushed into an element has to be followed.
-/
namespace Installer.Markup

namespace Element

/-- The elements of a row with all below them, each before those below it. -/
def within (es : List Element) : List Element :=
  es.flatMap fun e => e :: e.descendants

/-- The elements of a name in a row, at any depth. -/
def allNamed (name : String) (es : List Element) : List Element :=
  (within es).filter (·.name == name)

theorem below_eq_within (cs : List (Content Element)) :
    descendants.below cs = within (cs.filterMap Content.element?) := by
  induction cs with
  | nil => rfl
  | cons c cs ih =>
    cases c with
    | element e => simp [descendants.below, ih, within, Content.element?]
    | text s => exact ih
    | cdata s => exact ih

theorem descendants_eq_within (e : Element) : e.descendants = within e.elements := by
  cases e with
  | mk name attributes children => rw [descendants, below_eq_within, elements]

theorem descendantsNamed_eq_allNamed (e : Element) (name : String) :
    e.descendantsNamed name = allNamed name e.elements := by
  rw [descendantsNamed, descendants_eq_within, allNamed]

@[simp] theorem within_nil : within [] = [] := rfl

theorem within_cons (e : Element) (es : List Element) :
    within (e :: es) = e :: within e.elements ++ within es := by
  rw [within, List.flatMap_cons, descendants_eq_within]
  rfl

@[simp] theorem within_append (es fs : List Element) :
    within (es ++ fs) = within es ++ within fs := by
  simp [within]

theorem within_eq_self {es : List Element} (h : ∀ e ∈ es, e.elements = []) : within es = es := by
  induction es with
  | nil => rfl
  | cons e es ih =>
    rw [within_cons, h e (by simp), ih fun d hd => h d (by simp [hd])]
    rfl

@[simp] theorem allNamed_nil (name : String) : allNamed name [] = [] := rfl

theorem allNamed_cons (name : String) (e : Element) (es : List Element) :
    allNamed name (e :: es) =
      (if e.name = name then [e] else []) ++ allNamed name e.elements ++ allNamed name es := by
  rw [allNamed, within_cons, List.cons_append, List.filter_cons, List.filter_append]
  by_cases h : e.name = name
  · simp [h, allNamed]
  · simp [h, allNamed]

@[simp] theorem allNamed_append (name : String) (es fs : List Element) :
    allNamed name (es ++ fs) = allNamed name es ++ allNamed name fs := by
  simp [allNamed]

theorem allNamed_eq_nil {name : String} {es : List Element}
    (h : ∀ e ∈ Element.within es, e.name ≠ name) : Element.allNamed name es = [] := by
  rw [Element.allNamed, List.filter_eq_nil_iff]
  exact fun e he => by simpa using h e he

/-- Among elements of known names there are none of another name. -/
theorem allNamed_eq_nil_of_names {names : List String} {name : String} {es : List Element}
    (h : ∀ e ∈ within es, e.name ∈ names) (hname : name ∉ names) : allNamed name es = [] :=
  allNamed_eq_nil fun e he heq => hname (heq ▸ h e he)

/-- Elements of another name are no elements of the name. -/
theorem filter_name_eq_nil (name other : String) {es : List Element}
    (hne : other ≠ name) (h : ∀ e ∈ es, e.name = other) : es.filter (·.name == name) = [] := by
  rw [List.filter_eq_nil_iff]
  intro e he
  simpa [h e he] using hne

theorem allNamed_flatMap {α : Type} (name : String) (f : α → List Element) (xs : List α) :
    allNamed name (xs.flatMap f) = xs.flatMap fun x => allNamed name (f x) := by
  induction xs with
  | nil => rfl
  | cons x xs ih => rw [List.flatMap_cons, allNamed_append, ih, List.flatMap_cons]

@[simp] theorem named_name (name : String) : (named name).name = name := rfl

@[simp] theorem named_elements (name : String) : (named name).elements = [] := rfl

@[simp] theorem elements_set (e : Element) (name value : String) :
    (e.set name value).elements = e.elements := rfl

@[simp] theorem setFirst_name (e : Element) (name value : String) :
    (e.setFirst name value).name = e.name := rfl

@[simp] theorem elements_setFirst (e : Element) (name value : String) :
    (e.setFirst name value).elements = e.elements := rfl

@[simp] theorem setAll_nil (e : Element) : e.setAll [] = e := rfl

theorem setAll_cons (e : Element) (a : String × String) (as : List (String × String)) :
    e.setAll (a :: as) = (e.set a.1 a.2).setAll as := rfl

theorem setAll_append (e : Element) (as bs : List (String × String)) :
    e.setAll (as ++ bs) = (e.setAll as).setAll bs :=
  List.foldl_append

@[simp] theorem setAll_name (e : Element) (as : List (String × String)) :
    (e.setAll as).name = e.name := by
  induction as generalizing e with
  | nil => rfl
  | cons a as ih => rw [setAll_cons, ih, set_name]

@[simp] theorem elements_setAll (e : Element) (as : List (String × String)) :
    (e.setAll as).elements = e.elements := by
  induction as generalizing e with
  | nil => rfl
  | cons a as ih => rw [setAll_cons, ih, elements_set]

@[simp] theorem pushAll_name (e : Element) (es : List Element) :
    (e.pushAll es).name = e.name := rfl

@[simp] theorem elements_pushAll (e : Element) (es : List Element) :
    (e.pushAll es).elements = e.elements ++ es := by
  simp [elements, pushAll, List.filterMap_map, Function.comp_def, Content.element?]

@[simp] theorem pushText_name (e : Element) (s : String) : (e.pushText s).name = e.name := rfl

/-- The `Id`s of the elements of a name below an element, in document order. -/
def idsOf (name : String) (e : Element) : List String :=
  (e.descendantsNamed name).filterMap (·.get? "Id")

theorem idsOf_eq (name : String) (e : Element) :
    e.idsOf name = (allNamed name e.elements).filterMap (·.get? "Id") := by
  rw [idsOf, descendantsNamed_eq_allNamed]

theorem find?_setAttribute (name value key : String) (as : List (String × String)) :
    (setAttribute name value as).find? (·.1 == key) =
      if name = key then some (name, value) else as.find? (·.1 == key) := by
  induction as with
  | nil => by_cases h : name = key <;> simp [setAttribute, h]
  | cons a as ih =>
    rw [setAttribute]
    by_cases ha : a.1 = name
    · rw [if_pos ha]
      by_cases h : name = key
      · simp [h]
      · simp [h, ha]
    · rw [if_neg ha, List.find?_cons, ih, List.find?_cons]
      by_cases h : name = key
      · have hak : (a.1 == key) = false := by
          rw [beq_eq_false_iff_ne, ← h]
          exact ha
        rw [if_pos h, if_pos h, hak]
      · rw [if_neg h, if_neg h]

theorem get?_set (e : Element) (name value key : String) :
    (e.set name value).get? key = if name = key then some value else e.get? key := by
  rw [get?, set, find?_setAttribute, get?]
  by_cases h : name = key <;> simp [h]

theorem get?_setFirst (e : Element) (name value key : String) :
    (e.setFirst name value).get? key = if name = key then some value else e.get? key := by
  rw [get?, setFirst, get?]
  by_cases h : name = key
  · simp [h]
  · have hfilter : ∀ as : List (String × String),
        (as.filter (·.1 != name)).find? (·.1 == key) = as.find? (·.1 == key) := by
      intro as
      induction as with
      | nil => rfl
      | cons a as ih =>
        by_cases ha : a.1 = name
        · simp [ha, h, ih]
        · by_cases hk : a.1 = key <;> simp [ha, hk, ih, Ne.symm h]
    simp [h, hfilter]

theorem get?_setAll_of_not_mem {e : Element} {as : List (String × String)} {key : String}
    (h : ∀ a ∈ as, a.1 ≠ key) : (e.setAll as).get? key = e.get? key := by
  induction as generalizing e with
  | nil => rfl
  | cons a as ih =>
    rw [setAll_cons, ih fun b hb => h b (by simp [hb]), get?_set, if_neg (h a (by simp))]

/-- Attributes with distinct names stand over those that were there. -/
theorem get?_setAll {as : List (String × String)} (h : as.Pairwise fun a b => a.1 ≠ b.1)
    (e : Element) (key : String) :
    (e.setAll as).get? key = ((as.find? (·.1 == key)).map (·.2)).or (e.get? key) := by
  induction as generalizing e with
  | nil => rfl
  | cons a as ih =>
    obtain ⟨hhead, htail⟩ := List.pairwise_cons.1 h
    rw [setAll_cons, ih htail, get?_set]
    by_cases ha : a.1 = key
    · have hnone : as.find? (·.1 == key) = none := by
        rw [List.find?_eq_none]
        intro b hb hbk
        exact hhead b hb (by rw [ha, eq_of_beq hbk])
      simp [hnone, ha]
    · simp [ha]

@[simp] theorem get?_pushAll (e : Element) (es : List Element) (key : String) :
    (e.pushAll es).get? key = e.get? key := rfl

end Element

end Installer.Markup
