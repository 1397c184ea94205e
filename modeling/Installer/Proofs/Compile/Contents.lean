import Installer.Proofs.Compile.Pieces

/-!
# What stands within pieces

The element of a payload holds at most the lines of a registry value, and a component holds the
element with at most a condition behind it. So the elements of a name within a row of pieces are
known without looking further down.
-/
namespace Installer
open Identifier Markup Schema

namespace Payload

theorem complete_name (q : Payload) (id : Option String) :
    (q.complete id).element.name = q.elementName := by
  cases q with
  | file f => exact Schema.complete_name _ _ _
  | shortcut s => exact Schema.complete_name _ _ _
  | setting s => cases s <;> exact Schema.complete_name _ _ _

def lines : Payload → List Element
  | .setting (.registry r) => RegistryValue.schema.fieldChildren r
  | _ => []

theorem elements_complete (q : Payload) (id : Option String) :
    (q.complete id).element.elements = q.lines := by
  cases q with
  | file f =>
    refine (Schema.elements_complete _ _ _).trans (fieldChildren_eq_nil ?_)
    simp [File.schema, Field.required, Field.optional]
  | shortcut s =>
    refine (Schema.elements_complete _ _ _).trans (fieldChildren_eq_nil ?_)
    simp [Shortcut.schema, Field.required, Field.optional]
  | setting s =>
    cases s with
    | registry r => exact Schema.elements_complete _ _ _
    | environment v =>
      refine (Schema.elements_complete _ _ _).trans (fieldChildren_eq_nil ?_)
      simp [EnvironmentVariable.schema, Field.required, Field.optional]
    | closeApplication c =>
      refine (Schema.elements_complete _ _ _).trans (fieldChildren_eq_nil ?_)
      simp [CloseApplication.schema, Field.required, Field.optional]

theorem eq_lineElement_of_mem_lines {q : Payload} {e : Element} (he : e ∈ q.lines) :
    ∃ line, e = RegistryValue.lineElement line := by
  cases q with
  | setting s =>
    cases s with
    | registry r =>
      obtain ⟨f, hf, es, hv, hes⟩ := mem_fieldChildren he
      have hlines : es = (Text.lines r.value).map RegistryValue.lineElement := by
        simp only [RegistryValue.schema, Field.required, Field.optional, Field.asChildren,
          List.mem_cons, List.not_mem_nil, or_false] at hf
        rcases hf with rfl | rfl | rfl | rfl | rfl | rfl | rfl <;> simp_all
      rw [hlines] at hes
      obtain ⟨line, _, rfl⟩ := List.mem_map.1 hes
      exact ⟨line, rfl⟩
    | environment v => simp [lines] at he
    | closeApplication c => simp [lines] at he
  | file f => simp [lines] at he
  | shortcut s => simp [lines] at he

theorem within_lines (q : Payload) : Element.within q.lines = q.lines := by
  refine Element.within_eq_self fun e he => ?_
  obtain ⟨line, rfl⟩ := eq_lineElement_of_mem_lines he
  rfl

theorem eq_condition_of_mem_companions {q : Payload} {e : Element} (he : e ∈ q.companions) :
    e.name = "Condition" ∧ e.elements = [] := by
  cases q with
  | setting s =>
    cases s with
    | environment v =>
      rw [companions] at he
      unfold Placement.conditionElements at he
      split at he
      · split at he
        · simp at he
        · rw [List.mem_singleton.1 he]
          exact ⟨rfl, rfl⟩
      · simp at he
    | registry r => simp [companions] at he
    | closeApplication c => simp [companions] at he
  | file f => simp [companions] at he
  | shortcut s => simp [companions] at he

theorem within_companions (q : Payload) : Element.within q.companions = q.companions :=
  Element.within_eq_self fun _ he => (eq_condition_of_mem_companions he).2

/-- The names of the elements that payloads become. -/
def isName (name : String) : Bool :=
  ["File", "Shortcut", "RegistryValue", "Environment", "util:CloseApplication"].contains name

theorem isName_elementName (q : Payload) : isName q.elementName = true := by
  cases q with
  | file f => rfl
  | shortcut s => rfl
  | setting s => cases s <;> rfl

end Payload

namespace Compile

/-- The names of all elements that stand for payloads and empty directories, or within such. -/
def itemNames : List String :=
  ["Component", "File", "Shortcut", "RegistryValue", "MultiStringValue", "Environment",
    "Condition", "util:CloseApplication", "CreateFolder", "RemoveFolder"]

theorem mem_itemNames_of_isName {name : String} (h : Payload.isName name = true) :
    name ∈ itemNames := by
  simp only [Payload.isName, List.contains_iff_mem, List.mem_cons, List.not_mem_nil, or_false] at h
  rcases h with rfl | rfl | rfl | rfl | rfl <;> decide

namespace Piece

/-- What a piece does to the element of its payload concerns attributes only. -/
theorem element_spec (p : Project) (directory : String) (x : Piece) :
    (x.element p directory).name = x.payload.elementName ∧
      (x.element p directory).elements = x.payload.lines := by
  obtain ⟨q, features, id⟩ := x
  have hname := q.complete_name id
  have helements := q.elements_complete id
  unfold element
  cases q with
  | file f =>
    simp only
    split
    · split
      · exact ⟨hname, helements⟩
      · exact ⟨hname, helements⟩
    · exact ⟨hname, helements⟩
  | shortcut s =>
    cases hs : s.id with
    | none =>
      simp only [hs]
      obtain ⟨_, hsameName, hsameElements⟩ := workingDirectory_spec _ _
      exact ⟨hsameName.trans hname, hsameElements.trans helements⟩
    | some given =>
      simp only [hs]
      obtain ⟨_, hsameName, hsameElements⟩ := workingDirectory_spec _ _
      exact ⟨hsameName.trans hname, hsameElements.trans helements⟩
  | setting s => exact ⟨hname, helements⟩

end Piece

theorem Box.within_element (seed : String) (b : Box) :
    Element.within [b.element seed] = b.element seed :: Element.within b.content := by
  rw [Element.within_cons, Element.within_nil, List.append_nil]
  simp [Box.element, Component.element]

section pieces

variable (p : Project) (directory : String)

/-- A component holds the element, its lines, and what stands behind it. -/
theorem within_box (x : Piece) :
    Element.within [(x.box p directory).element p.seed] = (x.box p directory).element p.seed ::
      x.element p directory :: (x.payload.lines ++ x.payload.companions) := by
  rw [Box.within_element, Piece.box, Element.within_cons, (x.element_spec p directory).2,
    Payload.within_lines, Payload.within_companions]
  rfl

theorem within_loose (x : Piece) :
    Element.within [x.element p directory] = x.element p directory :: x.payload.lines := by
  rw [Element.within_cons, (x.element_spec p directory).2, Payload.within_lines,
    Element.within_nil, List.append_nil]

/-- The elements of a row of pieces. -/
def pieceElements (xs : List Piece) : List Element :=
  (boxes p directory xs).map (·.element p.seed) ++ looseElements p directory xs

theorem pieceElements_perm (xs : List Piece) :
    (pieceElements p directory xs).Perm (xs.flatMap fun x => pieceElements p directory [x]) := by
  induction xs with
  | nil => exact .nil
  | cons x xs ih =>
    have hsplit : pieceElements p directory (x :: xs) =
        (boxes p directory [x]).map (·.element p.seed) ++
          ((boxes p directory xs).map (·.element p.seed) ++ (looseElements p directory [x] ++
            looseElements p directory xs)) := by
      rw [pieceElements, ← List.singleton_append, boxes_append, looseElements_append]
      simp
    rw [hsplit, List.flatMap_cons, pieceElements, List.append_assoc]
    exact ((List.perm_append_comm_assoc _ _ _).trans (ih.append_left _)).append_left _

theorem pieceElements_singleton (x : Piece) :
    pieceElements p directory [x] = if x.payload.isLoose then [x.element p directory]
      else [(x.box p directory).element p.seed] := by
  cases hq : x.payload.isLoose <;>
    simp [pieceElements, boxes, looseElements, Piece.box?, Piece.loose?, hq]

/-- The elements within a piece: the component if there is one, the payload's own, and few more. -/
theorem within_pieceElements_singleton (x : Piece) :
    ∃ more, (∀ e ∈ more, e.name = "MultiStringValue" ∨ e.name = "Condition") ∧
      Element.within (pieceElements p directory [x]) =
        (if x.payload.isLoose then [] else [(x.box p directory).element p.seed]) ++
          x.element p directory :: more := by
  have hlines : ∀ e ∈ x.payload.lines, e.name = "MultiStringValue" ∨ e.name = "Condition" := by
    intro e he
    obtain ⟨line, rfl⟩ := Payload.eq_lineElement_of_mem_lines he
    exact Or.inl rfl
  rw [pieceElements_singleton]
  cases hq : x.payload.isLoose with
  | true => exact ⟨x.payload.lines, hlines, by simpa using within_loose p directory x⟩
  | false =>
    refine ⟨x.payload.lines ++ x.payload.companions, ?_, by simpa using within_box p directory x⟩
    exact List.forall_mem_append.2
      ⟨hlines, fun e he => Or.inr (Payload.eq_condition_of_mem_companions he).1⟩

theorem box_element_name (b : Box) : (b.element p.seed).name = "Component" := by
  simp [Box.element, Component.element]

/-- A piece has one element with the name of a payload. -/
theorem filter_isName_piece (x : Piece) :
    (Element.within (pieceElements p directory [x])).filter (Payload.isName ·.name) =
      [x.element p directory] := by
  obtain ⟨more, hmore, hwithin⟩ := within_pieceElements_singleton p directory x
  have hname : Payload.isName (x.element p directory).name = true := by
    rw [(x.element_spec p directory).1]
    exact x.payload.isName_elementName
  have hrest : more.filter (Payload.isName ·.name) = [] := by
    rw [List.filter_eq_nil_iff]
    intro e he
    rcases hmore e he with h | h <;> rw [h] <;> decide
  have hbox : Payload.isName ((x.box p directory).element p.seed).name = false := by
    rw [box_element_name]
    rfl
  rw [hwithin, List.filter_append, List.filter_cons, if_pos hname, hrest]
  cases x.payload.isLoose <;> simp [hbox]

theorem within_pieceElements_perm (xs : List Piece) :
    (Element.within (pieceElements p directory xs)).Perm
      (xs.flatMap fun x => Element.within (pieceElements p directory [x])) := by
  have h := (pieceElements_perm p directory xs).flatMap_right fun e => e :: e.descendants
  rwa [List.flatMap_assoc] at h

/-- The elements with the name of a payload within pieces are those of the pieces. -/
theorem filter_isName_pieces (xs : List Piece) :
    ((Element.within (pieceElements p directory xs)).filter (Payload.isName ·.name)).Perm
      (xs.map (·.element p directory)) := by
  refine ((within_pieceElements_perm p directory xs).filter _).trans ?_
  rw [List.filter_flatMap, List.map_eq_flatMap]
  refine List.Perm.of_eq (List.flatMap_congr fun x _ => ?_)
  exact filter_isName_piece p directory x

theorem name_ne_component {x : Piece} {e : Element}
    (he : e ∈ x.element p directory :: (x.payload.lines ++ x.payload.companions)) :
    e.name ≠ "Component" := by
  rcases List.mem_cons.1 he with rfl | he
  · rw [(x.element_spec p directory).1]
    intro h
    have hname := x.payload.isName_elementName
    rw [h] at hname
    simp [Payload.isName] at hname
  · rcases List.mem_append.1 he with he | he
    · obtain ⟨line, rfl⟩ := Payload.eq_lineElement_of_mem_lines he
      simp [RegistryValue.lineElement]
    · simp [(Payload.eq_condition_of_mem_companions he).1]

/-- The components within pieces are theirs. -/
theorem allNamed_component_pieces (xs : List Piece) :
    Element.allNamed "Component" (pieceElements p directory xs) =
      (boxes p directory xs).map (·.element p.seed) := by
  have hnone : ∀ x : Piece, ∀ es : List Element,
      (∀ e ∈ es, e ∈ x.element p directory :: (x.payload.lines ++ x.payload.companions)) →
      es.filter (·.name == "Component") = [] := by
    intro x es hes
    rw [List.filter_eq_nil_iff]
    intro e he
    simpa using name_ne_component p directory (hes e he)
  have hloose : Element.allNamed "Component" (looseElements p directory xs) = [] := by
    induction xs with
    | nil => rfl
    | cons x xs ih =>
      rw [← List.singleton_append, looseElements_append, Element.allNamed_append, ih]
      cases hq : x.payload.isLoose with
      | false => simp [looseElements, Piece.loose?, hq]
      | true =>
        simp only [looseElements, Piece.loose?, hq, List.filterMap_cons, if_true,
          List.filterMap_nil, List.append_nil, Element.allNamed, within_loose]
        exact hnone x _ (by simp; tauto)
  rw [pieceElements, Element.allNamed_append, hloose, List.append_nil]
  induction xs with
  | nil => rfl
  | cons x xs ih =>
    rw [← List.singleton_append, looseElements_append, Element.allNamed_append] at hloose
    rw [← List.singleton_append, boxes_append, List.map_append, Element.allNamed_append,
      ih (List.append_eq_nil_iff.1 hloose).2]
    congr 1
    cases hq : x.payload.isLoose with
    | true => simp [boxes, Piece.box?, hq]
    | false =>
      simp only [boxes, Piece.box?, hq, List.filterMap_cons, Bool.false_eq_true, if_false,
        List.filterMap_nil, List.map_cons, List.map_nil, Element.allNamed, within_box]
      rw [List.filter_cons, if_pos (by simp [box_element_name]), hnone x _ (by simp)]

/-- Within pieces stand no elements but those of the known names. -/
theorem name_of_mem_within_pieces {xs : List Piece} {e : Element}
    (he : e ∈ Element.within (pieceElements p directory xs)) : e.name ∈ itemNames := by
  obtain ⟨x, _, he⟩ := List.mem_flatMap.1 ((within_pieceElements_perm p directory xs).mem_iff.1 he)
  obtain ⟨more, hmore, hwithin⟩ := within_pieceElements_singleton p directory x
  rw [hwithin] at he
  rcases List.mem_append.1 he with he | he
  · have hbox : e = (x.box p directory).element p.seed := by
      cases hq : x.payload.isLoose <;> simp_all
    rw [hbox, box_element_name]
    decide
  · rcases List.mem_cons.1 he with rfl | he
    · rw [(x.element_spec p directory).1]
      exact mem_itemNames_of_isName x.payload.isName_elementName
    · rcases hmore e he with h | h <;> rw [h] <;> decide

end pieces

end Compile

end Installer
