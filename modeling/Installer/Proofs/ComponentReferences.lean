import Installer.Proofs.Compile.DocumentParts

/-!
# Components and the references to them

A component is registered under the identifier that the compiler makes for it, and the features
refer to it by that. A verbatim attribute `Component:Id` of the payload renames the component's
element afterwards, and no reference follows. So references and components match exactly where such
renaming leads from registered identifiers back to registered identifiers.
-/
namespace Installer
open Identifier Directory Markup Schema

namespace Compile

namespace Box

/-- The verbatim `Id` that renames the component. -/
def override? (b : Box) : Option String :=
  (b.attributes.find? (·.1 == "Id")).map (·.2)

/-- The `Id` of the component in the document. -/
def finalId (b : Box) : String :=
  b.override?.getD b.id

end Box

/-- The identifiers under which components are registered in the report. -/
def Compiled.registeredIds (c : Compiled) : List String :=
  (c.ids.filter (·.kind = .component)).map (·.id)

theorem fst_of_mem_widthAttributes {q : Payload} {a : String × String}
    (h : a ∈ q.widthAttributes) : a.1 = "Win64" := by
  unfold Payload.widthAttributes at h
  split at h
  · split at h
    · simp_all
    · simp_all
    · simp at h
  · simp at h

/-- A component is renamed by the `Component:Id` of its payload. -/
theorem override?_box (p : Project) (directory : String) (x : Piece) :
    (x.box p directory).override? = x.payload.attributes.get? "Component:Id" := by
  have hwidth : x.payload.widthAttributes.find? (·.1 == "Id") = none := by
    rw [List.find?_eq_none]
    intro a ha
    simp [fst_of_mem_widthAttributes ha]
  have hkey : "Component:" ++ "Id" = "Component:Id" := rfl
  rw [← hkey, ← find?_component, Box.override?, Piece.box, Payload.requests, List.find?_append,
    hwidth, Option.or_none]

/-- The component's element has the identifier that the component ends up with. -/
theorem get?_element_box (p : Project) (directory : String) (x : Piece) :
    ((x.box p directory).element p.seed).get? "Id" = some (x.box p directory).finalId := by
  have hwidth : ∀ a ∈ x.payload.widthAttributes, a.1 ≠ "Id" := by
    intro a ha
    simp [fst_of_mem_widthAttributes ha]
  have hid : ∀ id, (Component.element p.seed id).get? "Id" = some id := by
    intro id
    simp [Component.element, Element.get?_set]
  have hkey : "Component:" ++ "Id" = "Component:Id" := rfl
  rw [Box.finalId, override?_box, Box.element, Element.get?_pushAll, Piece.box, Payload.requests,
    Element.setAll_append, Element.get?_setAll_of_not_mem hwidth,
    Element.get?_setAll (pairwise_component _), hid, find?_component, hkey]
  cases x.payload.attributes.get? "Component:Id" <;> rfl

theorem get?_element_emptyBox (seed directory : String) (features : List String) :
    ((emptyBox directory features).element seed).get? "Id" =
      some (emptyBox directory features).finalId := by
  simp [emptyBox, Box.element, Box.finalId, Box.override?, Component.element, Element.get?_set]

/-- The components of a project are those of its pieces and of its empty directories. -/
theorem mem_allBoxes {p : Project} {b : Box} (hb : b ∈ allBoxes p) :
    (∃ directory, ∃ x ∈ allPieces p, b = Piece.box p directory x) ∨
      ∃ directory features, b = emptyBox directory features := by
  have hpieces : ∀ directory xs, b ∈ boxes p directory xs →
      ∃ x ∈ xs, b = Piece.box p directory x := by
    intro directory xs hb
    obtain ⟨x, hxs, hx⟩ := List.mem_filterMap.1 hb
    unfold Piece.box? at hx
    split at hx
    · simp at hx
    · exact ⟨x, hxs, (Option.some.inj hx).symm⟩
  rcases List.mem_append.1 hb with hb | hb
  · obtain ⟨r, hr, hb⟩ := List.mem_flatMap.1 hb
    rcases List.mem_append.1 hb with hb | hb
    · obtain ⟨x, hx, hbx⟩ := hpieces _ _ hb
      exact Or.inl ⟨_, x, List.mem_append_left _ (List.mem_flatMap.2 ⟨r, hr, hx⟩), hbx⟩
    · unfold keepers at hb
      split at hb
      · exact Or.inr ⟨_, _, List.mem_singleton.1 hb⟩
      · simp at hb
  · obtain ⟨x, hx, hbx⟩ := hpieces _ _ hb
    exact Or.inl ⟨_, x, List.mem_append_right _ hx, hbx⟩

section compiled

variable {p : Project} {c : Compiled}

/-- The components of a document have their identifiers, renamed where the author says so. -/
theorem idsOf_component (h : p.compile = .ok c) :
    c.document.idsOf "Component" = (allBoxes p).map (·.finalId) := by
  obtain ⟨x, hx⟩ := shows_of_compile h
  have hids : ∀ b ∈ allBoxes p, (b.element p.seed).get? "Id" = some b.finalId := by
    intro b hb
    rcases mem_allBoxes hb with ⟨directory, x, _, rfl⟩ | ⟨directory, features, rfl⟩
    · exact get?_element_box p directory x
    · exact get?_element_emptyBox p.seed directory features
  rw [Element.idsOf_eq, hx.allNamed_component, List.filterMap_map]
  have hmap : (allBoxes p).filterMap ((·.get? "Id") ∘ (·.element p.seed)) =
      (allBoxes p).filterMap fun b => some b.finalId :=
    List.filterMap_congr fun b hb => hids b hb
  rw [hmap, List.filterMap_eq_map']

/-- The report registers every component under the identifier that the compiler made for it. -/
theorem registeredIds_eq (h : p.compile = .ok c) : c.registeredIds = (allBoxes p).map (·.id) := by
  obtain ⟨x, hx⟩ := shows_of_compile h
  rw [Compiled.registeredIds, hx.entries, List.map_map]
  rfl

/-- The features refer to the registered identifiers, to all of them and to no others. -/
theorem mem_idsOf_componentRef (h : p.compile = .ok c) (id : String) :
    id ∈ c.document.idsOf "ComponentRef" ↔ id ∈ c.registeredIds := by
  obtain ⟨x, hx⟩ := shows_of_compile h
  rw [registeredIds_eq h, ← hx.references, Element.idsOf_eq, hx.allNamed_componentRef]
  rfl

/-- References and components match where each renamed component takes a registered identifier and
leaves its own to another component, so in particular where none is renamed. -/
theorem references_match_components_iff (h : p.compile = .ok c) :
    (∀ id, id ∈ c.document.idsOf "ComponentRef" ↔ id ∈ c.document.idsOf "Component") ↔
      ∀ b ∈ allBoxes p, ∀ id, b.override? = some id →
        id ∈ c.registeredIds ∧ b.id ∈ c.document.idsOf "Component" := by
  simp only [mem_idsOf_componentRef h, registeredIds_eq h, idsOf_component h, List.mem_map]
  constructor
  · intro hmatch b hb id hid
    have hfinal : b.finalId = id := by rw [Box.finalId, hid, Option.getD_some]
    exact ⟨(hmatch id).2 ⟨b, hb, hfinal⟩, (hmatch b.id).1 ⟨b, hb, rfl⟩⟩
  · intro hrenamed id
    constructor
    · rintro ⟨b, hb, rfl⟩
      cases hid : b.override? with
      | none => exact ⟨b, hb, by rw [Box.finalId, hid, Option.getD_none]⟩
      | some id => exact (hrenamed b hb id hid).2
    · rintro ⟨b, hb, rfl⟩
      cases hid : b.override? with
      | none => exact ⟨b, hb, by rw [Box.finalId, hid, Option.getD_none]⟩
      | some id =>
        rw [Box.finalId, hid, Option.getD_some]
        exact (hrenamed b hb id hid).1

end compiled

/-- A project with one file, whose component the author renames. -/
def renamedComponent : Project where
  name := "Acme"
  directories := ⟨[{
    name := "App"
    files := [{ source := "a.txt", attributes := .ofList [("Component:Id", "Other")] }] }]⟩

theorem compile_renamedComponent : ∃ c, renamedComponent.compile = .ok c ∧
    (c.document.idsOf "ComponentRef", c.document.idsOf "Component") =
      (["Component.a.txt"], ["Other"]) := by
  have hrun : (renamedComponent.compile.toOption.map fun c =>
      (c.document.idsOf "ComponentRef", c.document.idsOf "Component")) =
        some (["Component.a.txt"], ["Other"]) := by
    decide +kernel
  exact exists_ok_of_toOption_map hrun

/-- The feature of a renamed component refers to a component that is not there. -/
theorem dangling_reference : ∃ c, renamedComponent.compile = .ok c ∧
    ¬ ∀ id, id ∈ c.document.idsOf "ComponentRef" ↔ id ∈ c.document.idsOf "Component" := by
  obtain ⟨c, hc, hids⟩ := compile_renamedComponent
  obtain ⟨hrefs, hcomponents⟩ := Prod.mk.inj hids
  refine ⟨c, hc, fun hmatch => ?_⟩
  have hother := (hmatch "Other").2 (by simp [hcomponents])
  simp [hrefs] at hother

theorem references_match_components_iff_renamed : ∃ c, renamedComponent.compile = .ok c ∧
    ((∀ id, id ∈ c.document.idsOf "ComponentRef" ↔ id ∈ c.document.idsOf "Component") ↔
      ∀ b ∈ allBoxes renamedComponent, ∀ id, b.override? = some id →
        id ∈ c.registeredIds ∧ b.id ∈ c.document.idsOf "Component") := by
  obtain ⟨c, hc, _⟩ := compile_renamedComponent
  exact ⟨c, hc, references_match_components_iff hc⟩

end Compile

end Installer
