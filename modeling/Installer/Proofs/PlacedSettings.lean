import Installer.Proofs.Compile.Complaints
import Installer.Proofs.ComponentReferences

/-!
# Settings placed in a row

Settings that are placed one after the other share a placement and an allocator. Of those before it,
a setting meets only the identifiers that they took: nothing is at hand between two settings, one
that cannot be written leaves everything as it was, and each other one adds a component with the
reference to it, or an element for the enclosing element. Only a verbatim `Component:Id` comes
between a component and its reference.
-/
namespace Installer
open Identifier Markup Schema Compile

namespace Setting

/-- No required field of the setting lacks its value. -/
def isWritable (s : Setting) : Bool :=
  (Payload.setting s).missing?.isNone

/-- The setting with the features that it names itself and an identifier. -/
def piece (s : Setting) (ids : Allocator) : Piece :=
  ⟨.setting s, s.features, ((Payload.setting s).identify ids).1⟩

theorem emit_eq (s : Setting) (ids : Allocator) :
    s.emit ids = match (Payload.setting s).missing? with
      | some e => .error e
      | none => .ok ((Payload.setting s).complete ((Payload.setting s).identify ids).1,
          ((Payload.setting s).identify ids).2) := by
  have hcomplaint := s.complaint?_emit ids
  cases hemit : s.emit ids with
  | error e =>
    rw [← hcomplaint, complaint?, hemit]
  | ok r =>
    obtain ⟨hwritten, hids⟩ := Payload.emit_eq_ok (q := .setting s) hemit
    rw [← hcomplaint, complaint?, hemit, hwritten, hids]

end Setting

namespace Placement

/-- Nothing is at hand. -/
def IsAtRest (placed : Placement) : Prop :=
  placed.current = none ∧ placed.pending = []

/-- Settings placed one after the other, each that cannot be written passed over. -/
def placeEach (seed : String) (ss : List Setting) (r : Placement × Allocator) :
    Placement × Allocator :=
  ss.foldl (fun r s => (r.1.process seed s r.2).2) r

section pieces

variable (p : Project) (directory : String)

/-- The placement with one more piece in its place, and nothing at hand. -/
def addPiece (placed : Placement) (x : Piece) : Placement :=
  match x.box? p directory with
  | some b =>
      { placed.release with
        componentId := some b.id
        components := placed.components ++ [b.element p.seed]
        refs := placed.refs ++ [b.ref] }
  | none =>
      { placed.release with
        parentElements := placed.parentElements ++ [x.element p directory]
        usesUtil := true }

/-- A setting at hand goes in its place as a piece. -/
theorem release_place (placed : Placement) (s : Setting) (ids : Allocator) :
    ((placed.take ((Payload.setting s).complete ((Payload.setting s).identify ids).1)).place
      p.seed s).release = placed.addPiece p directory (s.piece ids) := by
  have hown : (Payload.setting s).isLoose = false → ∀ key,
      (((Payload.setting s).complete ((Payload.setting s).identify ids).1).element.get? "Id").getD
        key = (s.piece ids).ownId p directory := by
    intro hs key
    obtain ⟨own, hget⟩ := Option.isSome_iff_exists.1 (Payload.isSome_get?_id hs ids)
    rw [hget, Piece.ownId]
    change own = ((((Payload.setting s).complete
      ((Payload.setting s).identify ids).1).element.get? "Id")).getD ""
    rw [hget, Option.getD_some]
  cases s with
  | closeApplication c => rfl
  | environment v =>
    let w := (Payload.setting (.environment v)).complete
      ((Payload.setting (.environment v)).identify ids).1
    have hplace : (placed.take w).place p.seed (.environment v) =
        (placed.take w).addComponent p.seed ((Setting.environment v).piece ids |>.ownId p directory)
          v.features (w.element :: conditionElements v.condition) := by
      rw [← hown rfl v.name]
      rfl
    have hpending : (placed.take w).pending = (Payload.setting (.environment v)).requests :=
      (List.append_nil _).symm
    rw [hplace, addComponent, hpending]
    rfl
  | registry r =>
    let w := (Payload.setting (.registry r)).complete
      ((Payload.setting (.registry r)).identify ids).1
    have hplace : (placed.take w).place p.seed (.registry r) =
        ((placed.take w).requestWidth r.win64).addComponent p.seed
          ((Setting.registry r).piece ids |>.ownId p directory) r.features [w.element] := by
      rw [← hown rfl r.key]
      rfl
    have hpending : (placed.take w).requestWidth r.win64 =
        { placed.take w with pending := (Payload.setting (.registry r)).requests } := by
      simp only [Payload.requests, Payload.widthAttributes]
      cases r.win64 with
      | none =>
        simp only [List.append_nil]
        rfl
      | some wide => cases wide <;> rfl
    rw [hplace, hpending]
    rfl

/-- A setting that lacks a value is refused and leaves no trace. Any other one is placed as a piece,
with the identifier that is next. -/
theorem process_eq (placed : Placement) (s : Setting) (ids : Allocator) :
    placed.process p.seed s ids = match (Payload.setting s).missing? with
      | some e => (.error e, placed, ids)
      | none => (.ok (), placed.addPiece p directory (s.piece ids),
          ((Payload.setting s).identify ids).2) := by
  rw [process, s.emit_eq]
  cases (Payload.setting s).missing? with
  | some e => rfl
  | none => rw [← release_place]

/-- The settings of a row that can be written, with the features that they name themselves. -/
def writableTasks (ss : List Setting) : List (Payload × List String) :=
  (ss.filter (·.isWritable)).map fun s => (.setting s, s.features)

/-- A row of settings is placed piece by piece, with one identifier after the other. -/
theorem placeEach_eq (ss : List Setting) (placed : Placement) (ids : Allocator) :
    placeEach p.seed ss (placed, ids) =
      ((furnish ids (writableTasks ss)).1.foldl (addPiece p directory) placed,
        (furnish ids (writableTasks ss)).2) := by
  induction ss generalizing placed ids with
  | nil => rfl
  | cons s ss ih =>
    change placeEach p.seed ss (placed.process p.seed s ids).2 = _
    rw [process_eq p directory, writableTasks]
    cases hs : (Payload.setting s).missing? with
    | some e =>
      have hskip : s.isWritable = false := by simp [Setting.isWritable, hs]
      rw [List.filter_cons_of_neg (by simp [hskip])]
      exact ih placed ids
    | none =>
      have hkeep : s.isWritable = true := by simp [Setting.isWritable, hs]
      rw [List.filter_cons_of_pos hkeep, List.map_cons]
      exact ih _ _

/-- A placement with a row of pieces behind another one. -/
structure Adds (xs : List Piece) (start placed : Placement) : Prop where
  components : placed.components =
    start.components ++ (boxes p directory xs).map (·.element p.seed)
  refs : placed.refs = start.refs ++ (boxes p directory xs).map (·.ref)
  parentElements : placed.parentElements = start.parentElements ++ looseElements p directory xs
  usesUtil : placed.usesUtil = (start.usesUtil || xs.any (·.payload.isLoose))
  rest : start.IsAtRest → placed.IsAtRest

theorem adds_addPiece (start : Placement) (x : Piece) :
    Adds p directory [x] start (start.addPiece p directory x) := by
  cases hx : x.payload.isLoose with
  | true =>
    have hbox : x.box? p directory = none := by simp [Piece.box?, hx]
    have hloose : x.loose? p directory = some (x.element p directory) := by simp [Piece.loose?, hx]
    constructor <;> simp [addPiece, hbox, hloose, hx, boxes, looseElements, release, IsAtRest]
  | false =>
    have hbox : x.box? p directory = some (x.box p directory) := by simp [Piece.box?, hx]
    have hloose : x.loose? p directory = none := by simp [Piece.loose?, hx]
    constructor <;> simp [addPiece, hbox, hloose, hx, boxes, looseElements, release, IsAtRest]

theorem adds_foldl (xs : List Piece) (start : Placement) :
    Adds p directory xs start (xs.foldl (addPiece p directory) start) := by
  induction xs generalizing start with
  | nil => constructor <;> simp [boxes, looseElements]
  | cons x xs ih =>
    have hfirst := adds_addPiece p directory start x
    have hrest := ih (start.addPiece p directory x)
    rw [List.foldl_cons, ← List.singleton_append]
    constructor
    · rw [hrest.components, hfirst.components, boxes_append, List.map_append, List.append_assoc]
    · rw [hrest.refs, hfirst.refs, boxes_append, List.map_append, List.append_assoc]
    · rw [hrest.parentElements, hfirst.parentElements, looseElements_append, List.append_assoc]
    · rw [hrest.usesUtil, hfirst.usesUtil, List.any_append, Bool.or_assoc]
    · exact fun h => hrest.rest (hfirst.rest h)

/-- What a row of settings comes to, each placed for itself: the pieces of those that can be written,
which meet only in the identifiers that are handed out to them one after the other. -/
structure PlacesSeparately (ids : Allocator) (ss : List Setting) (placed : Placement)
    (rest : Allocator) : Prop where
  atRest : placed.IsAtRest
  payloads : (furnish ids (writableTasks ss)).1.map (·.payload) =
    (ss.filter (·.isWritable)).map .setting
  components : placed.components =
    (boxes p directory (furnish ids (writableTasks ss)).1).map (·.element p.seed)
  refs : placed.refs = (boxes p directory (furnish ids (writableTasks ss)).1).map (·.ref)
  parentElements : placed.parentElements =
    looseElements p directory (furnish ids (writableTasks ss)).1
  usesUtil : placed.usesUtil = (furnish ids (writableTasks ss)).1.any (·.payload.isLoose)
  ids : rest = (furnish ids (writableTasks ss)).2

theorem placesSeparately_placeEach (ids : Allocator) (ss : List Setting) :
    PlacesSeparately p directory ids ss (placeEach p.seed ss ({}, ids)).1
      (placeEach p.seed ss ({}, ids)).2 := by
  rw [placeEach_eq p directory]
  have hadds := adds_foldl p directory (furnish ids (writableTasks ss)).1 {}
  have hpayloads : (furnish ids (writableTasks ss)).1.map (·.payload) =
      (ss.filter (·.isWritable)).map .setting := by
    rw [map_payload_furnish, writableTasks, List.map_map]
    rfl
  exact ⟨hadds.rest ⟨rfl, rfl⟩, hpayloads, hadds.components, hadds.refs, hadds.parentElements,
    hadds.usesUtil, rfl⟩

theorem mem_setAttribute {name value : String} {as : List (String × String)} {a : String × String}
    (ha : a ∈ setAttribute name value as) : a = (name, value) ∨ a ∈ as := by
  induction as with
  | nil => exact Or.inl (List.mem_singleton.1 ha)
  | cons b as ih =>
    rw [setAttribute] at ha
    split at ha
    · exact (List.mem_cons.1 ha).imp_right (List.mem_cons_of_mem _)
    · rcases List.mem_cons.1 ha with rfl | ha
      · exact Or.inr List.mem_cons_self
      · exact (ih ha).imp_right (List.mem_cons_of_mem _)

theorem mem_attributes_setAll {e : Element} {as : List (String × String)} {a : String × String}
    (ha : a ∈ (e.setAll as).attributes) : a ∈ as ∨ a ∈ e.attributes := by
  induction as generalizing e with
  | nil => exact Or.inr ha
  | cons b as ih =>
    rcases ih ha with ha | ha
    · exact Or.inl (List.mem_cons_of_mem _ ha)
    · rcases mem_setAttribute ha with rfl | ha
      · exact Or.inl List.mem_cons_self
      · exact Or.inr ha

/-- A component has its two identifiers and what its own payload asks for. -/
theorem mem_attributes_box {x : Piece} {a : String × String}
    (ha : a ∈ ((x.box p directory).element p.seed).attributes) :
    a ∈ x.payload.attributes.component ∨ a ∈ x.payload.widthAttributes ∨
      a = ("Id", (x.box p directory).id) ∨
      a = ("Guid", Digest.Guid.stable p.seed (x.box p directory).id) := by
  rcases mem_attributes_setAll ha with ha | ha
  · exact (List.mem_append.1 ha).imp_right Or.inl
  · have hids : a ∈ [("Id", (x.box p directory).id),
        ("Guid", Digest.Guid.stable p.seed (x.box p directory).id)] := ha
    simpa using Or.inr (Or.inr hids)

/-- The component of a piece is the one that its reference names, unless the author renames it. -/
theorem get?_id_box_iff (x : Piece) :
    ((x.box p directory).element p.seed).get? "Id" = some (x.box p directory).ref.id ↔
      ∀ id, x.payload.attributes.get? "Component:Id" = some id → id = (x.box p directory).id := by
  rw [get?_element_box, Box.finalId, override?_box, Option.some_inj]
  cases x.payload.attributes.get? "Component:Id" with
  | none => simp [Box.ref]
  | some id => simp [Box.ref]

/-- However many settings of a row cannot be written, nothing is at hand behind it, each other one
has added one component with one reference or one element for the enclosing element, in their order,
and nothing else is left of any of them. A setting that cannot be written then changes nothing. A
component has no attribute but its identifiers and what its own setting asks for. And each component
is the one that its reference names exactly where no `Component:Id` gives it another identifier. -/
theorem settings_placed_separately (ids : Allocator) (ss : List Setting) :
    PlacesSeparately p directory ids ss (placeEach p.seed ss ({}, ids)).1
      (placeEach p.seed ss ({}, ids)).2 ∧
    (∀ s e, (Payload.setting s).missing? = some e →
      (placeEach p.seed ss ({}, ids)).1.process p.seed s (placeEach p.seed ss ({}, ids)).2 =
        (.error e, placeEach p.seed ss ({}, ids))) ∧
    (∀ x ∈ (furnish ids (writableTasks ss)).1,
      ∀ a ∈ ((x.box p directory).element p.seed).attributes,
        a ∈ x.payload.attributes.component ∨ a ∈ x.payload.widthAttributes ∨
          a = ("Id", (x.box p directory).id) ∨
          a = ("Guid", Digest.Guid.stable p.seed (x.box p directory).id)) ∧
    ((∀ x ∈ (furnish ids (writableTasks ss)).1, x.payload.isLoose = false →
      ((x.box p directory).element p.seed).get? "Id" = some (x.box p directory).ref.id) ↔
        ∀ x ∈ (furnish ids (writableTasks ss)).1, x.payload.isLoose = false →
          ∀ id, x.payload.attributes.get? "Component:Id" = some id →
            id = (x.box p directory).id) := by
  refine ⟨placesSeparately_placeEach p directory ids ss, fun s e hmissing => ?_,
    fun x _ a ha => mem_attributes_box p directory ha, ?_⟩
  · rw [process_eq p directory, hmissing]
  · simp only [get?_id_box_iff]

end pieces

/-- A registry value whose component the author renames. -/
def renamedValue : Setting :=
  .registry {
    key := "Software\\Acme"
    name := some "Path"
    attributes := .ofList [("Component:Id", "Other")] }

/-- The component of the value is not the one that its reference names. -/
theorem reference_to_renamed_component :
    let placed := (placeEach ({ name := "Acme" } : Project).seed [renamedValue] ({}, .empty 0)).1
    ∃ component ref, placed.components = [component] ∧ placed.refs = [ref] ∧
      component.get? "Id" = some "Other" ∧ ref.id = "Component.Path" := by
  intro placed
  have hrun : (placed.components.map (·.get? "Id"), placed.refs.map (·.id)) =
      ([some "Other"], ["Component.Path"]) := by
    decide +kernel
  obtain ⟨hcomponents, hrefs⟩ := Prod.mk.inj hrun
  obtain ⟨component, hcomponent, hid⟩ := List.map_eq_singleton_iff.1 hcomponents
  obtain ⟨ref, href, hname⟩ := List.map_eq_singleton_iff.1 hrefs
  exact ⟨component, ref, hcomponent, href, hid, hname⟩

end Placement
end Installer
