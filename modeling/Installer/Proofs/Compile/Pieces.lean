import Installer.Compile.Directories
import Installer.Proofs.Directory.Payloads
import Installer.Proofs.Schema.Writing

/-!
# Pieces of a document

A payload with its identifier and its features is a piece of the document: an element in a component
of its own, or a loose element where an application is to be closed. Writing the content of a
directory is handing out identifiers to its payloads and assembling their pieces.
-/
namespace Installer
open Identifier Markup Schema

namespace Payload

/-- The payload as an element, before it has a place. -/
def emit : Payload → Emit Written
  | .file f => File.schema.emit f
  | .shortcut s => Shortcut.schema.emit s
  | .setting s => s.emit

/-- The identifier that a payload comes by, if it has one at all, and the allocator behind it. -/
def identify (a : Allocator) : Payload → Option String × Allocator
  | .file f => File.schema.identify f a
  | .shortcut s => Shortcut.schema.identify s a
  | .setting (.registry r) => RegistryValue.schema.identify r a
  | .setting (.environment v) => EnvironmentVariable.schema.identify v a
  | .setting (.closeApplication c) => CloseApplication.schema.identify c a

/-- The element of a payload whose identifier is known. -/
def complete (id : Option String) : Payload → Written
  | .file f => File.schema.complete f id
  | .shortcut s => Shortcut.schema.complete s id
  | .setting (.registry r) => RegistryValue.schema.complete r id
  | .setting (.environment v) => EnvironmentVariable.schema.complete v id
  | .setting (.closeApplication c) => CloseApplication.schema.complete c id

/-- The closing of an application needs no component. -/
def isLoose : Payload → Bool
  | .setting (.closeApplication _) => true
  | _ => false

def elementName : Payload → String
  | .file _ => "File"
  | .shortcut _ => "Shortcut"
  | .setting (.registry _) => "RegistryValue"
  | .setting (.environment _) => "Environment"
  | .setting (.closeApplication _) => "util:CloseApplication"

/-- The verbatim attributes of a payload. -/
def attributes : Payload → Attributes
  | .file f => f.attributes
  | .shortcut s => s.attributes
  | .setting (.registry r) => r.attributes
  | .setting (.environment v) => v.attributes
  | .setting (.closeApplication c) => c.attributes

/-- The attribute of a component of sixty-four or thirty-two bits. -/
def widthAttributes : Payload → List (String × String)
  | .setting (.registry r) =>
      match r.win64 with
      | some true => [("Win64", "yes")]
      | some false => [("Win64", "no")]
      | none => []
  | _ => []

/-- What a payload asks of the component around it. -/
def requests (q : Payload) : List (String × String) :=
  q.attributes.component ++ q.widthAttributes

/-- What stands behind the payload's element in its component. -/
def companions : Payload → List Element
  | .setting (.environment v) => Placement.conditionElements v.condition
  | _ => []

/-- What the identifier of a payload is made from. The closing of an application has none. -/
def identity? : Payload → Option Schema.Identity
  | .file f => some ⟨.file, f.source, f.id⟩
  | .shortcut s => some ⟨.shortcut, s.name, s.id⟩
  | .setting (.registry r) => some ⟨.registryValue, r.identitySource, r.id⟩
  | .setting (.environment v) => some ⟨.environmentVariable, v.name, v.id⟩
  | .setting (.closeApplication _) => none

theorem isSome_identity? (q : Payload) : q.identity?.isSome = !q.isLoose := by
  cases q with
  | file f => rfl
  | shortcut s => rfl
  | setting s => cases s <;> rfl

theorem identify_eq (q : Payload) (a : Allocator) :
    q.identify a = (q.identity?.map fun i => (i.take a).1, (q.identity?.map fun i =>
      (i.take a).2).getD a) := by
  cases q with
  | file f => rfl
  | shortcut s => rfl
  | setting s => cases s <;> rfl

theorem identify_of_none {q : Payload} (h : q.identity? = none) (a : Allocator) :
    q.identify a = (none, a) := by
  rw [identify_eq, h]
  rfl

theorem identify_of_some {q : Payload} {i : Schema.Identity} (h : q.identity? = some i)
    (a : Allocator) : q.identify a = (some (i.take a).1, (i.take a).2) := by
  rw [identify_eq, h]
  rfl

/-- The `Id` of a payload's element: a verbatim one, or else the identifier. -/
theorem get?_complete_id {q : Payload} (hq : q.isLoose = false) (id : String) :
    (q.complete (some id)).element.get? "Id" = some ((q.attributes.get? "Id").getD id) := by
  cases q with
  | file f => exact Schema.get?_complete_id _ _ _
  | shortcut s => exact Schema.get?_complete_id _ _ _
  | setting s =>
    cases s with
    | registry r => exact Schema.get?_complete_id _ _ _
    | environment v => exact Schema.get?_complete_id _ _ _
    | closeApplication c => simp [isLoose] at hq

theorem isSome_get?_id {q : Payload} (hq : q.isLoose = false) (a : Allocator) :
    ((q.complete (q.identify a).1).element.get? "Id").isSome := by
  obtain ⟨i, hi⟩ : ∃ i, q.identity? = some i :=
    Option.isSome_iff_exists.1 (by simp [isSome_identity?, hq])
  rw [identify_eq, hi, Option.map_some, get?_complete_id hq]
  rfl

theorem emit_eq_ok {q : Payload} {a b : Allocator} {w : Written} (h : q.emit a = .ok (w, b)) :
    q.complete (q.identify a).1 = w ∧ (q.identify a).2 = b := by
  cases q with
  | file f => exact (Schema.emit_eq_ok.1 h).2
  | shortcut s => exact (Schema.emit_eq_ok.1 h).2
  | setting s => cases s <;> exact (Schema.emit_eq_ok.1 h).2

end Payload

/-- The features that a setting names itself. -/
def Setting.features : Setting → List String
  | .registry r => r.features
  | .environment v => v.features
  | .closeApplication _ => []

namespace Compile
open Directory

/-- A component before it is written. -/
structure Box where
  id : String
  features : List String
  attributes : List (String × String)
  content : List Element

namespace Box

def element (seed : String) (b : Box) : Element :=
  ((Component.element seed b.id).setAll b.attributes).pushAll b.content

/-- The component with its features. -/
def ref (b : Box) : ComponentRef :=
  ⟨b.id, b.features⟩

def entry (b : Box) : Assigned :=
  ⟨.component, b.id, b.id⟩

end Box

/-- A payload with its features and its identifier. -/
structure Piece where
  payload : Payload
  features : List String
  id : Option String

namespace Piece

/-- The element of a piece in a directory with the given identifier. A file gets the base of all
sources, a shortcut the identifier of its directory in front and a working directory. -/
def element (p : Project) (directory : String) (x : Piece) : Element :=
  let e := (x.payload.complete x.id).element
  match x.payload with
  | .file f =>
      match p.sourceBaseDir with
      | some base =>
          if isRooted f.source then e else e.set "Source" (sourceBelow base f.source)
      | none => e
  | .shortcut s =>
      let e := match s.id with
        | some _ => e
        | none => e.setFirst "Id" (directory ++ "." ++ (e.get? "Id").getD "")
      if (e.get? "WorkingDirectory").isSome then e
      else e.set "WorkingDirectory" (s.impliedDirectory?.getD directory)
  | .setting _ => e

/-- A working directory leaves the identifier of an element alone, its name, and what it holds. -/
theorem workingDirectory_spec (e : Element) (value : String) :
    let placed := if (e.get? "WorkingDirectory").isSome then e else e.set "WorkingDirectory" value
    placed.get? "Id" = e.get? "Id" ∧ placed.name = e.name ∧ placed.elements = e.elements := by
  intro placed
  by_cases h : (e.get? "WorkingDirectory").isSome
  · have hplaced : placed = e := if_pos h
    rw [hplaced]
    exact ⟨rfl, rfl, rfl⟩
  · have hplaced : placed = e.set "WorkingDirectory" value := if_neg h
    rw [hplaced, Element.get?_set, if_neg (by decide)]
    exact ⟨rfl, rfl, rfl⟩

/-- A file has the identifier that it came by, unless a verbatim attribute gives it another. -/
theorem get?_id_file (p : Project) (directory : String) {f : File}
    (hf : f.attributes.get? "Id" = none) (features : List String) (id : String) :
    (element p directory ⟨.file f, features, some id⟩).get? "Id" = some id := by
  have hget : ((Payload.file f).complete (some id)).element.get? "Id" = some id := by
    have hown : (Payload.file f).attributes.get? "Id" = none := hf
    rw [Payload.get?_complete_id rfl, hown]
    rfl
  simp only [element]
  split
  · split
    · exact hget
    · rw [Element.get?_set, if_neg (by decide)]
      exact hget
  · exact hget

def ownId (p : Project) (directory : String) (x : Piece) : String :=
  ((x.element p directory).get? "Id").getD ""

def box (p : Project) (directory : String) (x : Piece) : Box where
  id := Component.idFor (x.ownId p directory)
  features := x.features
  attributes := x.payload.requests
  content := x.element p directory :: x.payload.companions

/-- The component of a piece, if it has one. -/
def box? (p : Project) (directory : String) (x : Piece) : Option Box :=
  if x.payload.isLoose then none else some (x.box p directory)

/-- The element of a piece that has no component. -/
def loose? (p : Project) (directory : String) (x : Piece) : Option Element :=
  if x.payload.isLoose then some (x.element p directory) else none

end Piece

/-- Payloads with their features, furnished with identifiers one after the other. -/
def furnish (a : Allocator) : List (Payload × List String) → List Piece × Allocator
  | [] => ([], a)
  | t :: tasks =>
      let rest := furnish (t.1.identify a).2 tasks
      (⟨t.1, t.2, (t.1.identify a).1⟩ :: rest.1, rest.2)

theorem furnish_append (a : Allocator) (ts us : List (Payload × List String)) :
    furnish a (ts ++ us) =
      ((furnish a ts).1 ++ (furnish (furnish a ts).2 us).1, (furnish (furnish a ts).2 us).2) := by
  induction ts generalizing a with
  | nil => rfl
  | cons t ts ih => simp [furnish, ih]

/-- The pieces of tasks have the payloads and the features of the tasks. -/
theorem map_furnish (a : Allocator) (ts : List (Payload × List String)) :
    (furnish a ts).1.map (fun x => (x.payload, x.features)) = ts := by
  induction ts generalizing a with
  | nil => rfl
  | cons t ts ih => simp [furnish, ih]

theorem map_payload_furnish (a : Allocator) (ts : List (Payload × List String)) :
    (furnish a ts).1.map (·.payload) = ts.map (·.1) := by
  simpa [Function.comp_def] using congrArg (List.map Prod.fst) (map_furnish a ts)

theorem map_features_furnish (a : Allocator) (ts : List (Payload × List String)) :
    (furnish a ts).1.map (·.features) = ts.map (·.2) := by
  simpa [Function.comp_def] using congrArg (List.map Prod.snd) (map_furnish a ts)

def boxes (p : Project) (directory : String) (xs : List Piece) : List Box :=
  xs.filterMap (·.box? p directory)

def looseElements (p : Project) (directory : String) (xs : List Piece) : List Element :=
  xs.filterMap (·.loose? p directory)

@[simp] theorem boxes_append (p : Project) (directory : String) (xs ys : List Piece) :
    boxes p directory (xs ++ ys) = boxes p directory xs ++ boxes p directory ys := by
  simp [boxes]

@[simp] theorem looseElements_append (p : Project) (directory : String) (xs ys : List Piece) :
    looseElements p directory (xs ++ ys) =
      looseElements p directory xs ++ looseElements p directory ys := by
  simp [looseElements]

theorem Part.append_assoc (x y z : Part) : (x.append y).append z = x.append (y.append z) := by
  simp [Part.append, List.append_assoc, Bool.or_assoc]

theorem Part.concat_append (xs ys : List Part) :
    Part.concat (xs ++ ys) = (Part.concat xs).append (Part.concat ys) := by
  induction xs with
  | nil => rfl
  | cons x xs ih =>
    change x.append (Part.concat (xs ++ ys)) = (x.append (Part.concat xs)).append _
    rw [ih, Part.append_assoc]

theorem Part.concat_singleton (x : Part) : Part.concat [x] = x := by
  simp [Part.concat, Part.append]

/-- The part of a document that holds the pieces of some tasks, components first. -/
structure Furnishes (p : Project) (directory : String) (a : Allocator)
    (tasks : List (Payload × List String)) (part : Part) (b : Allocator) : Prop where
  ids : (furnish a tasks).2 = b
  elements : part.elements = (boxes p directory (furnish a tasks).1).map (·.element p.seed) ++
    looseElements p directory (furnish a tasks).1
  refs : part.refs = (boxes p directory (furnish a tasks).1).map (·.ref)
  entries : part.assigned.filter (·.kind = .component) =
    (boxes p directory (furnish a tasks).1).map (·.entry)

namespace Furnishes

variable {p : Project} {directory : String} {a b c : Allocator}
  {ts us : List (Payload × List String)} {part other : Part}

theorem nil (p : Project) (directory : String) (a : Allocator) :
    Furnishes p directory a [] {} a :=
  ⟨rfl, rfl, rfl, rfl⟩

theorem looseElements_eq_nil {xs : List Piece} (h : ∀ x ∈ xs, x.payload.isLoose = false) :
    looseElements p directory xs = [] := by
  rw [looseElements, List.filterMap_eq_nil_iff]
  intro x hx
  simp [Piece.loose?, h x hx]

/-- Parts without loose elements may stand in front of others. -/
theorem append (h : Furnishes p directory a ts part b) (h' : Furnishes p directory b us other c)
    (hts : ∀ t ∈ ts, t.1.isLoose = false) :
    Furnishes p directory a (ts ++ us) (part.append other) c := by
  have hloose : looseElements p directory (furnish a ts).1 = [] := by
    refine looseElements_eq_nil fun x hx => ?_
    have hmem : x.payload ∈ (furnish a ts).1.map (·.payload) := List.mem_map_of_mem hx
    rw [map_payload_furnish] at hmem
    obtain ⟨t, ht, htx⟩ := List.mem_map.1 hmem
    rw [← htx]
    exact hts t ht
  have hfurnish : furnish a (ts ++ us) =
      ((furnish a ts).1 ++ (furnish b us).1, (furnish b us).2) := by
    rw [furnish_append, h.ids]
  constructor
  · rw [hfurnish]
    exact h'.ids
  · rw [hfurnish, Part.append, h.elements, h'.elements, looseElements_append, hloose]
    simp
  · rw [hfurnish, Part.append, h.refs, h'.refs]
    simp
  · rw [hfurnish, Part.append, List.filter_append, h.entries, h'.entries]
    simp

variable (p directory) in
/-- A row of steps, each of which gives one task its piece. -/
theorem concat_mapM {α : Type} {step : α → Emit Part} (task : α → Payload × List String)
    (hstep : ∀ x a part b, step x a = .ok (part, b) →
      Furnishes p directory a [task x] part b ∧ (task x).1.isLoose = false)
    {xs : List α} {parts : List Part} (h : xs.mapM step a = .ok (parts, b)) :
    Furnishes p directory a (xs.map task) (Part.concat parts) b ∧
      ∀ t ∈ xs.map task, t.1.isLoose = false := by
  induction xs generalizing a parts with
  | nil =>
    obtain ⟨rfl, rfl⟩ := Emit.pure_eq_ok.1 h
    exact ⟨.nil p directory a, by simp⟩
  | cons x xs ih =>
    rw [List.mapM_cons, Emit.bind_eq_ok] at h
    obtain ⟨part, c, hx, h⟩ := h
    obtain ⟨rest, d, hrest, h⟩ := Emit.bind_eq_ok.1 h
    obtain ⟨rfl, rfl⟩ := Emit.pure_eq_ok.1 h
    obtain ⟨hfirst, hloose⟩ := hstep x a part c hx
    obtain ⟨hxs, hxsLoose⟩ := ih hrest
    refine ⟨hfirst.append hxs (by simpa using hloose), ?_⟩
    rw [List.map_cons]
    exact List.forall_mem_cons.2 ⟨hloose, hxsLoose⟩

/-- A component around one element, with an entry for the element in the report. -/
theorem single {q : Payload} (features : List String) {kind : IdKind} (source : String)
    (hq : q.isLoose = false) (hkind : kind ≠ .component) {x : Piece}
    (hx : x = ⟨q, features, (q.identify a).1⟩) {id : String} (hid : id = x.ownId p directory)
    {part : Part}
    (hpart : part = Part.component p.seed (Component.idFor id) features q.requests
      (x.element p directory :: q.companions)) :
    Furnishes p directory a [(q, features)]
      { part with assigned := ⟨kind, id, source⟩ :: part.assigned } (q.identify a).2 := by
  have hboxes : boxes p directory (furnish a [(q, features)]).1 =
      [⟨Component.idFor id, features, q.requests, x.element p directory :: q.companions⟩] := by
    subst hx hid
    simp [boxes, furnish, Piece.box?, Piece.box, hq]
  have hloose : looseElements p directory (furnish a [(q, features)]).1 = [] :=
    looseElements_eq_nil (by simpa [furnish] using hq)
  subst hpart
  constructor
  · rfl
  · rw [hboxes, hloose]
    rfl
  · rw [hboxes]
    rfl
  · rw [hboxes]
    simp [hkind, Part.component, Box.entry]

theorem file {f : File} {features : List String} (h : filePart p f features a = .ok (part, b)) :
    Furnishes p directory a [(.file f, features)] part b := by
  obtain ⟨w, c, hw, h⟩ := Emit.bind_eq_ok.1 h
  obtain ⟨_, rfl, rfl⟩ := Schema.emit_eq_ok.1 hw
  obtain ⟨rfl, rfl⟩ := Emit.pure_eq_ok.1 h
  have hrequests : (Payload.file f).requests = f.attributes.component := List.append_nil _
  refine single features f.source rfl (by decide) rfl rfl ?_
  rw [hrequests]
  rfl

theorem shortcut {s : Shortcut} {features : List String}
    (h : shortcutPart p directory s features a = .ok (part, b)) :
    Furnishes p directory a [(.shortcut s, features)] part b := by
  obtain ⟨w, c, hw, h⟩ := Emit.bind_eq_ok.1 h
  obtain ⟨_, rfl, rfl⟩ := Schema.emit_eq_ok.1 hw
  have hrequests : (Payload.shortcut s).requests = s.attributes.component := List.append_nil _
  cases hs : s.id with
  | none =>
    simp only [hs] at h
    obtain ⟨rfl, rfl⟩ := Emit.pure_eq_ok.1 h
    refine single features s.name rfl (by decide) rfl ?_ ?_
    · simp only [Piece.ownId, Piece.element, hs]
      rw [(Piece.workingDirectory_spec _ _).1, Element.get?_setFirst]
      rfl
    · rw [hrequests]
      simp only [Piece.element, hs]
      rfl
  | some given =>
    simp only [hs] at h
    obtain ⟨rfl, rfl⟩ := Emit.pure_eq_ok.1 h
    refine single features s.name rfl (by decide) rfl ?_ ?_
    · simp only [Piece.ownId, Piece.element, hs]
      rw [(Piece.workingDirectory_spec _ _).1]
      rfl
    · rw [hrequests]
      simp only [Piece.element, hs]
      rfl

end Furnishes

/-- The tasks that settings are, among features of what is around them. -/
def settingTasks (features : List String) (ss : List Setting) : List (Payload × List String) :=
  ss.map fun s => (.setting s, nearest [s.features, features])

theorem setting_of_mem_furnish {a : Allocator} {features : List String} {ss : List Setting}
    {x : Piece} (hx : x ∈ (furnish a (settingTasks features ss)).1) :
    ∃ s, x.payload = .setting s := by
  have hmem := List.mem_map_of_mem (f := Piece.payload) hx
  rw [map_payload_furnish] at hmem
  obtain ⟨t, ht, htx⟩ := List.mem_map.1 hmem
  obtain ⟨s, _, rfl⟩ := List.mem_map.1 ht
  exact ⟨s, htx.symm⟩

/-- A placement with the pieces of further settings. -/
structure Places (p : Project) (directory : String) (features : List String) (xs : List Piece)
    (start placed : Placement) : Prop where
  components : placed.components =
    start.components ++ (boxes p directory xs).map (·.element p.seed)
  parentElements : placed.parentElements = start.parentElements ++ looseElements p directory xs
  refs : placed.refs.map (fun r => (⟨r.id, nearest [r.features, features]⟩ : ComponentRef)) =
    start.refs.map (fun r => ⟨r.id, nearest [r.features, features]⟩) ++
      (boxes p directory xs).map (·.ref)

/-- A component made for the setting at hand is one piece more. -/
theorem places_addComponent {p : Project} (directory : String) (features : List String)
    {start hand : Placement} {s : Setting} {id : Option String} {x : Piece}
    (hx : x = ⟨.setting s, nearest [s.features, features], id⟩)
    (hs : (Payload.setting s).isLoose = false)
    (hpending : hand.pending = (Payload.setting s).requests)
    (hhand : hand.components = start.components ∧ hand.parentElements = start.parentElements ∧
      hand.refs = start.refs) :
    Places p directory features [x] start
      (hand.addComponent p.seed (x.ownId p directory) s.features
        (x.element p directory :: (Payload.setting s).companions)).release := by
  obtain ⟨hcomponents, hparents, hrefs⟩ := hhand
  have hbox : boxes p directory [x] = [⟨Component.idFor (x.ownId p directory),
      nearest [s.features, features], (Payload.setting s).requests,
      x.element p directory :: (Payload.setting s).companions⟩] := by
    subst hx
    simp [boxes, Piece.box?, Piece.box, hs]
  have hloose : looseElements p directory [x] = [] :=
    Furnishes.looseElements_eq_nil (by subst hx; simpa using hs)
  constructor
  · rw [hbox]
    simp [Placement.addComponent, Placement.release, hcomponents, hpending, Box.element]
  · rw [hloose, List.append_nil]
    exact hparents
  · rw [hbox]
    simp [Placement.addComponent, Placement.release, hrefs, Box.ref]

/-- One setting placed is one piece more. -/
theorem places_place {p : Project} (directory : String) (features : List String)
    (start : Placement) {s : Setting} {id : Option String} {x : Piece}
    (hx : x = ⟨.setting s, nearest [s.features, features], id⟩)
    (hid : (Payload.setting s).isLoose = false →
      (((Payload.setting s).complete id).element.get? "Id").isSome) :
    Places p directory features [x] start
      ((start.take ((Payload.setting s).complete id)).place p.seed s).release := by
  have helement : x.element p directory = ((Payload.setting s).complete id).element := by
    rw [hx]
    rfl
  have hown : (Payload.setting s).isLoose = false → ∀ key,
      (((Payload.setting s).complete id).element.get? "Id").getD key = x.ownId p directory := by
    intro hs key
    obtain ⟨own, hget⟩ := Option.isSome_iff_exists.1 (hid hs)
    rw [Piece.ownId, helement, hget]
    rfl
  cases s with
  | closeApplication c =>
    subst hx
    exact ⟨(List.append_nil _).symm, rfl, (List.append_nil _).symm⟩
  | environment v =>
    let hand := start.take ((Payload.setting (.environment v)).complete id)
    have hplace : hand.place p.seed (.environment v) =
        hand.addComponent p.seed (x.ownId p directory) v.features
          (x.element p directory :: Placement.conditionElements v.condition) := by
      rw [← hown rfl v.name, helement]
      rfl
    rw [hplace]
    exact places_addComponent directory features hx rfl (List.append_nil _).symm ⟨rfl, rfl, rfl⟩
  | registry r =>
    let hand := (start.take ((Payload.setting (.registry r)).complete id)).requestWidth r.win64
    have hhand : hand.pending = (Payload.setting (.registry r)).requests ∧
        hand.components = start.components ∧ hand.parentElements = start.parentElements ∧
        hand.refs = start.refs := by
      simp only [hand, Payload.requests, Payload.widthAttributes]
      cases r.win64 with
      | none => exact ⟨(List.append_nil _).symm, rfl, rfl, rfl⟩
      | some wide => cases wide <;> exact ⟨rfl, rfl, rfl, rfl⟩
    have hplace : (start.take ((Payload.setting (.registry r)).complete id)).place p.seed
        (.registry r) = hand.addComponent p.seed (x.ownId p directory) r.features
          [x.element p directory] := by
      rw [← hown rfl r.key, helement]
      rfl
    rw [hplace]
    exact places_addComponent directory features hx rfl hhand.1 hhand.2

/-- Settings placed one after the other are the pieces of their tasks. -/
theorem places_processAll {p : Project} (directory : String) (features : List String)
    {ss : List Setting} {start placed : Placement} {a b : Allocator}
    (h : start.processAll p.seed ss a = .ok (placed, b)) :
    (furnish a (settingTasks features ss)).2 = b ∧
      Places p directory features (furnish a (settingTasks features ss)).1 start placed := by
  induction ss generalizing start a with
  | nil =>
    obtain ⟨rfl, rfl⟩ := Emit.pure_eq_ok.1 h
    exact ⟨rfl, (List.append_nil _).symm, (List.append_nil _).symm, (List.append_nil _).symm⟩
  | cons s ss ih =>
    unfold Placement.processAll Placement.process at h
    cases hs : s.emit a with
    | error e => simp [hs] at h
    | ok r =>
      obtain ⟨w, c⟩ := r
      simp only [hs] at h
      obtain ⟨rfl, rfl⟩ := Payload.emit_eq_ok (q := .setting s) hs
      obtain ⟨hids, hrest⟩ := ih h
      have hfirst := places_place directory features start (p := p) rfl fun hq =>
        Payload.isSome_get?_id (q := .setting s) hq a
      refine ⟨hids, ?_⟩
      change Places p directory features ([_] ++ (furnish _ (settingTasks features ss)).1) _ _
      constructor
      · rw [hrest.components, hfirst.components, boxes_append, List.map_append, List.append_assoc]
      · rw [hrest.parentElements, hfirst.parentElements, looseElements_append, List.append_assoc]
      · rw [hrest.refs, hfirst.refs, boxes_append, List.map_append, List.append_assoc]

theorem furnishes_settings {p : Project} (directory : String) (features : List String)
    {ss : List Setting} {placed : Placement} {a b : Allocator}
    (h : ({} : Placement).processAll p.seed ss a = .ok (placed, b)) :
    Furnishes p directory a (settingTasks features ss)
      { (placedPart placed features).1 with
        elements := placed.components ++ placed.parentElements } b := by
  obtain ⟨hids, hplaces⟩ := places_processAll directory features h
  have hrefs := hplaces.refs
  rw [List.map_nil, List.nil_append] at hrefs
  refine ⟨hids, ?_, hrefs, ?_⟩
  · rw [hplaces.components, hplaces.parentElements]
    rfl
  · have hentries := congrArg (List.map fun r => (⟨.component, r.id, r.id⟩ : Assigned)) hrefs
    rw [List.map_map, List.map_map] at hentries
    have hall : (placed.refs.map fun r => (⟨.component, r.id, r.id⟩ : Assigned)).filter
        (·.kind = .component) = placed.refs.map fun r => ⟨.component, r.id, r.id⟩ := by
      rw [List.filter_eq_self]
      intro g hg
      obtain ⟨r, _, rfl⟩ := List.mem_map.1 hg
      rfl
    exact hall.trans hentries

/-- The tasks of a directory: its payloads with the nearest features declared around them. -/
def tasksOf (n : Node) : List (Payload × List String) :=
  n.files.map (fun f => (.file f, nearest [f.features, n.features])) ++
    (n.fileSets.flatMap fun s => s.files.map (s, ·)).map
      (fun (s, f) => (.file f, nearest [f.features, s.features, n.features])) ++
    n.shortcuts.map (fun s => (.shortcut s, nearest [s.features, n.features])) ++
    settingTasks n.features n.settings

theorem map_fst_tasksOf (n : Node) : (tasksOf n).map (·.1) = n.payloads := by
  simp [tasksOf, settingTasks, Node.payloads, List.map_flatMap, Function.comp_def]

/-- The content of a directory furnishes its tasks. -/
theorem furnishes_contentPart {p : Project} {n : Node} {directory : String} {a b : Allocator}
    {part : Part} (h : contentPart p n directory a = .ok (part, b)) :
    Furnishes p directory a (tasksOf n) part b := by
  obtain ⟨files, a₁, hfiles, h⟩ := Emit.bind_eq_ok.1 h
  obtain ⟨matched, a₂, hmatched, h⟩ := Emit.bind_eq_ok.1 h
  obtain ⟨shortcuts, a₃, hshortcuts, h⟩ := Emit.bind_eq_ok.1 h
  obtain ⟨settings, a₄, hsettings, h⟩ := Emit.bind_eq_ok.1 h
  obtain ⟨rfl, rfl⟩ := Emit.pure_eq_ok.1 h
  obtain ⟨placed, a₅, hplaced, hsettings⟩ := Emit.bind_eq_ok.1 hsettings
  obtain ⟨rfl, rfl⟩ := Emit.pure_eq_ok.1 hsettings
  have hF := Furnishes.concat_mapM p directory
    (fun f => (.file f, nearest [f.features, n.features]))
    (fun f _ _ _ hf => ⟨.file hf, rfl⟩) hfiles
  have hM := Furnishes.concat_mapM p directory
    (fun (s, f) => (.file f, nearest [f.features, s.features, n.features]))
    (fun f _ _ _ hf => ⟨.file hf, rfl⟩) hmatched
  have hS := Furnishes.concat_mapM p directory
    (fun s => (.shortcut s, nearest [s.features, n.features]))
    (fun s _ _ _ hs => ⟨.shortcut hs, rfl⟩) hshortcuts
  have hT := furnishes_settings directory n.features hplaced
  have hFM := hF.1.append hM.1 hF.2
  have hFMS := hFM.append hS.1 (List.forall_mem_append.2 ⟨hF.2, hM.2⟩)
  rw [Part.concat_append, Part.concat_append, Part.concat_append, Part.concat_singleton]
  exact hFMS.append hT
    (List.forall_mem_append.2 ⟨List.forall_mem_append.2 ⟨hF.2, hM.2⟩, hS.2⟩)

end Compile

end Installer
