import Installer.Dialog.Interface
import Installer.Proofs.Dialog.Graph
import Installer.Proofs.Schema.Writing

/-!
# Routes between dialogs

A user interface leads from one dialog to another in two places of its element: in the actions of its
sequence, and in the actions that a control of a defined dialog has of its own. The graph of the
sequence has the first ones only. So the two agree exactly where every dialog that a control's own
action leads to is a successor of the control's dialog anyway.
-/
namespace Installer.Dialog

open Identifier Markup Schema

/-- An element that publishes a way to a dialog. -/
structure LeadsTo (destination : String) (e : Element) : Prop where
  name : e.name = "Publish"
  event : e.get? "Event" = some "NewDialog" ∨ e.get? "Event" = some "SpawnDialog"
  value : e.get? "Value" = some destination

/-- A way from a dialog among the actions that the interface publishes. -/
def PublishesRoute (u : Element) (source destination : String) : Prop :=
  ∃ e ∈ u.elements, LeadsTo destination e ∧ e.get? "Dialog" = some source

/-- A way from a dialog at one of the controls in its element. -/
def ControlRoute (u : Element) (source destination : String) : Prop :=
  ∃ d ∈ u.elements, d.name = "Dialog" ∧ d.get? "Id" = some source ∧
    ∃ c ∈ d.elements, c.name = "Control" ∧ ∃ e ∈ c.elements, LeadsTo destination e

/-- A way from a dialog to another that the element of an interface shows. -/
def ShowsRoute (u : Element) (source destination : String) : Prop :=
  PublishesRoute u source destination ∨ ControlRoute u source destination

/-- A dialog whose definition has a control with an action of its own that leads to another one. -/
def Definition.LeadsTo (d : Definition) (destination : String) : Prop :=
  ∃ c ∈ d.controls, ∃ a ∈ c.actions, a.destination? = some destination

/-- The graph of the dialogs of an interface. -/
def Interface.navigation (ui : Interface) : Navigation :=
  .ofResolved ui.sequence.resolve

@[simp] theorem get?_pushText (e : Element) (s key : String) :
    (e.pushText s).get? key = e.get? key := rfl

@[simp] theorem get?_named (name key : String) : (Element.named name).get? key = none := rfl

theorem word_eq_iff (event : Event) :
    (Text.Worded.word event = "NewDialog" ↔ event = .newDialog) ∧
      (Text.Worded.word event = "SpawnDialog" ↔ event = .spawnDialog) := by
  cases event <;> decide

/-- An element with the event and the value of an action leads where the action leads. An empty value
may be left out. -/
theorem leadsTo_iff {e : Element} {a : Action} {destination : String}
    (hname : e.name = "Publish") (hevent : e.get? "Event" = a.event.map Text.Worded.word)
    (hvalue : (e.get? "Value").getD "" = a.value) (hne : destination ≠ "") :
    LeadsTo destination e ↔ a.destination? = some destination := by
  have hevents : (e.get? "Event" = some "NewDialog" ∨ e.get? "Event" = some "SpawnDialog") ↔
      (a.event = some .newDialog ∨ a.event = some .spawnDialog) := by
    rw [hevent]
    cases a.event with
    | none => simp
    | some event => simp [word_eq_iff]
  rw [destination_eq_some, ← hevents, ← hvalue]
  constructor
  · intro h
    exact ⟨h.event, hne, by rw [h.value, Option.getD_some]⟩
  · rintro ⟨hevent, -, hdestination⟩
    refine ⟨hname, hevent, ?_⟩
    cases hget : e.get? "Value" with
    | none => exact absurd (by rw [← hdestination, hget, Option.getD_none]) hne
    | some value => rw [← hdestination, hget, Option.getD_some]

/-- The element of a published action has the dialog of its entry. Its event and its value are those
of the action. -/
theorem actionElement_spec (x : Entry) (a : Action) :
    (x.actionElement a).name = "Publish" ∧ (x.actionElement a).get? "Dialog" = some x.dialog ∧
      (x.actionElement a).get? "Event" = a.event.map Text.Worded.word ∧
        ((x.actionElement a).get? "Value").getD "" = a.value := by
  unfold Entry.actionElement
  by_cases hv : a.value = "" <;> cases a.event <;> cases a.property <;> cases a.order <;>
    simp [Element.get?_set, hv]

theorem leadsTo_actionElement (x : Entry) (a : Action) {destination : String}
    (hne : destination ≠ "") :
    LeadsTo destination (x.actionElement a) ↔ a.destination? = some destination := by
  obtain ⟨hname, -, hevent, hvalue⟩ := actionElement_spec x a
  exact leadsTo_iff hname hevent hvalue hne

theorem leadsTo_controlAction (a : Action) (index : Nat) {destination : String}
    (hne : destination ≠ "") :
    LeadsTo destination (Control.actionElement a index) ↔ a.destination? = some destination := by
  refine leadsTo_iff ?_ ?_ ?_ hne <;> unfold Control.actionElement <;>
    cases a.event <;> cases a.property.filter (!·.isEmpty) <;> simp [Element.get?_set]

theorem get?_write_of_ne {α : Type} (f : Schema.Field α) (x : α) (e : Element) {key : String}
    (h : f.target ≠ key) : (f.write x e).get? key = e.get? key := by
  unfold Field.write
  split
  · rfl
  · rfl
  · split
    · rfl
    · split
      · rfl
      · rw [Element.get?_set, if_neg h]

/-- The element of a dialog has the identifier of its definition, unless the author writes another
one over it. -/
theorem get?_id_complete {d : Definition} (hmissing : Definition.schema.missing? d = none)
    (hid : d.attributes.get? "Id" = none) :
    (Definition.schema.complete d none).element.get? "Id" = some d.id := by
  have hnonempty : d.id.isEmpty = false := by
    rw [missing?, Option.map_eq_none_iff, List.find?_eq_none] at hmissing
    have hfirst := hmissing _ List.mem_cons_self
    simpa [Field.isMissing, Field.value?, Field.required, Value.isAbsent] using hfirst
  let first : Schema.Field Definition := .required "Id" fun d => some (.text d.id)
  have hvalue : first.value? d = some (.text d.id) :=
    Option.filter_eq_some_iff.2 ⟨rfl, by simpa [Value.isAbsent] using hnonempty⟩
  have hfirst : (first.write d (Element.named "Dialog")).get? "Id" = some d.id := by
    rw [Field.write, hvalue]
    simp [first, Field.required, Value.written, Element.get?_set]
  change ((Definition.schema.fieldsElement d).setAll d.attributes.own).get? "Id" = _
  rw [get?_setAll_own _ _ (by decide), hid, Option.none_or, fieldsElement, Definition.schema]
  simp only [List.foldl_cons, List.foldl_nil]
  rw [get?_write_of_ne _ _ _ (by decide), get?_write_of_ne _ _ _ (by decide),
    get?_write_of_ne _ _ _ (by decide), hfirst]

theorem name_of_mem_controlFields {c : Control} {e : Element}
    (he : e ∈ Control.schema.fieldChildren c) : e.name = "Text" := by
  obtain ⟨f, hf, es, hv, hes⟩ := mem_fieldChildren he
  simp only [Control.schema, Field.required, Field.optional, Field.asChildren, natValue, onlyOn,
    List.mem_cons, List.not_mem_nil, or_false] at hf
  rcases hf with rfl | rfl | rfl | rfl | rfl | rfl | rfl | rfl | rfl | rfl | rfl
  case inr.inr.inr.inr.inr.inr.inr.inr.inr.inr =>
    obtain ⟨t, _, ht⟩ := Option.map_eq_some_iff.1 hv
    obtain rfl := Value.elements.inj ht
    rw [List.mem_singleton.1 hes]
    rfl
  all_goals simp at hv

/-- The element of a control leads where the control's own actions lead. -/
theorem leadsTo_control {c : Control} {a b : Allocator} {x : Element}
    (h : c.emit a = .ok (x, b)) : x.name = "Control" ∧ ∀ destination, destination ≠ "" →
      ((∃ e ∈ x.elements, LeadsTo destination e) ↔
        ∃ act ∈ c.actions, act.destination? = some destination) := by
  obtain ⟨w, _, hw, h⟩ := Emit.bind_eq_ok.1 h
  obtain ⟨rfl, _⟩ := Emit.pure_eq_ok.1 h
  obtain ⟨_, rfl, _⟩ := emit_eq_ok.1 hw
  refine ⟨by simp [Control.schema], fun destination hne => ?_⟩
  rw [Element.elements_pushAll, Element.elements_pushAll, elements_complete]
  constructor
  · rintro ⟨e, he, hleads⟩
    rcases List.mem_append.1 he with he | he
    · rcases List.mem_append.1 he with he | he
      · exact absurd ((name_of_mem_controlFields he).symm.trans hleads.name) (by decide)
      · obtain ⟨⟨act, index⟩, hact, rfl⟩ := List.mem_map.1 he
        exact ⟨act, List.fst_mem_of_mem_zipIdx hact, (leadsTo_controlAction act index hne).1 hleads⟩
    · obtain ⟨condition, _, rfl⟩ := List.mem_map.1 he
      exact absurd hleads.name (by simp [Control.conditionElement])
  · rintro ⟨act, hact, hdestination⟩
    obtain ⟨⟨act, index⟩, hindex, rfl⟩ : ∃ p ∈ c.actions.zipIdx, p.1 = act := by
      rwa [← List.mem_map, List.zipIdx_map_fst]
    exact ⟨_, List.mem_append_left _ (List.mem_append_right _ (List.mem_map_of_mem hindex)),
      (leadsTo_controlAction act index hne).2 hdestination⟩

theorem name_definition {d : Definition} {a b : Allocator} {x : Element}
    (h : d.emit a = .ok (x, b)) : x.name = "Dialog" := by
  obtain ⟨w, _, hw, h⟩ := Emit.bind_eq_ok.1 h
  obtain ⟨controls, _, _, h⟩ := Emit.bind_eq_ok.1 h
  obtain ⟨rfl, _⟩ := Emit.pure_eq_ok.1 h
  obtain ⟨_, rfl, _⟩ := emit_eq_ok.1 hw
  rw [Element.pushAll_name, complete_name]
  rfl

/-- The element of a dialog leads where its controls lead. -/
theorem leadsTo_definition {d : Definition} {a b : Allocator} {x : Element}
    (h : d.emit a = .ok (x, b)) (hid : d.attributes.get? "Id" = none) :
    x.get? "Id" = some d.id ∧ ∀ destination, destination ≠ "" →
      ((∃ c ∈ x.elements, c.name = "Control" ∧ ∃ e ∈ c.elements, LeadsTo destination e) ↔
        d.LeadsTo destination) := by
  obtain ⟨w, _, hw, h⟩ := Emit.bind_eq_ok.1 h
  obtain ⟨controls, _, hcontrols, h⟩ := Emit.bind_eq_ok.1 h
  obtain ⟨rfl, _⟩ := Emit.pure_eq_ok.1 h
  obtain ⟨hmissing, rfl, _⟩ := emit_eq_ok.1 hw
  refine ⟨?_, fun destination hne => ?_⟩
  · rw [Element.get?_pushAll]
    exact get?_id_complete hmissing hid
  rw [Element.elements_pushAll, elements_complete,
    fieldChildren_eq_nil (by simp [Definition.schema, Field.required, Field.optional, natValue]),
    List.nil_append]
  refine Emit.exists_mem_iff_of_mapM hcontrols fun c _ y _ _ hemit => ?_
  obtain ⟨hname, hleads⟩ := leadsTo_control hemit
  rw [hleads destination hne]
  exact and_iff_right hname

section interface

variable {ui : Interface} {u : Element} {a b : Allocator}

/-- The elements of an interface are those of its fonts, properties and stock dialogs, those of its
sequence, and those of its definitions. -/
theorem elements_interface (h : ui.emit a = .ok (u, b)) :
    ∃ others dialogs, u.elements = others ++ ui.sequence.resolve.elements ++ dialogs ∧
      (∀ e ∈ others, e.name ≠ "Publish" ∧ e.name ≠ "Dialog") ∧
      ∃ c d, ui.sequence.definitions.mapM Definition.emit c = .ok (dialogs, d) := by
  obtain ⟨styles, c, hstyles, h⟩ := Emit.bind_eq_ok.1 h
  obtain ⟨dialogs, d, hdialogs, h⟩ := Emit.bind_eq_ok.1 h
  obtain ⟨rfl, _⟩ := Emit.pure_eq_ok.1 h
  refine ⟨styles.map (·.element) ++ ui.properties.map Interface.propertyElement ++
    ui.dialogRefs.map Interface.dialogRefElement, dialogs, ?_, fun e he => ?_, c, d, hdialogs⟩
  · rw [Element.elements_pushAll, Element.elements_setAll, Element.named_elements, List.nil_append]
  · simp only [List.mem_append] at he
    rcases he with (he | he) | he
    · rw [name_of_mapM_emit hstyles e he]
      decide
    · obtain ⟨q, _, rfl⟩ := List.mem_map.1 he
      simp [Interface.propertyElement]
    · obtain ⟨q, _, rfl⟩ := List.mem_map.1 he
      simp [Interface.dialogRefElement]

theorem name_of_mem_resolved {r : Resolved} {e : Element} (he : e ∈ r.elements) :
    e.name = "Publish" := by
  obtain ⟨x, _, he⟩ := List.mem_flatMap.1 he
  obtain ⟨act, _, rfl⟩ := List.mem_map.1 he
  exact (actionElement_spec x act).1

/-- The published actions show the ways of the graph. -/
theorem publishesRoute_iff (h : ui.emit a = .ok (u, b)) {source destination : String}
    (hne : destination ≠ "") :
    PublishesRoute u source destination ↔ destination ∈ ui.navigation.successors source := by
  obtain ⟨others, dialogs, helements, hothers, _, _, hdialogs⟩ := elements_interface h
  rw [PublishesRoute, helements, Interface.navigation, mem_successors]
  constructor
  · rintro ⟨e, he, hleads, hdialog⟩
    rcases List.mem_append.1 he with he | he
    · rcases List.mem_append.1 he with he | he
      · exact absurd hleads.name (hothers e he).1
      · obtain ⟨x, hx, he⟩ := List.mem_flatMap.1 he
        obtain ⟨act, hact, rfl⟩ := List.mem_map.1 he
        rw [(actionElement_spec x act).2.1] at hdialog
        exact ⟨x, hx, Option.some.inj hdialog, act, hact, (leadsTo_actionElement x act hne).1 hleads⟩
    · obtain ⟨d, _, _, _, hemit⟩ := Emit.mem_of_mapM_eq_ok hdialogs he
      exact absurd ((name_definition hemit).symm.trans hleads.name) (by decide)
  · rintro ⟨x, hx, rfl, act, hact, hdestination⟩
    have hmem : x.actionElement act ∈ ui.sequence.resolve.elements :=
      List.mem_flatMap.2 ⟨x, hx, List.mem_map_of_mem hact⟩
    exact ⟨_, List.mem_append_left _ (List.mem_append_right _ hmem),
      (leadsTo_actionElement x act hne).2 hdestination, (actionElement_spec x act).2.1⟩

/-- The elements of the dialogs show the ways of their controls' own actions. -/
theorem controlRoute_iff (h : ui.emit a = .ok (u, b))
    (hid : ∀ d ∈ ui.sequence.definitions, d.attributes.get? "Id" = none)
    {source destination : String} (hne : destination ≠ "") :
    ControlRoute u source destination ↔
      ∃ d ∈ ui.sequence.definitions, d.id = source ∧ d.LeadsTo destination := by
  obtain ⟨others, dialogs, helements, hothers, _, _, hdialogs⟩ := elements_interface h
  rw [← Emit.exists_mem_iff_of_mapM hdialogs (P := fun x => x.name = "Dialog" ∧
    x.get? "Id" = some source ∧ ∃ c ∈ x.elements, c.name = "Control" ∧
      ∃ e ∈ c.elements, LeadsTo destination e), ControlRoute, helements]
  · constructor
    · rintro ⟨d, hd, hname, hshown⟩
      rcases List.mem_append.1 hd with hd | hd
      · rcases List.mem_append.1 hd with hd | hd
        · exact absurd hname (hothers d hd).2
        · exact absurd ((name_of_mem_resolved hd).symm.trans hname) (by decide)
      · exact ⟨d, hd, hname, hshown⟩
    · rintro ⟨d, hd, hshown⟩
      exact ⟨d, List.mem_append_right _ hd, hshown⟩
  · intro d hd x _ _ hemit
    obtain ⟨hget, hleads⟩ := leadsTo_definition hemit (hid d hd)
    rw [hleads destination hne, hget, Option.some_inj]
    exact and_iff_right (name_definition hemit)

/-- The graph has no way that the interface does not show. It has all that are shown exactly where
every dialog that a control's own action leads to is a successor of the control's dialog. -/
theorem successors_shown_iff (h : ui.emit a = .ok (u, b))
    (hid : ∀ d ∈ ui.sequence.definitions, d.attributes.get? "Id" = none) :
    (∀ source destination, destination ≠ "" →
      destination ∈ ui.navigation.successors source → ShowsRoute u source destination) ∧
    ((∀ source destination, destination ≠ "" →
      (destination ∈ ui.navigation.successors source ↔ ShowsRoute u source destination)) ↔
        ∀ d ∈ ui.sequence.definitions, ∀ destination, d.LeadsTo destination →
          destination ∈ ui.navigation.successors d.id) := by
  have hgraph : ∀ source destination, destination ≠ "" →
      destination ∈ ui.navigation.successors source → ShowsRoute u source destination :=
    fun source destination hne hmem => Or.inl ((publishesRoute_iff h hne).2 hmem)
  refine ⟨hgraph, fun hagree d hd destination hleads => ?_, fun hcovered source destination hne =>
    ⟨hgraph source destination hne, fun hshown => ?_⟩⟩
  · have hne : destination ≠ "" := by
      obtain ⟨c, _, act, _, hdestination⟩ := hleads
      exact (destination_eq_some.1 hdestination).2.1
    exact (hagree d.id destination hne).2
      (Or.inr ((controlRoute_iff h hid hne).2 ⟨d, hd, rfl, hleads⟩))
  · rcases hshown with hshown | hshown
    · exact (publishesRoute_iff h hne).1 hshown
    · obtain ⟨d, hd, rfl, hleads⟩ := (controlRoute_iff h hid hne).1 hshown
      exact hcovered d hd destination hleads

end interface

/-- A dialog with a button that leads on. -/
def termsDialog : Definition where
  id := "TermsDlg"
  controls := [{ id := "Next", type := "PushButton", actions := [.showDialog "ReadyDlg"] }]

/-- An interface that only defines the dialog. -/
def termsInterface : Interface :=
  { Interface.dialogSequence with sequence := Interface.dialogSequence.sequence.register termsDialog }

theorem emit_termsInterface : ∃ u b, termsInterface.emit (.empty 0) = .ok (u, b) := by
  have hrun : (termsInterface.emit (.empty 0)).toOption.isSome = true := by decide +kernel
  cases hemit : termsInterface.emit (.empty 0) with
  | error e => simp [hemit, Except.toOption] at hrun
  | ok r => exact ⟨r.1, r.2, rfl⟩

/-- The graph does not know the way that the button shows. -/
theorem route_missing_from_graph : ∃ u b, termsInterface.emit (.empty 0) = .ok (u, b) ∧
    ShowsRoute u "TermsDlg" "ReadyDlg" ∧
      "ReadyDlg" ∉ termsInterface.navigation.successors "TermsDlg" := by
  obtain ⟨u, b, hemit⟩ := emit_termsInterface
  have hid : ∀ d ∈ termsInterface.sequence.definitions, d.attributes.get? "Id" = none := by decide
  have hleads : termsDialog.LeadsTo "ReadyDlg" :=
    ⟨_, List.mem_singleton_self _, .showDialog "ReadyDlg", List.mem_singleton_self _, by decide⟩
  refine ⟨u, b, hemit, Or.inr ((controlRoute_iff hemit hid (by decide)).2
    ⟨termsDialog, List.mem_singleton_self _, rfl, hleads⟩), ?_⟩
  decide +kernel

theorem successors_shown_iff_terms : ∃ u b, termsInterface.emit (.empty 0) = .ok (u, b) ∧
    (∀ source destination, destination ≠ "" →
      destination ∈ termsInterface.navigation.successors source →
        ShowsRoute u source destination) ∧
    ((∀ source destination, destination ≠ "" →
      (destination ∈ termsInterface.navigation.successors source ↔
        ShowsRoute u source destination)) ↔
        ∀ d ∈ termsInterface.sequence.definitions, ∀ destination, d.LeadsTo destination →
          destination ∈ termsInterface.navigation.successors d.id) := by
  obtain ⟨u, b, hemit⟩ := emit_termsInterface
  exact ⟨u, b, hemit, successors_shown_iff hemit (by decide)⟩

end Installer.Dialog
