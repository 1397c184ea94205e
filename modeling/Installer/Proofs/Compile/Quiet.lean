import Installer.Compile.Document
import Installer.Proofs.Schema.Writing

/-!
# The quiet parts of a document

The package, the media, the upgrade policy, the properties and the user interface of a document hold
no directory, no component, no feature, no reference to a component, no payload, and no removal of a
folder. Whatever is said about those has to be looked for in the directories, the features and the
closings of applications only.
-/
namespace Installer.Compile
open Identifier Markup Schema

/-- The names of directories, components, features, references to components, payloads, and removals
of folders. -/
def structuralNames : List String :=
  ["Directory", "Component", "Feature", "ComponentRef", "File", "Shortcut", "RegistryValue",
    "Environment", "util:CloseApplication", "RemoveFolder"]

/-- A row of elements with nothing structural in it. -/
def Quiet (es : List Element) : Prop :=
  ∀ e ∈ Element.within es, e.name ∉ structuralNames

namespace Quiet

theorem nil : Quiet [] := by
  simp [Quiet]

theorem append {es fs : List Element} (h : Quiet es) (h' : Quiet fs) : Quiet (es ++ fs) := by
  rw [Quiet, Element.within_append]
  exact List.forall_mem_append.2 ⟨h, h'⟩

theorem singleton {e : Element} (hname : e.name ∉ structuralNames) (h : Quiet e.elements) :
    Quiet [e] := by
  rw [Quiet, Element.within_cons, Element.within_nil, List.append_nil]
  exact List.forall_mem_cons.2 ⟨hname, h⟩

theorem of_forall {es : List Element} (h : ∀ e ∈ es, Quiet [e]) : Quiet es := by
  intro x hx
  obtain ⟨e, he, hx⟩ := List.mem_flatMap.1 hx
  exact h e he x (by simpa [Element.within] using hx)

theorem map {α : Type} {f : α → Element} {xs : List α} (h : ∀ x ∈ xs, Quiet [f x]) :
    Quiet (xs.map f) := by
  refine of_forall fun e he => ?_
  obtain ⟨x, hx, rfl⟩ := List.mem_map.1 he
  exact h x hx

/-- An element with a quiet name and no elements in it. -/
theorem leaf {e : Element} (hname : e.name ∉ structuralNames) (h : e.elements = []) :
    Quiet [e] :=
  singleton hname (h ▸ nil)

theorem emit {α : Type} {s : Schema α} {x : α} {a b : Allocator} {w : Written}
    (h : s.emit x a = .ok (w, b)) (hname : s.element ∉ structuralNames)
    (hfields : Quiet (s.fieldChildren x)) : Quiet [w.element] := by
  obtain ⟨_, rfl, _⟩ := emit_eq_ok.1 h
  exact singleton (by simpa using hname) (by simpa using hfields)

/-- An entity without child elements of its own. -/
theorem emit_leaf {α : Type} {s : Schema α} {x : α} {a b : Allocator} {w : Written}
    (h : s.emit x a = .ok (w, b)) (hname : s.element ∉ structuralNames)
    (hfields : s.fieldChildren x = []) : Quiet [w.element] :=
  emit h hname (hfields ▸ nil)

/-- A row of quiet steps. -/
theorem mapM {α : Type} {step : α → Emit Written} {xs : List α} {ws : List Written}
    {a b : Allocator} (h : xs.mapM step a = .ok (ws, b))
    (hstep : ∀ x c w d, step x c = .ok (w, d) → Quiet [w.element]) :
    Quiet (ws.map (·.element)) := by
  refine map fun w hw => ?_
  obtain ⟨x, _, c, d, hemit⟩ := Emit.mem_of_mapM_eq_ok h hw
  exact hstep x c w d hemit

end Quiet

theorem quiet_packageElement (p : Project) : Quiet [packageElement p] :=
  .leaf (by simp [packageElement, structuralNames]) (by simp [packageElement])

theorem quiet_media {m : Media} {a b : Allocator} {w : Written}
    (h : Media.schema.emit m a = .ok (w, b)) : Quiet [w.element] :=
  .emit_leaf h (by decide)
    (fieldChildren_eq_nil (by simp [Media.schema, Field.required, Field.optional]))

theorem quiet_majorUpgrade {m : MajorUpgrade} {a b : Allocator} {w : Written}
    (h : MajorUpgrade.schema.emit m a = .ok (w, b)) : Quiet [w.element] :=
  .emit_leaf h (by decide) (fieldChildren_eq_nil (by simp [MajorUpgrade.schema, Field.optional]))

theorem quiet_property {q : Property} {a b : Allocator} {w : Written}
    (h : Property.schema.emit q a = .ok (w, b)) : Quiet [w.element] :=
  .emit_leaf h (by decide)
    (fieldChildren_eq_nil (by simp [Property.schema, Field.required, Field.optional]))

open Dialog

theorem quiet_textStyle {t : TextStyle} {a b : Allocator} {w : Written}
    (h : TextStyle.schema.emit t a = .ok (w, b)) : Quiet [w.element] :=
  .emit_leaf h (by decide)
    (fieldChildren_eq_nil (by simp [TextStyle.schema, Field.required, Field.optional, natValue]))

theorem quiet_controlFields (c : Control) : Quiet (Control.schema.fieldChildren c) := by
  refine .of_forall fun e he => ?_
  obtain ⟨f, hf, es, hv, hes⟩ := mem_fieldChildren he
  simp only [Control.schema, Field.required, Field.optional, Field.asChildren, natValue, onlyOn,
    List.mem_cons, List.not_mem_nil, or_false] at hf
  rcases hf with rfl | rfl | rfl | rfl | rfl | rfl | rfl | rfl | rfl | rfl | rfl
  case inr.inr.inr.inr.inr.inr.inr.inr.inr.inr =>
    obtain ⟨t, _, ht⟩ := Option.map_eq_some_iff.1 hv
    obtain rfl := Value.elements.inj ht
    rw [List.mem_singleton.1 hes]
    exact .leaf (by simp [structuralNames]) (by simp)
  all_goals simp at hv

theorem quiet_publish (a : Action) (index : Nat) : Quiet [Control.actionElement a index] := by
  unfold Control.actionElement
  refine .leaf ?_ ?_
  · cases a.event <;> cases a.property.filter (!·.isEmpty) <;> simp [structuralNames]
  · cases a.event <;> cases a.property.filter (!·.isEmpty) <;> simp

theorem quiet_control {c : Control} {a b : Allocator} {e : Element}
    (h : c.emit a = .ok (e, b)) : Quiet [e] := by
  obtain ⟨w, d, hw, h⟩ := Emit.bind_eq_ok.1 h
  obtain ⟨rfl, rfl⟩ := Emit.pure_eq_ok.1 h
  obtain ⟨_, rfl, _⟩ := emit_eq_ok.1 hw
  refine .singleton (by simp [Control.schema, structuralNames]) ?_
  rw [Element.elements_pushAll, Element.elements_pushAll, elements_complete]
  refine ((quiet_controlFields c).append (.map fun x _ => ?_)).append (.map fun x _ => ?_)
  · exact quiet_publish _ _
  · exact .leaf (by simp [Control.conditionElement, structuralNames])
      (by simp [Control.conditionElement])

theorem quiet_dialog {q : Definition} {a b : Allocator} {e : Element}
    (h : q.emit a = .ok (e, b)) : Quiet [e] := by
  obtain ⟨w, c, hw, h⟩ := Emit.bind_eq_ok.1 h
  obtain ⟨controls, d, hcontrols, h⟩ := Emit.bind_eq_ok.1 h
  obtain ⟨rfl, rfl⟩ := Emit.pure_eq_ok.1 h
  obtain ⟨_, rfl, _⟩ := emit_eq_ok.1 hw
  refine .singleton (by simp [Definition.schema, structuralNames]) ?_
  rw [Element.elements_pushAll, elements_complete,
    fieldChildren_eq_nil (by simp [Definition.schema, Field.required, Field.optional, natValue])]
  refine .of_forall fun x hx => ?_
  obtain ⟨control, _, c, d, hemit⟩ := Emit.mem_of_mapM_eq_ok hcontrols hx
  exact quiet_control hemit

theorem quiet_entry (e : Entry) (a : Action) : Quiet [e.actionElement a] := by
  unfold Entry.actionElement
  refine .leaf ?_ ?_
  · cases a.event <;> cases a.property <;> cases a.order <;> cases a.value.isEmpty <;>
      simp [structuralNames]
  · cases a.event <;> cases a.property <;> cases a.order <;> cases a.value.isEmpty <;> simp

theorem quiet_interface {ui : Interface} {a b : Allocator} {e : Element}
    (h : ui.emit a = .ok (e, b)) : Quiet [e] := by
  obtain ⟨styles, c, hstyles, h⟩ := Emit.bind_eq_ok.1 h
  obtain ⟨dialogs, d, hdialogs, h⟩ := Emit.bind_eq_ok.1 h
  obtain ⟨rfl, rfl⟩ := Emit.pure_eq_ok.1 h
  refine .singleton (by simp [structuralNames]) ?_
  rw [Element.elements_pushAll, Element.elements_setAll, Element.named_elements, List.nil_append]
  have hstyles : Quiet (styles.map (·.element)) :=
    .mapM hstyles fun _ _ _ _ hemit => quiet_textStyle hemit
  refine (((hstyles.append (.map fun q _ => ?_)).append (.map fun q _ => ?_)).append
    (.of_forall ?_)).append (.of_forall ?_)
  · exact .leaf (by simp [Interface.propertyElement, structuralNames])
      (by simp [Interface.propertyElement])
  · exact .leaf (by simp [Interface.dialogRefElement, structuralNames])
      (by simp [Interface.dialogRefElement])
  · intro x hx
    obtain ⟨entry, _, hx⟩ := List.mem_flatMap.1 hx
    obtain ⟨action, _, rfl⟩ := List.mem_map.1 hx
    exact quiet_entry entry action
  · intro x hx
    obtain ⟨_, _, _, _, hemit⟩ := Emit.mem_of_mapM_eq_ok hdialogs hx
    exact quiet_dialog hemit

theorem quiet_interfaceElements {p : Project} {installDir : Option String} {a b : Allocator}
    {es : List Element} (h : interfaceElements p installDir a = .ok (es, b)) : Quiet es := by
  unfold interfaceElements at h
  cases hui : p.ui with
  | none =>
    rw [hui] at h
    obtain ⟨rfl, _⟩ := Emit.pure_eq_ok.1 h
    exact .nil
  | some ui =>
    simp only [hui] at h
    split at h
    · obtain ⟨e, c, he, h⟩ := Emit.bind_eq_ok.1 h
      obtain ⟨rfl, _⟩ := Emit.pure_eq_ok.1 h
      exact quiet_interface he
    · obtain ⟨rfl, _⟩ := Emit.pure_eq_ok.1 h
      exact .nil

end Installer.Compile
