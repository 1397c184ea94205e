import Installer.Proofs.ChosenIds
import Installer.Proofs.Compile.Complaints
import Installer.Proofs.EmptyDirectories
import Installer.Proofs.Identifier.Legal

/-!
# Missing values

A project cannot be compiled if something that goes into its document lacks a required value, and
for no other reason. The complaint is about the first such thing in the order of the document, where
the payloads of all directories count, those of directories that are left out among them.
-/
namespace Installer

namespace Formatted
open Text

theorem referencesFrom_ne_nil {cs : List Char} (h : cs ≠ []) : referencesFrom 0 cs ≠ [] := by
  cases cs with
  | nil => exact absurd rfl h
  | cons c cs =>
    rw [referencesFrom]
    split
    · split <;> simp [reference, Identifier.bracketed]
    · simp

/-- A formatted text is empty only if nothing was there to be formatted. -/
theorem normalize_eq_empty_iff {s : String} : normalize s = "" ↔ s = "" := by
  constructor
  · intro h
    by_contra hne
    have hcs : s.toList ≠ [] := by simpa using hne
    have hnormal : normalizeChars s.toList ≠ [] :=
      replaceAll_ne_nil (by simp) (replaceAll_ne_nil (by simp) (referencesFrom_ne_nil hcs))
    refine hnormal ?_
    rw [normalize] at h
    simpa using congrArg String.toList h
  · rintro rfl
    decide

end Formatted

open Identifier Directory Markup Schema

namespace Compile

/-- What goes into a document and may lack a required value. -/
inductive Emitted where
  | payload (q : Payload)
  | feature (f : Feature)
  | property (q : Property)
  | textStyle (s : Dialog.TextStyle)
  | dialog (d : Dialog.Definition)
  | control (c : Dialog.Control)

namespace Emitted

/-- The required value that is missing, the first of them where there are several. -/
def lack? : Emitted → Option MissingValue
  | .payload (.file f) => if f.source = "" then some ⟨"Source", "File"⟩ else none
  | .payload (.shortcut s) =>
      if s.name = "" then some ⟨"Name", "Shortcut"⟩
      else if s.target = "" then some ⟨"Target", "Shortcut"⟩
      else none
  | .payload (.setting (.registry r)) =>
      if r.key = "" then some ⟨"Key", "RegistryValue"⟩ else none
  | .payload (.setting (.environment v)) =>
      if v.name = "" then some ⟨"Name", "Environment"⟩ else none
  | .payload (.setting (.closeApplication c)) =>
      if c.target = "" then some ⟨"Target", "util:CloseApplication"⟩ else none
  | .feature f => if f.name = "" then some ⟨"Title", "Feature"⟩ else none
  | .property q => if q.name = "" then some ⟨"Id", "Property"⟩ else none
  | .textStyle s =>
      if s.id = "" then some ⟨"Id", "TextStyle"⟩
      else if s.faceName = "" then some ⟨"FaceName", "TextStyle"⟩
      else none
  | .dialog d => if d.id = "" then some ⟨"Id", "Dialog"⟩ else none
  | .control c =>
      if c.id = "" then some ⟨"Id", "Control"⟩
      else if c.type = "" then some ⟨"Type", "Control"⟩
      else none

/-- The first required field without a value, as the schema of the thing has it. -/
def missing? : Emitted → Option MissingValue
  | .payload q => q.missing?
  | .feature f => Feature.schema.missing? f
  | .property q => Property.schema.missing? q
  | .textStyle s => Dialog.TextStyle.schema.missing? s
  | .dialog d => Dialog.Definition.schema.missing? d
  | .control c => Dialog.Control.schema.missing? c

end Emitted

end Compile

namespace Schema

@[simp] theorem Value.isAbsent_text (s : String) : (Value.text s).isAbsent = decide (s = "") := by
  rw [Bool.eq_iff_iff]
  simp [isAbsent]

@[simp] theorem Value.isAbsent_flag (b : Bool) : (Value.flag b).isAbsent = false := rfl

@[simp] theorem Value.isAbsent_number (n : Int) : (Value.number n).isAbsent = false := rfl

@[simp] theorem Value.isAbsent_word (s : String) : (Value.word s).isAbsent = false := rfl

namespace Field

variable {α : Type} (name : String) (value : α → Option Value) (f : Field α) (x : α)

@[simp] theorem required_name : (Field.required name value).name = name := rfl

@[simp] theorem isMissing_required : (Field.required name value).isMissing x =
    ((value x).filter (!·.isAbsent)).isNone := by
  simp [isMissing, value?, required]

@[simp] theorem isMissing_optional : (Field.optional name value).isMissing x = false := rfl

@[simp] theorem isMissing_asChildren : f.asChildren.isMissing x = f.isMissing x := rfl

end Field

end Schema

namespace Compile

namespace Emitted

theorem missing?_payload (q : Payload) : (payload q).missing? = (payload q).lack? := by
  cases q with
  | file f =>
    by_cases h : f.source = "" <;>
      simp [missing?, lack?, Payload.missing?, Schema.missing?, File.schema, h]
  | shortcut s =>
    by_cases hname : s.name = "" <;> by_cases htarget : s.target = "" <;>
      simp [missing?, lack?, Payload.missing?, Schema.missing?, Shortcut.schema, hname, htarget,
        Formatted.normalize_eq_empty_iff]
  | setting s =>
    cases s with
    | registry r =>
      by_cases h : r.key = "" <;>
        simp [missing?, lack?, Payload.missing?, Schema.missing?, RegistryValue.schema, h]
    | environment v =>
      by_cases h : v.name = "" <;>
        simp [missing?, lack?, Payload.missing?, Schema.missing?, EnvironmentVariable.schema, h]
    | closeApplication c =>
      by_cases h : c.target = "" <;>
        simp [missing?, lack?, Payload.missing?, Schema.missing?, CloseApplication.schema, h]

/-- What the schemas require is that some texts are not empty. -/
theorem missing?_eq_lack? (x : Emitted) : x.missing? = x.lack? := by
  cases x with
  | payload q => exact missing?_payload q
  | feature f =>
    by_cases h : f.name = "" <;> simp [missing?, lack?, Schema.missing?, Feature.schema, h]
  | property q =>
    by_cases h : q.name = "" <;> simp [missing?, lack?, Schema.missing?, Property.schema, h]
  | textStyle s =>
    by_cases hid : s.id = "" <;> by_cases hface : s.faceName = "" <;>
      simp [missing?, lack?, Schema.missing?, Dialog.TextStyle.schema, Dialog.natValue, hid, hface]
  | dialog d =>
    by_cases h : d.id = "" <;>
      simp [missing?, lack?, Schema.missing?, Dialog.Definition.schema, h]
  | control c =>
    by_cases hid : c.id = "" <;> by_cases htype : c.type = "" <;>
      simp [missing?, lack?, Schema.missing?, Dialog.Control.schema, hid, htype]

end Emitted

/-- The text styles and the dialogs of the user interface, if it is written, with each dialog before
its controls. -/
def emittedInterface (p : Project) : List Emitted :=
  (p.ui.filter fun _ => p.options.emitUi).toList.flatMap fun ui =>
    ui.textStyles.map .textStyle ++
      ui.sequence.definitions.flatMap fun d => .dialog d :: d.controls.map .control

/-- What goes into the document of a project, in the order of the document. The payloads of all
directories are among it, in the order of a walk over the whole tree. -/
def emitted (p : Project) : List Emitted :=
  (((p.directories.outlines.flatMap Outline.walk).flatMap fun i => (nodeAt p i).payloads) ++
      p.settings.map Payload.setting).map .payload ++
    ((writtenFeatures p).flatMap Feature.walk).map .feature ++
    p.properties.map .property ++ emittedInterface p

theorem findSome?_flatMap {α β γ : Type} (f : β → Option γ) (g : α → List β) (xs : List α) :
    (xs.flatMap g).findSome? f = xs.findSome? fun x => (g x).findSome? f := by
  induction xs with
  | nil => rfl
  | cons x xs ih => rw [List.flatMap_cons, List.findSome?_append, ih, findSome?_cons_or]

theorem complaint?_interface_eq (ui : Dialog.Interface) (a : Allocator) :
    complaint? ui.emit a = (ui.textStyles.map Emitted.textStyle ++
      ui.sequence.definitions.flatMap fun d =>
        Emitted.dialog d :: d.controls.map Emitted.control).findSome? Emitted.missing? := by
  have hdialog : ∀ d : Dialog.Definition,
      (Emitted.dialog d :: d.controls.map Emitted.control).findSome? Emitted.missing? =
        (Dialog.Definition.schema.missing? d).or
          (d.controls.findSome? Dialog.Control.schema.missing?) := fun d => by
    rw [findSome?_cons_or, List.findSome?_map]
    rfl
  rw [complaint?_interface, List.findSome?_append, List.findSome?_map, findSome?_flatMap,
    funext hdialog]
  rfl

/-- What an interface lacks, if it is written, does not depend on the installation directory. -/
theorem complaint?_interfaceElements (p : Project) (installDir : Option String) (a : Allocator) :
    complaint? (interfaceElements p installDir) a =
      (emittedInterface p).findSome? Emitted.missing? := by
  unfold interfaceElements emittedInterface
  cases p.ui with
  | none => rfl
  | some ui =>
    cases p.options.emitUi with
    | false => rfl
    | true =>
      simp only [if_true, Option.filter_some, Option.toList_some, List.flatMap_singleton]
      rw [complaint?_bind_pure, ← complaint?_interface_eq ui a]
      cases installDir with
      | none => rfl
      | some id =>
        rw [complaint?_interface, complaint?_interface]
        simp only [Dialog.Interface.bindInstallDir]
        split <;> rfl

theorem complaint?_closing (p : Project) (d : DirectoryIds) (a : Allocator) :
    complaint? (closing p d) a =
      (p.properties.map Emitted.property ++ emittedInterface p).findSome? Emitted.missing? := by
  rw [closing, complaint?_bind fun _ b _ => (complaint?_bind_pure _).trans
    (complaint?_interfaceElements p _ b), complaint?_mapM (complaint?_emit _),
    List.findSome?_append, List.findSome?_map]
  rfl

/-- Where the directories and the settings of the product are written, the components behind them are
those of the project. -/
theorem refs_of_opening {p : Project} {part : Part} {placed : Placement} {before : List Element}
    {a b : Allocator}
    (hpart : directoryPart.directoryParts p (assignDirectories p) p.directories.outlines
      (assignDirectories p).ids = .ok (part, a))
    (hopening : opening p a = .ok ((placed, before), b)) :
    (part.tally.append (placedPart placed []).1).refs = (allBoxes p).map (·.ref) := by
  obtain ⟨settings, _, hplaced, hopening⟩ := Emit.bind_eq_ok.1 hopening
  obtain ⟨media, _, -, hopening⟩ := Emit.bind_eq_ok.1 hopening
  obtain ⟨upgrade, _, -, hopening⟩ := Emit.bind_eq_ok.1 hopening
  obtain ⟨heq, -⟩ := Emit.pure_eq_ok.1 hopening
  obtain ⟨rfl, -⟩ := Prod.mk.inj heq
  change part.refs ++ (placedPart settings []).1.refs = _
  exact refs_of_directories hpart hplaced

/-- A document lacks what the first thing that goes into it lacks. -/
theorem complaint?_document (p : Project) :
    complaint? (document p (assignDirectories p)) (assignDirectories p).ids =
      (emitted p).findSome? Emitted.missing? := by
  have hpayloads : (Emitted.missing? ∘ Emitted.payload) = Payload.missing? := rfl
  have hfeatures : (Emitted.missing? ∘ Emitted.feature) = Feature.schema.missing? := rfl
  rw [document_eq, emitted, List.append_assoc, List.append_assoc, List.findSome?_append,
    List.findSome?_append, List.findSome?_map, List.findSome?_map, List.findSome?_append, hpayloads,
    hfeatures, Option.or_assoc]
  refine (complaint?_bind fun part a hpart => (complaint?_bind_pure _).trans ?_).trans
    (congrArg (Option.or · _) ((complaint?_directoryPart p _).2 _ _))
  refine (complaint?_bind fun opened b hopening => ?_).trans
    (congrArg (Option.or · _) (complaint?_opening p a))
  rw [writtenFeatures, ← refs_of_opening hpart hopening]
  refine (complaint?_bind fun _ c _ => ?_).trans
    (congrArg (Option.or · _) (complaint?_allFeatureParts p _ b))
  exact (complaint?_bind_pure _).trans (complaint?_closing p _ c)

theorem compile_eq_error {p : Project} {e : MissingValue} :
    p.compile = .error e ↔ (emitted p).findSome? Emitted.lack? = some e := by
  have hlack : Emitted.lack? = Emitted.missing? := funext fun x => x.missing?_eq_lack?.symm
  rw [hlack, ← complaint?_document, complaint?_eq_some]
  change (document p (assignDirectories p) (assignDirectories p).ids).map (·.1) = .error e ↔ _
  cases document p (assignDirectories p) (assignDirectories p).ids <;> simp [Except.map]

/-- A project fails if empty directories are left out just where it fails if they are kept. -/
theorem elide_eq_error_iff (p : Project) (e : MissingValue) :
    (p.withPolicy .elide).compile = .error e ↔ (p.withPolicy .keep).compile = .error e := by
  cases hlaid : laidOut p with
  | error e =>
    rw [compile_withPolicy, compile_withPolicy, hlaid]
    rfl
  | ok laid =>
    obtain ⟨e, hkeep, helide⟩ | ⟨whole, less, hkeep, helide, -⟩ := elide_of_laidOut hlaid <;>
      simp [hkeep, helide]

/-- A project fails to compile if and only if something that goes into its document lacks a required
value. The complaint is about the first such thing, and leaving out empty directories hides none. -/
theorem compile_fails_iff_missing (p : Project) :
    (∀ e, p.compile = .error e ↔ (emitted p).findSome? Emitted.lack? = some e) ∧
      ((∃ c, p.compile = .ok c) ↔ ∀ x ∈ emitted p, x.lack? = none) ∧
      ∀ e, (p.withPolicy .elide).compile = .error e ↔ (p.withPolicy .keep).compile = .error e := by
  refine ⟨fun _ => compile_eq_error, ?_, elide_eq_error_iff p⟩
  rw [← List.findSome?_eq_none_iff, Option.eq_none_iff_forall_ne_some]
  simp only [ne_eq, ← compile_eq_error]
  cases p.compile <;> simp

end Compile

end Installer
