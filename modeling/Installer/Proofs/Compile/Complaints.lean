import Installer.Proofs.Compile.Elision
import Installer.Proofs.Compile.Surroundings

/-!
# Complaints

A step fails with a complaint about a required field that has no value. Steps that follow one another
complain of the first thing that any of them complains of, and what an entity lacks does not depend
on the identifiers at hand. So the complaint of a part of the document is the first one about its
items, in the order in which they are written.
-/
namespace Installer
open Identifier Directory Markup Schema

namespace Schema

/-- What a step complains of behind given identifiers, if it fails. -/
def complaint? {α : Type} (x : Emit α) (a : Allocator) : Option MissingValue :=
  match x a with
  | .error e => some e
  | .ok _ => none

section steps

variable {α β : Type} {x : Emit α} {a : Allocator}

theorem complaint?_eq_some {e : MissingValue} : complaint? x a = some e ↔ x a = .error e := by
  unfold complaint?
  cases x a <;> simp

theorem complaint?_eq_none : complaint? x a = none ↔ ∃ r, x a = .ok r := by
  unfold complaint?
  cases x a <;> simp

@[simp] theorem complaint?_pure (y : α) (a : Allocator) :
    complaint? (pure y : Emit α) a = none := rfl

/-- A step behind another is only reached where that does not complain. -/
theorem complaint?_bind {f : α → Emit β} {l : Option MissingValue}
    (hf : ∀ y b, x a = .ok (y, b) → complaint? (f y) b = l) :
    complaint? (x >>= f) a = (complaint? x a).or l := by
  cases hx : x a with
  | error e =>
    rw [complaint?_eq_some.2 hx, complaint?_eq_some.2 (Emit.bind_of_error hx f)]
    rfl
  | ok r =>
    have hrest : complaint? (x >>= f) a = complaint? (f r.1) r.2 := by
      unfold complaint?
      rw [Emit.bind_of_ok hx]
    rw [hrest, hf r.1 r.2 hx, complaint?_eq_none.2 ⟨r, hx⟩, Option.none_or]

/-- A step that only works on the result of another complains of nothing itself. -/
theorem complaint?_bind_pure (f : α → β) :
    complaint? (x >>= fun y => pure (f y)) a = complaint? x a := by
  rw [complaint?_bind fun _ _ _ => complaint?_pure _ _, Option.or_none]

theorem findSome?_cons_or (f : α → Option β) (x : α) (xs : List α) :
    (x :: xs).findSome? f = (f x).or (xs.findSome? f) := by
  rw [← List.singleton_append, List.findSome?_append, List.findSome?_singleton]

/-- A row of steps complains of the first thing that one of them complains of. -/
theorem complaint?_mapM {step : α → Emit β} {lack? : α → Option MissingValue}
    (h : ∀ x a, complaint? (step x) a = lack? x) (xs : List α) (a : Allocator) :
    complaint? (xs.mapM step) a = xs.findSome? lack? := by
  induction xs generalizing a with
  | nil => rfl
  | cons x xs ih =>
    rw [List.mapM_cons, complaint?_bind fun _ b _ => (complaint?_bind_pure _).trans (ih b), h,
      findSome?_cons_or]

theorem complaint?_emit (s : Schema α) (x : α) (a : Allocator) :
    complaint? (s.emit x) a = s.missing? x := by
  unfold complaint? emit write
  cases s.missing? x <;> rfl

end steps

end Schema

/-- The first required field of a payload without a value. -/
def Payload.missing? : Payload → Option MissingValue
  | .file f => File.schema.missing? f
  | .shortcut s => Shortcut.schema.missing? s
  | .setting (.registry r) => RegistryValue.schema.missing? r
  | .setting (.environment v) => EnvironmentVariable.schema.missing? v
  | .setting (.closeApplication c) => CloseApplication.schema.missing? c

theorem Setting.complaint?_emit (s : Setting) (a : Allocator) :
    complaint? s.emit a = (Payload.setting s).missing? := by
  cases s <;> exact Schema.complaint?_emit _ _ _

namespace Compile

theorem complaint?_filePart (p : Project) (f : File) (features : List String) (a : Allocator) :
    complaint? (filePart p f features) a = (Payload.file f).missing? := by
  rw [filePart, complaint?_bind (l := none) fun _ _ _ => rfl, complaint?_emit, Option.or_none]
  rfl

theorem complaint?_shortcutPart (p : Project) (directory : String) (s : Shortcut)
    (features : List String) (a : Allocator) :
    complaint? (shortcutPart p directory s features) a = (Payload.shortcut s).missing? := by
  rw [shortcutPart, complaint?_bind (l := none) fun _ _ _ => ?_, complaint?_emit, Option.or_none]
  · rfl
  · cases s.id <;> rfl

theorem complaint?_processAll (seed : String) (ss : List Setting) (placed : Placement)
    (a : Allocator) : complaint? (placed.processAll seed ss) a =
      (ss.map Payload.setting).findSome? Payload.missing? := by
  induction ss generalizing placed a with
  | nil => rfl
  | cons s ss ih =>
    rw [List.map_cons, findSome?_cons_or, ← Setting.complaint?_emit s a]
    cases hs : s.emit a with
    | error e =>
      have hrun : placed.processAll seed (s :: ss) a = .error e := by
        simp only [Placement.processAll, Placement.process, hs]
      rw [complaint?_eq_some.2 hs, complaint?_eq_some.2 hrun]
      rfl
    | ok r =>
      have hrun : placed.processAll seed (s :: ss) a =
          ((placed.take r.1).place seed s).release.processAll seed ss r.2 := by
        simp only [Placement.processAll, Placement.process, hs]
      rw [complaint?_eq_none.2 ⟨r, hs⟩, Option.none_or, ← ih _ r.2, complaint?, hrun, complaint?]

/-- The content of a directory lacks what the first of its payloads lacks. -/
theorem complaint?_contentPart (p : Project) (n : Node) (directory : String) (a : Allocator) :
    complaint? (contentPart p n directory) a = n.payloads.findSome? Payload.missing? := by
  have hfiles := complaint?_mapM fun f a =>
    complaint?_filePart p f (nearest [f.features, n.features]) a
  have hmatched := complaint?_mapM fun (m : FileSet × File) a =>
    complaint?_filePart p m.2 (nearest [m.2.features, m.1.features, n.features]) a
  have hshortcuts := complaint?_mapM fun s a =>
    complaint?_shortcutPart p directory s (nearest [s.features, n.features]) a
  have hsettings : ∀ a, complaint? (settingsPart p n.settings n.features) a =
      (n.settings.map Payload.setting).findSome? Payload.missing? := fun a =>
    (complaint?_bind_pure _).trans (complaint?_processAll _ _ _ a)
  rw [contentPart, Node.payloads, List.findSome?_append, List.findSome?_append,
    List.findSome?_append, Option.or_assoc, Option.or_assoc]
  refine (complaint?_bind fun _ b _ => ?_).trans (congrArg (Option.or · _) ?_)
  · refine (complaint?_bind fun _ c _ => ?_).trans (congrArg (Option.or · _) ?_)
    · refine (complaint?_bind fun _ d _ => ?_).trans (congrArg (Option.or · _) ?_)
      · exact (complaint?_bind_pure _).trans (hsettings d)
      · rw [hshortcuts, List.findSome?_map]
        rfl
    · have hpairs : n.fileSets.flatMap (·.files.map Payload.file) =
          (n.fileSets.flatMap fun s => s.files.map (s, ·)).map fun m => Payload.file m.2 := by
        simp [List.map_flatMap, Function.comp_def]
      rw [hmatched, hpairs, List.findSome?_map]
      rfl
  · rw [hfiles, List.findSome?_map]
    rfl

/-- A row of directories lacks what the first of all payloads in them lacks, whether empty directories
are left out or not. -/
theorem complaint?_directoryPart (p : Project) (d : DirectoryIds) :
    (∀ o a, complaint? (directoryPart p d o) a =
      (o.walk.flatMap fun i => (nodeAt p i).payloads).findSome? Payload.missing?) ∧
    ∀ os a, complaint? (directoryPart.directoryParts p d os) a =
      ((os.flatMap Outline.walk).flatMap fun i => (nodeAt p i).payloads).findSome?
        Payload.missing? := by
  refine Outline.induction ?node ?nil ?cons
  case node =>
    intro i children ih a
    rw [directoryPart]
    by_cases helided : (p.options.emptyDirectories = .elide &&
        !(Outline.mk i children).any p.directories.holdsPayload) = true
    · simp only [helided, if_true, complaint?_pure]
      obtain ⟨-, hany⟩ := Bool.and_eq_true_iff.1 helided
      have hnone : ∀ j ∈ (Outline.mk i children).walk, p.directories.holdsPayload j = false := by
        simpa [Outline.any, List.any_eq_false] using hany
      rw [List.flatMap_eq_nil_iff.2 fun j hj => payloads_nodeAt_eq_nil (hnone j hj)]
      rfl
    · simp only [helided, Bool.false_eq_true, if_false]
      rw [complaint?_bind fun _ b _ => (complaint?_bind_pure _).trans (ih b), complaint?_contentPart,
        Outline.walk_eq, List.flatMap_cons, List.findSome?_append]
      rfl
  case nil => exact fun _ => rfl
  case cons =>
    intro o os ho hos a
    rw [directoryPart.directoryParts,
      complaint?_bind fun _ b _ => (complaint?_bind_pure _).trans (hos b), ho, List.flatMap_cons,
      List.flatMap_append, List.findSome?_append]

/-- Features lack what the first of them lacks, each before those below it. -/
theorem complaint?_featurePart :
    (∀ f us a, complaint? (featurePart us f) a = f.walk.findSome? Feature.schema.missing?) ∧
      ∀ fs us a, complaint? (featurePart.featureParts us fs) a =
        (fs.flatMap Feature.walk).findSome? Feature.schema.missing? := by
  refine Feature.induction ?feature ?nil ?cons
  case feature =>
    intro id name description level allowChange typicalDefault configurableDirectory condition
      children attributes ih us a
    rw [featurePart, complaint?_bind fun _ b _ => (complaint?_bind_pure _).trans (ih _ b),
      complaint?_emit, Feature.walk_eq, findSome?_cons_or]
  case nil => exact fun _ _ => rfl
  case cons =>
    intro f fs hf hfs us a
    rw [featurePart.featureParts,
      complaint?_bind fun first b _ => (complaint?_bind_pure _).trans (hfs first.untaken b), hf,
      List.flatMap_cons, List.findSome?_append]

/-- The features of a document lack what the first of them lacks. -/
theorem complaint?_allFeatureParts (p : Project) (refs : List ComponentRef) (a : Allocator) :
    complaint? (allFeatureParts p refs) a =
      ((documentFeatures p (mentions p.options.defaultFeature refs)).flatMap
        Feature.walk).findSome? Feature.schema.missing? := by
  rw [documentFeatures, allFeatureParts, featureUses_eq_collect, leadingFeatures_collect,
    List.flatMap_append, List.findSome?_append]
  refine (complaint?_bind fun declared b hdeclared => ?_).trans
    (congrArg (Option.or · _) (complaint?_featurePart.2 _ _ _))
  rw [complaint?_bind_pure, complaint?_featurePart.2, (untaken_declared hdeclared).2]

section interface

open Dialog

theorem complaint?_control (c : Control) (a : Allocator) :
    complaint? c.emit a = Control.schema.missing? c :=
  (complaint?_bind_pure _).trans (complaint?_emit _ _ _)

/-- A dialog lacks what it lacks itself, or what the first of its controls lacks. -/
theorem complaint?_definition (d : Definition) (a : Allocator) : complaint? d.emit a =
    (Definition.schema.missing? d).or (d.controls.findSome? Control.schema.missing?) := by
  rw [Definition.emit, complaint?_bind fun _ b _ => (complaint?_bind_pure _).trans
    (complaint?_mapM complaint?_control _ b), complaint?_emit]

theorem complaint?_interface (ui : Interface) (a : Allocator) : complaint? ui.emit a =
    (ui.textStyles.findSome? TextStyle.schema.missing?).or
      (ui.sequence.definitions.findSome? fun d =>
        (Definition.schema.missing? d).or (d.controls.findSome? Control.schema.missing?)) := by
  rw [Interface.emit, complaint?_bind fun _ b _ => (complaint?_bind_pure _).trans
    (complaint?_mapM complaint?_definition _ b), complaint?_mapM (complaint?_emit _)]
  rfl

end interface

theorem complaint?_media (m : Media) (a : Allocator) :
    complaint? (Media.schema.emit m) a = none := by
  rw [complaint?_emit]
  simp [Schema.missing?, Media.schema, Field.isMissing, Field.value?, Field.required,
    Field.optional, Value.isAbsent]

theorem complaint?_majorUpgrade (m : MajorUpgrade) (a : Allocator) :
    complaint? (MajorUpgrade.schema.emit m) a = none := by
  rw [complaint?_emit]
  simp [Schema.missing?, MajorUpgrade.schema, Field.isMissing, Field.optional]

/-- Before the directories only a setting of the product can lack anything. -/
theorem complaint?_opening (p : Project) (a : Allocator) : complaint? (opening p) a =
    (p.settings.map Payload.setting).findSome? Payload.missing? := by
  have hupgrade : ∀ b, complaint? (p.majorUpgrade.toList.mapM MajorUpgrade.schema.emit) b = none :=
    fun b => (complaint?_mapM complaint?_majorUpgrade _ b).trans (by simp)
  refine (complaint?_bind fun _ b _ => ?_).trans
    ((congrArg (Option.or · none) (complaint?_processAll _ _ _ a)).trans (Option.or_none))
  refine (complaint?_bind fun _ c _ => ?_).trans
    (congrArg (Option.or · none) (complaint?_media p.media b))
  exact (complaint?_bind_pure _).trans (hupgrade c)

end Compile

end Installer
