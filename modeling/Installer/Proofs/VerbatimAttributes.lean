import Installer.Proofs.PayloadConservation

/-!
# Verbatim attributes in the document

The verbatim attributes of a payload are set over everything that its schema writes. What is written
to the element or its component behind that may win over them again: the path of a source below the
base of all sources, the identifier of a shortcut behind that of its directory, and the width of the
component of a registry value. Nothing else does.
-/
namespace Installer

namespace Schema

theorem Attributes.get?_of_mem {as : Attributes} {a : String × String} (ha : a ∈ as.entries) :
    as.get? a.1 = some a.2 := by
  have hnodup : (as.entries.map (·.1)).Nodup :=
    List.pairwise_map.2 (as.sorted.imp fun h => String.ne_of_lt h)
  unfold get?
  cases hfind : as.entries.find? (·.1 == a.1) with
  | none => simpa using List.find?_eq_none.1 hfind a ha
  | some b =>
    have hname : b.1 = a.1 := by simpa using List.find?_some hfind
    rw [List.inj_on_of_nodup_map hnodup (List.mem_of_find?_eq_some hfind) ha hname]
    rfl

/-- The element of an entity has the entity's own verbatim attributes. -/
theorem get?_complete_of_mem {α : Type} (s : Schema α) (x : α) (id : Option String)
    {a : String × String} (ha : a ∈ (s.attributes x).entries)
    (hown : Attributes.componentName? a.1 = none) :
    (s.complete x id).element.get? a.1 = some a.2 := by
  have hget := Attributes.get?_of_mem ha
  cases id <;> simp only [complete, get?_setAll_own _ _ hown, hget, Option.some_or]

end Schema

open Identifier Directory Markup Schema

theorem Payload.get?_complete_of_mem {q : Payload} (id : Option String) {a : String × String}
    (ha : a ∈ q.attributes.entries) (hown : Attributes.componentName? a.1 = none) :
    (q.complete id).element.get? a.1 = some a.2 := by
  cases q with
  | file f => exact Schema.get?_complete_of_mem _ _ _ ha hown
  | shortcut s => exact Schema.get?_complete_of_mem _ _ _ ha hown
  | setting s => cases s <;> exact Schema.get?_complete_of_mem _ _ _ ha hown

namespace Compile

/-- A verbatim attribute stands where it was meant to stand: on the element of its payload, or on the
component around it. -/
def Carried (a : String × String) (o : Occurrence) : Prop :=
  match Attributes.componentName? a.1 with
  | none => o.element.get? a.1 = some a.2
  | some name => ∃ e, o.component? = some e ∧ e.get? name = some a.2

/-- A later step writes another value over a verbatim attribute of a payload. -/
inductive Overwritten (p : Project) : Payload → String × String → Prop where
  | source {f : File} {base value : String} (hbase : p.sourceBaseDir = some base)
      (hrelative : isRooted f.source = false) (hother : value ≠ sourceBelow base f.source) :
      Overwritten p (.file f) ("Source", value)
  | identifier {s : Shortcut} {value : String} (hgenerated : s.id = none) :
      Overwritten p (.shortcut s) ("Id", value)
  | width {r : RegistryValue} {wide : Bool} {value : String} (hwide : r.win64 = some wide)
      (hother : value ≠ (Value.flag wide).written) :
      Overwritten p (.setting (.registry r)) ("Component:Win64", value)

theorem componentName?_names : Attributes.componentName? "Source" = none ∧
    Attributes.componentName? "Id" = none ∧
    Attributes.componentName? "Component:Win64" = some "Win64" := by
  decide

section piece

variable {p : Project} (directory : String) {features : List String} {id : Option String}
  {a : String × String}

theorem get?_file_iff {f : File} (ha : a ∈ f.attributes.entries)
    (hown : Attributes.componentName? a.1 = none) :
    (Piece.element p directory ⟨.file f, features, id⟩).get? a.1 = some a.2 ↔
      ¬ Overwritten p (.file f) a := by
  have hget := Payload.get?_complete_of_mem (q := .file f) id ha hown
  have hover : Overwritten p (.file f) a ↔ ∃ base, p.sourceBaseDir = some base ∧
      isRooted f.source = false ∧ "Source" = a.1 ∧ sourceBelow base f.source ≠ a.2 := by
    constructor
    · rintro ⟨hbase, hrelative, hother⟩
      exact ⟨_, hbase, hrelative, rfl, hother.symm⟩
    · obtain ⟨key, value⟩ := a
      rintro ⟨base, hbase, hrelative, rfl, hother⟩
      exact .source hbase hrelative hother.symm
  rw [hover]
  simp only [Piece.element]
  cases hbase : p.sourceBaseDir with
  | none => simpa using hget
  | some base =>
    cases hrooted : isRooted f.source with
    | true => simpa using hget
    | false =>
      by_cases hkey : "Source" = a.1
      · simp [Element.get?_set, hkey]
      · simpa [Element.get?_set, hkey] using hget

theorem get?_shortcut_iff {s : Shortcut} (ha : a ∈ s.attributes.entries)
    (hown : Attributes.componentName? a.1 = none) :
    (Piece.element p directory ⟨.shortcut s, features, id⟩).get? a.1 = some a.2 ↔
      ¬ Overwritten p (.shortcut s) a := by
  have hget := Payload.get?_complete_of_mem (q := .shortcut s) id ha hown
  have hover : Overwritten p (.shortcut s) a ↔ s.id = none ∧ "Id" = a.1 := by
    constructor
    · rintro ⟨⟩
      exact ⟨‹_›, rfl⟩
    · obtain ⟨key, value⟩ := a
      rintro ⟨hgenerated, rfl⟩
      exact .identifier hgenerated
  -- A working directory is only set where there is none.
  have hplaced : ∀ {e : Element} (directory : String), (e.get? a.1).isSome →
      (if (e.get? "WorkingDirectory").isSome then e
        else e.set "WorkingDirectory" directory).get? a.1 = e.get? a.1 := by
    intro e directory hsome
    split
    · rfl
    · next hnone =>
      rw [Element.get?_set, if_neg]
      rintro hkey
      exact hnone (hkey ▸ hsome)
  rw [hover]
  simp only [Piece.element]
  cases s.id with
  | some given => simp [hplaced, hget]
  | none =>
    by_cases hkey : "Id" = a.1
    · rw [hplaced _ (by simp [Element.get?_setFirst, hkey]), Element.get?_setFirst, if_pos hkey, hkey,
        hget]
      simp only [Option.getD_some, Option.some.injEq, and_self, not_true_eq_false, iff_false]
      intro hsame
      have hlength := congrArg String.length hsame
      simp only [String.length_append] at hlength
      have hdot : ".".length = 1 := rfl
      omega
    · rw [hplaced _ (by simp [Element.get?_setFirst, hkey, hget]), Element.get?_setFirst,
        if_neg hkey]
      simpa [hkey] using hget

theorem get?_element_iff {q : Payload} (ha : a ∈ q.attributes.entries)
    (hown : Attributes.componentName? a.1 = none) :
    (Piece.element p directory ⟨q, features, id⟩).get? a.1 = some a.2 ↔ ¬ Overwritten p q a := by
  cases q with
  | file f => exact get?_file_iff directory ha hown
  | shortcut s => exact get?_shortcut_iff directory ha hown
  | setting s =>
    have hget : (Piece.element p directory ⟨.setting s, features, id⟩).get? a.1 = some a.2 :=
      Payload.get?_complete_of_mem (q := .setting s) id ha hown
    refine iff_of_true hget ?_
    rintro ⟨⟩
    simp [componentName?_names] at hown

omit directory in
/-- What is written over the wish of a payload for its component is the width of that. -/
theorem overwritten_iff_width {q : Payload} {name : String}
    (hname : Attributes.componentName? a.1 = some name) : Overwritten p q a ↔
      ∃ value, q.widthAttributes = [("Win64", value)] ∧ "Win64" = name ∧ value ≠ a.2 := by
  constructor
  · rintro (_ | _ | ⟨hwide, hother⟩)
    · simp [componentName?_names] at hname
    · simp [componentName?_names] at hname
    · next r wide value =>
      refine ⟨(Value.flag wide).written, ?_, ?_, hother.symm⟩
      · rw [Payload.widthAttributes, hwide]
        cases wide <;> rfl
      · simpa [componentName?_names] using hname
  · rintro ⟨value, hwidth, rfl, hother⟩
    obtain ⟨key, v⟩ := a
    obtain rfl : key = "Component:Win64" := componentName?_eq_some.1 hname
    unfold Payload.widthAttributes at hwidth
    split at hwidth
    · next r =>
      cases hwide : r.win64 with
      | none => simp [hwide] at hwidth
      | some wide =>
        refine .width hwide ?_
        cases wide <;> simp [hwide] at hwidth <;> rw [Value.written, hwidth] <;> exact hother.symm
    · cases hwidth

theorem get?_box_iff {q : Payload} (ha : a ∈ q.attributes.entries) {name : String}
    (hname : Attributes.componentName? a.1 = some name) :
    ((Piece.box p directory ⟨q, features, id⟩).element p.seed).get? name = some a.2 ↔
      ¬ Overwritten p q a := by
  have hcomponent : ∀ e : Element, (e.setAll q.attributes.component).get? name = some a.2 := by
    intro e
    rw [Element.get?_setAll (pairwise_component _), find?_component,
      ← componentName?_eq_some.1 hname, Attributes.get?_of_mem ha, Option.some_or]
  have hwidth : q.widthAttributes = [] ∨ ∃ value, q.widthAttributes = [("Win64", value)] := by
    unfold Payload.widthAttributes
    split
    · split <;> simp
    · exact Or.inl rfl
  rw [overwritten_iff_width hname, Box.element, Element.get?_pushAll, Piece.box, Payload.requests,
    Element.setAll_append]
  obtain hnone | ⟨value, hvalue⟩ := hwidth
  · simp [hnone, hcomponent]
  · rw [hvalue, Element.setAll_cons, Element.setAll_nil, Element.get?_set, hcomponent]
    by_cases hkey : "Win64" = name
    · simp [hkey]
    · simp [hkey]

/-- A piece carries the verbatim attributes of its payload over which nothing is written. -/
theorem carried_piece_iff {q : Payload} (hq : q.isLoose = false) (ha : a ∈ q.attributes.entries)
    (holder : Holder) : Carried a (Piece.occurrence p directory holder ⟨q, features, id⟩) ↔
      ¬ Overwritten p q a := by
  unfold Carried
  cases hname : Attributes.componentName? a.1 with
  | none => exact get?_element_iff directory ha hname
  | some name =>
    simpa [Piece.occurrence, Piece.box?, hq] using get?_box_iff directory ha hname

end piece

/-- The payloads of a compiled project occur in its document, each with all its verbatim attributes
but for those over which something is written: the source of a file that is taken from below the base
of all sources, the identifier of a shortcut that was generated, and the width of a component that
the registry value in it asks for. -/
theorem carried_iff_not_overwritten {p : Project} {c : Compiled} (hc : p.compile = .ok c) :
    ∃ shown, shown.Perm (occurrences c.document) ∧
      List.Forall₂ (fun key o => StandsAt p key o ∧ (key.2.isLoose = false →
        ∀ a ∈ key.2.attributes.entries, Carried a o ↔ ¬ Overwritten p key.2 a)) p.held shown := by
  obtain ⟨x, hx⟩ := shows_of_compile hc
  obtain ⟨keys, hkeys, hpieces⟩ := standsAt_pieceOccurrences p
  obtain ⟨shown, hheld, hshown⟩ := List.perm_comp_forall₂ hkeys hpieces
  refine ⟨shown, hshown.trans (occurrences_perm hx).symm, hheld.imp ?_⟩
  rintro key o ⟨hstands, directory, features, id, heq⟩
  refine ⟨hstands, fun hq a ha => ?_⟩
  rw [heq]
  exact carried_piece_iff directory hq ha o.holder

/-- A file with verbatim attributes for itself and for its component. -/
def attributedFile : File where
  source := "a.txt"
  attributes := .ofList [("Component:Win64", "yes"), ("Source", "b.txt")]

/-- The project with this file. -/
def attributedProject : Project where
  name := "Acme"
  directories := (Tree.empty.declare none { path := "App", items := [.file attributedFile] }).2

/-- The project with all sources below a directory. -/
def rebasedProject : Project :=
  { attributedProject with sourceBaseDir := some "src" }

/-- A verbatim attribute that gives way to the path below the base of all sources. -/
theorem source_overwritten :
    ({ name := "Acme", sourceBaseDir := some "src" } : Project).add
      (.directory { path := "App", items := [.file attributedFile] }) = .ok rebasedProject ∧
    ("Source", "b.txt") ∈ attributedFile.attributes.entries ∧
    ∃ c, rebasedProject.compile = .ok c ∧
      ¬ ∃ e ∈ c.document.descendantsNamed "File", e.get? "Source" = some "b.txt" := by
  have hrun : (rebasedProject.compile.toOption.map fun c =>
      (c.document.descendantsNamed "File").map (·.get? "Source")) =
        some [some "src\\a.txt"] := by
    decide +kernel
  obtain ⟨c, hc, hsources⟩ := exists_ok_of_toOption_map hrun
  refine ⟨rfl, by decide, c, hc, ?_⟩
  rintro ⟨e, he, hsource⟩
  have hmem : some "b.txt" ∈ (c.document.descendantsNamed "File").map (·.get? "Source") :=
    List.mem_map.2 ⟨e, he, hsource⟩
  rw [hsources] at hmem
  exact absurd hmem (by decide)

theorem carried_iff_not_overwritten_file : ∃ c, attributedProject.compile = .ok c ∧
    ∃ o ∈ occurrences c.document, o.holder = .directory 1 ∧
      Carried ("Source", "b.txt") o ∧ Carried ("Component:Win64", "yes") o := by
  have hrun : (attributedProject.compile.toOption.map (·.installDir)) = some (some "INSTALLDIR") := by
    decide +kernel
  obtain ⟨c, hc, -⟩ := exists_ok_of_toOption_map hrun
  obtain ⟨shown, hshown, hall⟩ := carried_iff_not_overwritten hc
  have hheld : attributedProject.held = [(some 0, .file attributedFile)] := rfl
  rw [hheld] at hall
  obtain ⟨o, rest, ⟨hstands, hcarried⟩, -, rfl⟩ := List.forall₂_cons_left_iff.1 hall
  refine ⟨c, hc, o, hshown.mem_iff.1 List.mem_cons_self, ?_, ?_, ?_⟩
  · obtain ⟨k, hk, hholder⟩ := hstands.directory 0 rfl
    have hkept : (keptOutlines attributedProject).map (·.index) = [0] := by decide +kernel
    rw [hkept, List.getElem?_singleton] at hk
    obtain rfl : k = 0 := by_contra fun hne => by simp [hne] at hk
    exact hholder
  · refine (hcarried rfl _ (by decide)).2 ?_
    rintro ⟨hbase⟩
    cases hbase
  · refine (hcarried rfl _ (by decide)).2 fun h => ?_
    generalize hname : ("Component:Win64", "yes") = a at h
    rcases h with ⟨hbase⟩
    simp at hname

end Compile

end Installer
