import Installer.Proofs.Compile.FeatureForest
import Installer.Proofs.Compile.Surroundings

/-!
# Reported identifiers

The report on a document grows with it: whatever writes an element that has an entry in the report
makes both in one step, and parts are put together on both sides in one order. So for each kind the
entries are the identifiers of the elements of that name in document order. Components and
directories are the exceptions, as verbatim attributes may rename them afterwards.
-/
namespace Installer.Compile
open Identifier Directory Markup Schema

/-- The entries of a kind are the identifiers of the elements of that name, in order. -/
def Reported (kind : IdKind) (es : List Element) (gs : List Assigned) : Prop :=
  (Element.allNamed kind.word es).map (·.get? "Id") =
    (gs.filter (·.kind = kind)).map fun g => some g.id

/-- The kinds whose entries follow the elements whatever the author says. -/
def IdKind.isFixed : IdKind → Bool
  | .component => false
  | .directory => false
  | _ => true

theorem IdKind.ne_of_isFixed {kind : IdKind} (h : kind.isFixed) :
    kind ≠ .component ∧ kind ≠ .directory := by
  cases kind <;> first | decide | cases h

theorem IdKind.word_injective : Function.Injective IdKind.word := by
  intro k l h
  cases k <;> cases l <;> first | rfl | exact absurd h (by decide)

theorem IdKind.word_mem_structuralNames (kind : IdKind) : kind.word ∈ structuralNames := by
  cases kind <;> decide

namespace Reported

variable {kind : IdKind} {es fs : List Element} {gs hs : List Assigned} {e : Element}

theorem of_none (hes : Element.allNamed kind.word es = []) (hgs : ∀ g ∈ gs, g.kind ≠ kind) :
    Reported kind es gs := by
  rw [Reported, hes, filter_kind_of_ne hgs]
  rfl

theorem append (h : Reported kind es gs) (h' : Reported kind fs hs) :
    Reported kind (es ++ fs) (gs ++ hs) := by
  rw [Reported, Element.allNamed_append, List.map_append, h, h', List.filter_append,
    List.map_append]

/-- Nothing counts but the elements of the name and the entries of the kind. -/
theorem congr (h : Reported kind fs hs)
    (hes : Element.allNamed kind.word es = Element.allNamed kind.word fs)
    (hgs : gs.filter (·.kind = kind) = hs.filter (·.kind = kind)) : Reported kind es gs := by
  rw [Reported, hes, hgs]
  exact h

/-- An element of another name may stand around. -/
theorem inside (hname : e.name ≠ kind.word) (h : Reported kind e.elements gs) :
    Reported kind [e] gs := by
  rw [Reported, Element.allNamed_cons, if_neg hname, Element.allNamed_nil, List.append_nil,
    List.nil_append, h]

/-- An element comes with its entry, before what stands in it. -/
theorem own {id source : String} (hes : Element.allNamed kind.word es =
      e :: Element.allNamed kind.word fs) (hid : e.get? "Id" = some id) (h : Reported kind fs gs) :
    Reported kind es (⟨kind, id, source⟩ :: gs) := by
  rw [Reported, hes, List.filter_cons_of_pos (by simp), List.map_cons, List.map_cons, hid, h]

theorem other {g : Assigned} (hg : g.kind ≠ kind) (h : Reported kind es gs) :
    Reported kind es (g :: gs) := by
  rw [Reported, h, List.filter_cons_of_neg (by simpa using hg)]

end Reported

/-- A part accounts for what is in it but for components and directories, and reports no
directory. -/
structure Part.Accounts (x : Part) : Prop where
  items : ∀ kind : IdKind, kind.isFixed → Reported kind x.elements x.assigned
  kinds : ∀ g ∈ x.assigned, g.kind ≠ .directory

namespace Part.Accounts

variable {x y : Part}

theorem nil : Part.Accounts {} :=
  ⟨fun _ _ => rfl, by simp⟩

theorem append (h : x.Accounts) (h' : y.Accounts) : (x.append y).Accounts :=
  ⟨fun kind hkind => (h.items kind hkind).append (h'.items kind hkind),
    List.forall_mem_append.2 ⟨h.kinds, h'.kinds⟩⟩

theorem concat {xs : List Part} (h : ∀ x ∈ xs, x.Accounts) : (Part.concat xs).Accounts := by
  induction xs with
  | nil => exact nil
  | cons x xs ih =>
    obtain ⟨hx, hxs⟩ := List.forall_mem_cons.1 h
    exact hx.append (ih hxs)

/-- Nothing but components is reported, and nothing else is there. -/
theorem of_components (hes : ∀ kind : IdKind, kind.isFixed →
      Element.allNamed kind.word x.elements = [])
    (hgs : ∀ g ∈ x.assigned, g.kind = .component) : x.Accounts := by
  constructor
  · intro kind hkind
    refine .of_none (hes kind hkind) fun g hg => ?_
    rw [hgs g hg]
    exact (IdKind.ne_of_isFixed hkind).1.symm
  · intro g hg
    rw [hgs g hg]
    decide

/-- A directory may stand around. -/
theorem inDirectory (h : x.Accounts) {e : Element} (hname : e.name = "Directory")
    (helements : e.elements = []) :
    Part.Accounts { x with elements := [e.pushAll x.elements] } := by
  refine ⟨fun kind hkind => .inside ?_ ?_, h.kinds⟩
  · rw [Element.pushAll_name, hname]
    exact IdKind.word_injective.ne (IdKind.ne_of_isFixed hkind).2.symm
  · rw [Element.elements_pushAll, helements, List.nil_append]
    exact h.items kind hkind

/-- An element stands with its entry in a component with the component's own. -/
theorem component (own : IdKind) (hown : own.isFixed) (seed component : String)
    (features : List String) (attributes : List (String × String)) {e : Element} {id : String}
    (source : String) (hname : e.name = own.word) (helements : e.elements = [])
    (hid : e.get? "Id" = some id) :
    let part := Part.component seed component features attributes [e]
    Part.Accounts { part with assigned := ⟨own, id, source⟩ :: part.assigned } := by
  intro part
  have hentry : ∀ {kind : IdKind} {es : List Element}, kind.isFixed →
      Element.allNamed kind.word es = [] → Reported kind es part.assigned := fun hkind hes =>
    .of_none hes (by simpa [part, Part.component] using (IdKind.ne_of_isFixed hkind).1.symm)
  refine ⟨fun kind hkind => .inside ?_ ?_, List.forall_mem_cons.2 ⟨?_, ?_⟩⟩
  · rw [Element.pushAll_name, Element.setAll_name]
    exact IdKind.word_injective.ne (IdKind.ne_of_isFixed hkind).1.symm
  · rw [Element.elements_pushAll, Element.elements_setAll]
    change Reported kind [e] _
    by_cases h : own = kind
    · subst h
      refine .own ?_ hid (hentry hkind (Element.allNamed_nil _))
      rw [Element.allNamed_cons, if_pos hname, helements]
      rfl
    · refine .other h (hentry hkind ?_)
      rw [Element.allNamed_cons, if_neg (hname ▸ IdKind.word_injective.ne h), helements]
      rfl
  · exact (IdKind.ne_of_isFixed hown).2
  · simp [part, Part.component]

end Part.Accounts

/-- An identifier that is there is not replaced by an empty one. -/
theorem eq_some_getD {id : Option String} (h : id.isSome) : id = some (id.getD "") := by
  cases id with
  | none => cases h
  | some id => rfl

theorem accounts_filePart {p : Project} {f : File} {features : List String} {part : Part}
    {a b : Allocator} (h : filePart p f features a = .ok (part, b)) : part.Accounts := by
  obtain ⟨w, c, hw, h⟩ := Emit.bind_eq_ok.1 h
  obtain ⟨_, rfl, rfl⟩ := Schema.emit_eq_ok.1 hw
  obtain ⟨rfl, rfl⟩ := Emit.pure_eq_ok.1 h
  let x : Piece := ⟨.file f, features, ((Payload.file f).identify a).1⟩
  obtain ⟨hname, helements⟩ := x.element_spec p ""
  have hid := Payload.isSome_get?_id (q := .file f) rfl a
  refine .component .file rfl _ _ _ _ _ hname helements (eq_some_getD ?_)
  split
  · split
    · exact hid
    · rwa [Element.get?_set, if_neg (by decide)]
  · exact hid

theorem accounts_shortcutPart {p : Project} {directory : String} {s : Shortcut}
    {features : List String} {part : Part} {a b : Allocator}
    (h : shortcutPart p directory s features a = .ok (part, b)) : part.Accounts := by
  obtain ⟨w, c, hw, h⟩ := Emit.bind_eq_ok.1 h
  obtain ⟨_, rfl, rfl⟩ := Schema.emit_eq_ok.1 hw
  let x : Piece := ⟨.shortcut s, features, ((Payload.shortcut s).identify a).1⟩
  obtain ⟨hname, helements⟩ := x.element_spec p directory
  simp only [x, Piece.element] at hname helements
  cases hs : s.id with
  | none =>
    simp only [hs] at h hname helements
    obtain ⟨rfl, rfl⟩ := Emit.pure_eq_ok.1 h
    refine .component .shortcut rfl _ _ _ _ _ hname helements ?_
    rw [(Piece.workingDirectory_spec _ _).1, Element.get?_setFirst, if_pos rfl]
  | some given =>
    simp only [hs] at h hname helements
    obtain ⟨rfl, rfl⟩ := Emit.pure_eq_ok.1 h
    refine .component .shortcut rfl _ _ _ _ _ hname helements ?_
    rw [(Piece.workingDirectory_spec _ _).1]
    exact eq_some_getD (Payload.isSome_get?_id (q := .shortcut s) rfl a)

/-- No setting is a file, a shortcut or a feature. -/
theorem allNamed_settings (p : Project) (directory : String) (a : Allocator)
    (features : List String) (ss : List Setting) {kind : IdKind} (hkind : kind.isFixed) :
    Element.allNamed kind.word
      (pieceElements p directory (furnish a (settingTasks features ss)).1) = [] := by
  refine Element.allNamed_eq_nil fun e he hname => ?_
  have hitem := name_of_mem_within_pieces p directory he
  rw [hname] at hitem
  have hpayload : Payload.isName kind.word = true := by
    cases kind <;> first | rfl | exact absurd hitem (by decide) | cases hkind
  have hmem := (filter_isName_pieces p directory _).mem_iff.1
    (List.mem_filter.2 ⟨he, by rw [hname]; exact hpayload⟩)
  obtain ⟨x, hx, rfl⟩ := List.mem_map.1 hmem
  obtain ⟨s, hs⟩ := setting_of_mem_furnish hx
  rw [(x.element_spec p directory).1, hs] at hname
  cases s <;> cases kind <;> exact absurd hname (by simp [Payload.elementName, IdKind.word])

theorem accounts_settingsPart {p : Project} {ss : List Setting} {features : List String}
    {part : Part} {a b : Allocator} (h : settingsPart p ss features a = .ok (part, b)) :
    part.Accounts := by
  obtain ⟨placed, c, hplaced, h⟩ := Emit.bind_eq_ok.1 h
  obtain ⟨rfl, rfl⟩ := Emit.pure_eq_ok.1 h
  refine .of_components (fun kind hkind => ?_) fun _ => kind_of_mem_placed placed features
  exact (congrArg _ (furnishes_settings "" features hplaced).elements).trans
    (allNamed_settings p "" a features ss hkind)

theorem accounts_emptyPart (p : Project) (directory : String) (features : List String) :
    (emptyPart p directory features).Accounts := by
  have hnames : ∀ e ∈ Element.within (emptyPart p directory features).elements,
      e.name ∈ ["Component", "CreateFolder", "RemoveFolder"] := by
    intro e he
    change e ∈ Element.within [(emptyBox directory features).element p.seed] at he
    rw [Box.within_element] at he
    rcases List.mem_cons.1 he with rfl | he
    · simp [box_element_name]
    · simp [emptyBox, Element.within_cons] at he
      rcases he with rfl | rfl <;> simp
  refine .of_components (fun kind hkind => Element.allNamed_eq_nil_of_names hnames ?_) ?_
  · cases kind <;> first | decide | cases hkind
  · simp [emptyPart, Part.component]

theorem accounts_contentPart {p : Project} {n : Node} {directory : String} {part : Part}
    {a b : Allocator} (h : contentPart p n directory a = .ok (part, b)) : part.Accounts := by
  obtain ⟨files, _, hfiles, h⟩ := Emit.bind_eq_ok.1 h
  obtain ⟨matched, _, hmatched, h⟩ := Emit.bind_eq_ok.1 h
  obtain ⟨shortcuts, _, hshortcuts, h⟩ := Emit.bind_eq_ok.1 h
  obtain ⟨settings, _, hsettings, h⟩ := Emit.bind_eq_ok.1 h
  obtain ⟨rfl, rfl⟩ := Emit.pure_eq_ok.1 h
  refine .concat fun x hx => ?_
  simp only [List.mem_append, List.mem_singleton, or_assoc] at hx
  obtain hx | hx | hx | rfl := hx
  · obtain ⟨f, _, _, _, hf⟩ := Emit.mem_of_mapM_eq_ok hfiles hx
    exact accounts_filePart hf
  · obtain ⟨⟨s, f⟩, _, _, _, hf⟩ := Emit.mem_of_mapM_eq_ok hmatched hx
    exact accounts_filePart hf
  · obtain ⟨s, _, _, _, hs⟩ := Emit.mem_of_mapM_eq_ok hshortcuts hx
    exact accounts_shortcutPart hs
  · exact accounts_settingsPart hsettings

/-- The directories of a project account for what is in them. -/
theorem accounts_directoryPart (p : Project) (d : DirectoryIds) :
    (∀ o a part b, directoryPart p d o a = .ok (part, b) → part.Accounts) ∧
      ∀ os a part b, directoryPart.directoryParts p d os a = .ok (part, b) → part.Accounts := by
  refine Outline.induction ?node ?nil ?cons
  case node =>
    intro i children ih a part b h
    rw [directoryPart] at h
    split at h
    · obtain ⟨rfl, rfl⟩ := Emit.pure_eq_ok.1 h
      exact .nil
    · obtain ⟨content, _, hcontent, h⟩ := Emit.bind_eq_ok.1 h
      obtain ⟨below, _, hbelow, h⟩ := Emit.bind_eq_ok.1 h
      obtain ⟨rfl, rfl⟩ := Emit.pure_eq_ok.1 h
      obtain ⟨hname, helements⟩ := directoryElement_spec p.directories i (nodeAt p i) (d.id i)
      refine Part.Accounts.inDirectory ?_ hname helements
      refine ((accounts_contentPart hcontent).append ?_).append (ih _ _ _ hbelow)
      split
      · exact accounts_emptyPart p _ _
      · exact .nil
  case nil =>
    intro a part b h
    obtain ⟨rfl, rfl⟩ := Emit.pure_eq_ok.1 h
    exact .nil
  case cons =>
    intro o os ho hos a part b h
    rw [directoryPart.directoryParts] at h
    obtain ⟨first, _, hfirst, h⟩ := Emit.bind_eq_ok.1 h
    obtain ⟨rest, _, hrest, h⟩ := Emit.bind_eq_ok.1 h
    obtain ⟨rfl, rfl⟩ := Emit.pure_eq_ok.1 h
    exact (ho _ _ _ hfirst).append (hos _ _ _ hrest)

theorem reported_featurePart :
    (∀ f us a part b, featurePart us f a = .ok (part, b) →
        Reported .feature part.elements part.assigned) ∧
      ∀ fs us a part b, featurePart.featureParts us fs a = .ok (part, b) →
        Reported .feature part.elements part.assigned := by
  refine Feature.induction ?feature ?nil ?cons
  case feature =>
    intro id name description level allowChange typicalDefault configurableDirectory condition
      children attributes ih us a part b h
    let f : Feature := ⟨id, name, description, level, allowChange, typicalDefault,
      configurableDirectory, condition, children, attributes⟩
    rw [featurePart] at h
    obtain ⟨w, c, hw, h⟩ := Emit.bind_eq_ok.1 h
    obtain ⟨_, rfl, rfl⟩ := Schema.emit_eq_ok.1 hw
    obtain ⟨below, d, hbelow, h⟩ := Emit.bind_eq_ok.1 h
    obtain ⟨rfl, rfl⟩ := Emit.pure_eq_ok.1 h
    have hlower := ih _ _ below d hbelow
    obtain ⟨hfeatures, -⟩ := allNamed_featureElement f (Feature.schema.identify f a).1
      (usesOf name us) below.elements
    refine .own hfeatures ?_ hlower
    rw [featureElement, Element.get?_pushAll, Element.get?_pushAll]
    exact eq_some_getD (Option.isSome_of_eq_some (Schema.get?_complete_id Feature.schema f _))
  case nil =>
    intro us a part b h
    obtain ⟨rfl, rfl⟩ := Emit.pure_eq_ok.1 h
    rfl
  case cons =>
    intro f fs hf hfs us a part b h
    rw [featurePart.featureParts] at h
    obtain ⟨first, c, hfirst, h⟩ := Emit.bind_eq_ok.1 h
    obtain ⟨rest, d, hrest, h⟩ := Emit.bind_eq_ok.1 h
    obtain ⟨rfl, rfl⟩ := Emit.pure_eq_ok.1 h
    exact (hf us a first c hfirst).append (hfs _ _ rest d hrest)

/-- The features of a document are reported, and nothing else with them. -/
theorem reported_allFeatureParts {p : Project} {refs : List ComponentRef} {part : FeaturePart}
    {warnings : List Warning} {a b : Allocator}
    (h : allFeatureParts p refs a = .ok ((part, warnings), b)) {kind : IdKind}
    (hkind : kind.isFixed) : Reported kind part.elements part.assigned := by
  have hrefers := refers_allFeatureParts h
  by_cases hfeature : kind = .feature
  · subst hfeature
    obtain ⟨declared, added, c, hdeclared, hadded, rfl, -⟩ := allFeatureParts_eq_ok h
    exact (reported_featurePart.2 _ _ _ _ _ hdeclared).append
      (reported_featurePart.2 _ _ _ _ _ hadded)
  · refine .of_none (Element.allNamed_eq_nil_of_names hrefers.names ?_) fun g hg => ?_
    · cases kind <;> first | decide | contradiction
    · rw [hrefers.kinds g hg]
      exact Ne.symm hfeature

/-- The files, the shortcuts and the features of a document are reported in their order, and the
directories as they were numbered. -/
theorem reported_document {p : Project} {c : Compiled} (hc : p.compile = .ok c) :
    (∀ kind : IdKind, kind.isFixed → Reported kind c.document.elements c.ids) ∧
      c.ids.filter (·.kind = .directory) = (assignDirectories p).report p.directories := by
  obtain ⟨part, s, a, b, hpart, hs, rfl⟩ := surroundings_of_compile hc
  obtain ⟨⟨placed, before⟩, d, hopening, hs⟩ := Emit.bind_eq_ok.1 hs
  obtain ⟨⟨features, warnings⟩, e, hfeatures, hs⟩ := Emit.bind_eq_ok.1 hs
  obtain ⟨behind, f, hclosing, hs⟩ := Emit.bind_eq_ok.1 hs
  obtain ⟨rfl, -⟩ := Emit.pure_eq_ok.1 hs
  have haccounts := (accounts_directoryPart p _).2 _ _ _ _ hpart
  have hids : ∀ kind, ((assignDirectories p).report p.directories ++
        (part.assigned ++ (placedPart placed []).1.assigned) ++ features.assigned).filter
          (·.kind = kind) =
      (if .directory = kind then (assignDirectories p).report p.directories else []) ++
        (part.assigned.filter (·.kind = kind) ++
          if .component = kind then (placedPart placed []).1.assigned else []) ++
        features.assigned.filter (·.kind = kind) := fun kind => by
    rw [List.filter_append, List.filter_append, List.filter_append,
      filter_kind (fun _ => kind_of_mem_report), filter_kind (fun _ => kind_of_mem_placed placed [])]
  constructor
  · intro kind hkind
    obtain ⟨hbefore, hsettings⟩ := opening_spec hopening
    have hquiet : ∀ {es}, Quiet es → Element.allNamed kind.word es = [] := fun hes =>
      Element.allNamed_eq_nil fun e he hname => hes e he (hname ▸ kind.word_mem_structuralNames)
    have hnone := (congrArg (Element.allNamed kind.word) hsettings).trans
      (allNamed_settings p targetDirId a [] p.settings hkind)
    rw [Element.allNamed_append, List.append_eq_nil_iff] at hnone
    obtain ⟨hcomponents, hloose⟩ := hnone
    have hnames : kind.word ≠ "Product" ∧ kind.word ≠ "Directory" := by
      cases kind <;> first | decide | cases hkind
    obtain ⟨hcomponent, hdirectory⟩ := IdKind.ne_of_isFixed hkind
    refine ((haccounts.items kind hkind).append (reported_allFeatureParts hfeatures hkind)).congr
      ?_ ?_
    · refine (Frame.allNamed_document p _ hnames.1 _ _).trans ?_
      rw [if_neg hnames.2, Element.allNamed_append]
      simp [frameOf, hquiet hbefore, hquiet (quiet_closing hclosing), hcomponents, hloose]
    · refine (hids kind).trans ?_
      rw [if_neg hdirectory.symm, if_neg hcomponent.symm, List.nil_append, List.append_nil,
        List.filter_append]
  · refine (hids .directory).trans ?_
    rw [if_pos rfl, if_neg (by decide), filter_kind_of_ne haccounts.kinds,
      filter_kind (refers_allFeatureParts hfeatures).kinds, if_neg (by decide)]
    simp

end Installer.Compile
