import Installer.Proofs.Compile.LegalParts

/-!
# Legal identifiers in documents

Whatever an author calls things, the identifiers made from the names are legal: those that an
allocator gives, and those in a document whose author leaves all identifiers to the compiler.
-/
namespace Installer.Compile
open Identifier Directory Markup Schema

section document

variable {p : Project} (hp : p.LeavesIds)
include hp

theorem hasLegalId_of_mem_allPieces {x : Piece} (hx : x ∈ allPieces p) : x.HasLegalId := by
  rw [allPieces_eq] at hx
  exact hasLegalId_of_mem_furnish (fun t ht => hp.payloads t.1 (mem_allTasks ht)) x hx

theorem allIdentified_housing {r : Room} (hr : r ∈ (housing p).1) :
    AllIdentified (r.elements p (assignDirectories p)) := by
  refine allIdentified_room p _ (isLegal_of_mem_keptOutlines hp ?_) fun x hx => ?_
  · have houtlines : (housing p).1.map (·.outline) = keptOutlines p := map_outline_house _ _ _
    rw [← houtlines]
    exact List.mem_map_of_mem hr
  · exact hasLegalId_of_mem_allPieces hp
      (List.mem_append_left _ (List.mem_flatMap.2 ⟨r, hr, hx⟩))

theorem allIdentified_productPieces :
    AllIdentified (pieceElements p targetDirId (productPieces p)) :=
  allIdentified_pieces p isLegal_targetDirId fun _ hx =>
    hasLegalId_of_mem_allPieces hp (List.mem_append_right _ hx)

theorem identified_of_showsDirectory {is : List (Option Nat)} {es : List Element}
    (h : List.Forall₂ (ShowsDirectory p) is es)
    (his : ∀ i ∈ is, IsLegal ((i.map (assignDirectories p).id).getD targetDirId)) :
    ∀ e ∈ es, Identified e := by
  induction h with
  | nil => simp
  | cons hie _ ih =>
    obtain ⟨hi, his⟩ := List.forall_mem_cons.1 his
    have hverbatim : ∀ n ∈ p.directories.nodes,
        n.attributes.get? "Id" = none ∧ n.ownAttributes.get? "Id" = none :=
      fun n hn => (hp.directories n hn).verbatim
    exact List.forall_mem_cons.2 ⟨.of_get? (get?_of_showsDirectory hverbatim hie) hi, ih his⟩

/-- The directories of a document have legal identifiers. -/
theorem identified_directory {c : Compiled} {x : Content} (h : Shows p c x) :
    ∀ e ∈ Element.allNamed "Directory" c.document.elements, Identified e := by
  have hshows := showsDirectory_of_shows h
  rw [Element.descendantsNamed_eq_allNamed] at hshows
  refine identified_of_showsDirectory hp hshows (List.forall_mem_cons.2 ⟨isLegal_targetDirId, ?_⟩)
  intro i hi
  obtain ⟨o, ho, rfl⟩ := List.mem_map.1 hi
  exact isLegal_of_mem_keptOutlines hp ho

/-- All elements of a document that ought to have identifiers have legal ones. -/
theorem allIdentified_of_shows {c : Compiled} {x : Content} (h : Shows p c x) :
    AllIdentified c.document.elements := by
  intro e he hname
  by_cases hdirectory : e.name = "Directory"
  · exact identified_directory hp h e (List.mem_filter.2 ⟨he, by simp [hdirectory]⟩) hname
  -- All other elements stand among the items or in the features.
  · let q : String → Bool := fun name => identifiedNames.contains name && name != "Directory"
    have hq : ∀ name, q name = true → name ∈ structuralNames := by
      intro name hname
      have hmem : name ∈ identifiedNames := by simpa using (Bool.and_eq_true_iff.1 hname).1
      have hall : ∀ name ∈ identifiedNames, name ∈ structuralNames := by decide
      exact hall name hmem
    have he : e ∈ (Element.within c.document.elements).filter (q ·.name) :=
      List.mem_filter.2 ⟨he, by simp [q, hname, hdirectory]⟩
    rw [h.filter_structural hq, ← List.append_assoc,
      h.filter_not_features (by decide), List.mem_append] at he
    rcases he with he | he
    · have he := (List.mem_filter.1 he).1
      rw [itemElements, Element.within_append, within_rooms, List.mem_append] at he
      rcases he with he | he
      · obtain ⟨r, hr, he⟩ := List.mem_flatMap.1 he
        exact allIdentified_housing hp hr e he hname
      · exact allIdentified_productPieces hp e he hname
    · obtain ⟨part, _, _, hpart, hfeatures, _⟩ := h.written
      have he := (List.mem_filter.1 he).1
      rw [hfeatures] at he
      exact allIdentified_allFeatureParts hp.features hpart e he hname

end document

/-- Every generated identifier is legal. An allocator gives legal ones whatever it was asked before,
and it cuts a name between two characters if at all. In a document whose author leaves all
identifiers to the compiler, every element that ought to have an identifier has a legal one. -/
theorem generated_ids_legal :
    (∀ (a : Allocator) (kind : Kind) (raw : String), IsLegal (a.allocate kind raw).1) ∧
    (∀ (kind : Kind) (raw : String), kind ≠ .directory → ∃ kept,
      Shortens (spelledName kind raw) kept ∧
        candidate kind raw = String.ofList (guardTail kept.toList)) ∧
    ∀ (p : Project) (c : Compiled), p.LeavesIds → p.compile = .ok c →
      ∀ e ∈ c.document.descendants, e.name ∈ identifiedNames →
        ∃ id, e.get? "Id" = some id ∧ IsLegal id := by
  refine ⟨fun a kind raw => a.isLegal_allocate kind raw, fun kind raw hkind => ?_,
    fun p c hp hc e he => ?_⟩
  · refine ⟨_, shortens_shorten (isLegal_spelledName kind raw).plain, ?_⟩
    rw [candidate_eq, if_neg (by simpa using hkind), String.toList_ofList]
  · obtain ⟨x, hx⟩ := shows_of_compile hc
    rw [Element.descendants_eq_within] at he
    exact allIdentified_of_shows hp hx e he

/-- A directory whose items have no names fit for identifiers. -/
def oddNames : Declaration where
  path := "%ProgramFiles%\\7 Ζωή"
  items := [
    .file { source := "bin/1.été" },
    .file { source := "bin/2.a name that is far too long for 1" },
    .shortcut { name := "…", target := "[INSTALLDIR]x" },
    .setting (.registry { key := "Software\\ω", name := some ".9" }),
    .setting (.environment { name := "3", value := some "x" }),
    .directory { path := "." }]

/-- The project with that directory and a feature, and with another place for itself. -/
def oddProject : Project where
  name := "Acme"
  directories := (Tree.empty.declare none oddNames).2
  features := [{ name := "№ 1", children := [{ name := "\t" }] }]
  options := { installDirId := some "_TARGET" }

theorem leavesIds_oddProject : oddProject.LeavesIds := by
  decide +kernel

theorem compile_oddProject : ∃ c, oddProject.compile = .ok c ∧
    ["File", "Shortcut", "RemoveFolder"].map (c.document.idsOf ·) =
      [["_1.e9te9_", "_...at20is20far20too20long20for201_"], ["_TARGET._2026_"],
        ["_TARGET.."]] := by
  have hrun : (oddProject.compile.toOption.map fun c =>
      ["File", "Shortcut", "RemoveFolder"].map (c.document.idsOf ·)) =
      some [["_1.e9te9_", "_...at20is20far20too20long20for201_"], ["_TARGET._2026_"],
        ["_TARGET.."]] := by
    decide +kernel
  exact exists_ok_of_toOption_map hrun

theorem generated_ids_legal_odd :
    (∃ kept, Shortens (spelledName .file "bin/2.a name that is far too long for 1") kept ∧
      candidate .file "bin/2.a name that is far too long for 1" =
        String.ofList (guardTail kept.toList)) ∧
    oddProject.LeavesIds ∧ ∃ c, oddProject.compile = .ok c ∧
      ∀ e ∈ c.document.descendants, e.name ∈ identifiedNames →
        ∃ id, e.get? "Id" = some id ∧ IsLegal id := by
  obtain ⟨c, hc, _⟩ := compile_oddProject
  exact ⟨generated_ids_legal.2.1 .file "bin/2.a name that is far too long for 1" (by decide),
    leavesIds_oddProject, c, hc,
    generated_ids_legal.2.2 oddProject c leavesIds_oddProject hc⟩

end Installer.Compile
