import Installer.Proofs.Compile.DocumentParts
import Installer.Proofs.ComponentReferences
import Installer.Proofs.Schema.Taking

/-!
# Identifiers of components and shortcuts

The allocator never gives an identifier twice, but the identifiers of shortcuts and of components
for empty directories are glued together behind its back: the directory's identifier, a dot, and a
name. Where nobody gives an identifier by hand, those of components and shortcuts are pairwise
distinct exactly when no glued identifier comes twice or is what the allocator gave to something
else.
-/
namespace Installer
open Identifier Directory Markup Schema

/-- The author leaves the identifiers of a payload and of its component to the compiler. -/
structure Payload.LeavesIds (q : Payload) : Prop where
  identity : q.identity?.bind (·.explicit) = none
  own : q.attributes.get? "Id" = none
  component : q.attributes.get? "Component:Id" = none

instance (q : Payload) : Decidable q.LeavesIds :=
  decidable_of_iff (q.identity?.bind (·.explicit) = none ∧ q.attributes.get? "Id" = none ∧
      q.attributes.get? "Component:Id" = none)
    ⟨fun ⟨hi, ho, hc⟩ => ⟨hi, ho, hc⟩, fun h => ⟨h.identity, h.own, h.component⟩⟩

/-- Without an identifier from the author a payload asks the allocator for one. -/
theorem Payload.LeavesIds.identify {q : Payload} (h : q.LeavesIds) {i : Schema.Identity}
    (hi : q.identity? = some i) (a : Allocator) : q.identify a =
      (some (a.allocate i.kind i.source).1, (a.allocate i.kind i.source).2) := by
  have hexplicit : i.explicit = none := by simpa [hi] using h.identity
  rw [Payload.identify_of_some hi, Identity.take, hexplicit]

def Project.payloads (p : Project) : List Payload :=
  p.directories.nodes.flatMap Node.payloads ++ p.settings.map .setting

namespace Compile

def allTasks (p : Project) : List (Payload × List String) :=
  ((keptOutlines p).flatMap fun o => tasksOf (nodeAt p o.index)) ++ settingTasks [] p.settings

theorem house_eq_furnish (p : Project) (a : Allocator) (os : List Outline) :
    furnish a (os.flatMap fun o => tasksOf (nodeAt p o.index)) =
      ((house p a os).1.flatMap (·.pieces), (house p a os).2) := by
  induction os generalizing a with
  | nil => rfl
  | cons o os ih => rw [List.flatMap_cons, furnish_append, ih, house, List.flatMap_cons]

theorem allPieces_eq (p : Project) :
    allPieces p = (furnish (assignDirectories p).ids (allTasks p)).1 := by
  rw [allTasks, furnish_append, house_eq_furnish, allPieces, productPieces, housing]

theorem handsOut_furnish (a : Allocator) {ts : List (Payload × List String)}
    (h : ∀ t ∈ ts, t.1.LeavesIds) :
    HandsOut a ((furnish a ts).1.filterMap (·.id)) (furnish a ts).2 := by
  induction ts generalizing a with
  | nil => exact .nil a
  | cons t ts ih =>
    have hrest := ih (t.1.identify a).2 fun u hu => h u (by simp [hu])
    rw [furnish, List.filterMap_cons]
    cases hi : t.1.identity? with
    | none =>
      rw [Payload.identify_of_none hi] at hrest ⊢
      exact hrest
    | some i =>
      rw [(h t List.mem_cons_self).identify hi] at hrest ⊢
      exact hrest.allocate

/-- An identifier made of a directory's and a name. -/
structure Glue where
  directory : String
  name : String

def Glue.id (g : Glue) : String :=
  g.directory ++ "." ++ g.name

/-- What the identifier of a shortcut is glued from. -/
def Piece.glue? (directory : String) (x : Piece) : Option Glue :=
  match x.payload with
  | .shortcut _ => x.id.map (⟨directory, ·⟩)
  | _ => none

/-- The identifier that a piece other than a shortcut has from the allocator. -/
def Piece.plain? (x : Piece) : Option String :=
  match x.payload with
  | .shortcut _ => none
  | _ => x.id

/-- What the identifier of the component for an empty directory is glued from. -/
def keeperGlues (p : Project) (d : DirectoryIds) (o : Outline) : List Glue :=
  if needsKeeper p o then [⟨d.id o.index, "EmptyDirectory"⟩] else []

/-- What the identifiers in a room are glued from. -/
def Room.glues (p : Project) (d : DirectoryIds) (r : Room) : List Glue :=
  r.pieces.filterMap (·.glue? (d.id r.outline.index)) ++ keeperGlues p d r.outline

/-- What all glued identifiers of a project are made of. -/
def allGlues (p : Project) : List Glue :=
  (housing p).1.flatMap (·.glues p (assignDirectories p))

/-- All identifiers that the allocator gives to files, registry values and environment variables. -/
def plainIds (p : Project) : List String :=
  (allPieces p).filterMap Piece.plain?

theorem mem_allTasks {p : Project} {t : Payload × List String} (h : t ∈ allTasks p) :
    t.1 ∈ p.payloads := by
  rcases List.mem_append.1 h with h | h
  · obtain ⟨o, _, h⟩ := List.mem_flatMap.1 h
    have hmem : t.1 ∈ (nodeAt p o.index).payloads := by
      rw [← map_fst_tasksOf]
      exact List.mem_map_of_mem h
    unfold nodeAt at hmem
    cases hn : p.directories.node? o.index with
    | none => simp [hn, Node.payloads] at hmem
    | some n =>
      rw [hn, Option.getD_some] at hmem
      exact List.mem_append_left _ (List.mem_flatMap.2 ⟨n, List.mem_of_getElem? hn, hmem⟩)
  · obtain ⟨s, hs, rfl⟩ := List.mem_map.1 h
    exact List.mem_append_right _ (List.mem_map_of_mem hs)

/-- The allocator gives no plain identifier twice. -/
theorem nodup_plainIds {p : Project} (h : ∀ q ∈ p.payloads, q.LeavesIds) : (plainIds p).Nodup := by
  have htasks : ∀ t ∈ allTasks p, t.1.LeavesIds := fun t ht => h t.1 (mem_allTasks ht)
  have hids := (handsOut_furnish (assignDirectories p).ids htasks).nodup
  rw [← allPieces_eq] at hids
  refine hids.sublist ?_
  have hsub : ∀ xs : List Piece, (xs.filterMap Piece.plain?).Sublist (xs.filterMap (·.id)) := by
    intro xs
    induction xs with
    | nil => exact .slnil
    | cons x xs ih =>
      rw [List.filterMap_cons, List.filterMap_cons]
      unfold Piece.plain?
      cases x.payload with
      | shortcut s =>
        cases x.id with
        | none => exact ih
        | some id => exact ih.cons id
      | file f | setting s =>
        cases x.id with
        | none => exact ih
        | some id => exact ih.cons_cons id
  exact hsub _

/-- A furnished piece has an identifier unless it is loose. -/
theorem isSome_id_of_mem_furnish {a : Allocator} {ts : List (Payload × List String)} {x : Piece}
    (hx : x ∈ (furnish a ts).1) : x.id.isSome = !x.payload.isLoose := by
  induction ts generalizing a with
  | nil => simp [furnish] at hx
  | cons t ts ih =>
    rcases List.mem_cons.1 hx with rfl | hx
    · rw [← Payload.isSome_identity?, Payload.identify_eq, Option.isSome_map]
    · exact ih hx

/-- Where the author gives no identifier, the element of a shortcut has the glued one and every
other element the allocator's. -/
theorem get?_id_element (p : Project) (directory : String) {x : Piece} (hx : x.payload.LeavesIds)
    (hloose : x.payload.isLoose = false) {id : String} (hid : x.id = some id) :
    (x.element p directory).get? "Id" = some (match x.payload with
      | .shortcut _ => directory ++ "." ++ id
      | _ => id) := by
  obtain ⟨q, features, _⟩ := x
  obtain rfl : _ = some id := hid
  have hget : (q.complete (some id)).element.get? "Id" = some id := by
    rw [Payload.get?_complete_id hloose, hx.own]
    rfl
  cases q with
  | file f => exact Piece.get?_id_file p directory hx.own features id
  | shortcut s =>
    have hexplicit : s.id = none := hx.identity
    unfold Piece.element
    simp only [hexplicit, hget, Option.getD_some]
    rw [(Piece.workingDirectory_spec _ _).1, Element.get?_setFirst, if_pos rfl]
  | setting s => exact hget

/-- A piece has no component, or one with a plain identifier, or one with a glued identifier. -/
theorem piece_cases (p : Project) (directory : String) {x : Piece} (hx : x.payload.LeavesIds)
    (hsome : x.id.isSome = !x.payload.isLoose) :
    (boxes p directory [x] = [] ∧ x.plain? = none ∧ x.glue? directory = none) ∨
    (∃ id, (boxes p directory [x]).map (·.id) = [Component.idFor id] ∧ x.plain? = some id ∧
      x.glue? directory = none) ∨
    ∃ g : Glue, (boxes p directory [x]).map (·.id) = [Component.idFor g.id] ∧ x.plain? = none ∧
      x.glue? directory = some g := by
  cases hloose : x.payload.isLoose with
  | true =>
    have hnone : x.id = none := by simpa [hloose] using hsome
    refine Or.inl ⟨by simp [boxes, Piece.box?, hloose], ?_, ?_⟩
    · unfold Piece.plain?
      cases x.payload <;> simp [hnone]
    · unfold Piece.glue?
      cases x.payload <;> simp [hnone]
  | false =>
    obtain ⟨id, hid⟩ : ∃ id, x.id = some id :=
      Option.isSome_iff_exists.1 (by simpa [hloose] using hsome)
    have hbox : (boxes p directory [x]).map (·.id) =
        [Component.idFor (x.ownId p directory)] := by
      simp [boxes, Piece.box?, Piece.box, hloose]
    unfold Piece.plain? Piece.glue?
    rw [hbox, Piece.ownId, get?_id_element p directory hx hloose hid]
    cases x.payload with
    | shortcut s => exact Or.inr (Or.inr ⟨⟨directory, id⟩, rfl, rfl, by simp [hid]⟩)
    | file f => exact Or.inr (Or.inl ⟨id, rfl, hid, rfl⟩)
    | setting s => exact Or.inr (Or.inl ⟨id, rfl, hid, rfl⟩)

/-- The components around pieces are named after the plain and the glued identifiers. -/
theorem map_id_boxes_perm (p : Project) (directory : String) {xs : List Piece}
    (h : ∀ x ∈ xs, x.payload.LeavesIds ∧ x.id.isSome = !x.payload.isLoose) :
    ((boxes p directory xs).map (·.id)).Perm
      ((xs.filterMap Piece.plain? ++ (xs.filterMap (·.glue? directory)).map (·.id)).map
        Component.idFor) := by
  induction xs with
  | nil => exact .nil
  | cons x xs ih =>
    have hrest := ih fun y hy => h y (by simp [hy])
    have hx := h x (by simp)
    rw [List.map_append] at hrest
    rw [← List.singleton_append, boxes_append, List.map_append, List.singleton_append,
      List.filterMap_cons, List.filterMap_cons]
    obtain ⟨hbox, hplain, hglue⟩ | ⟨id, hbox, hplain, hglue⟩ | ⟨g, hbox, hplain, hglue⟩ :=
      piece_cases p directory hx.1 hx.2
    · rw [hbox, hplain, hglue, List.map_append]
      exact hrest
    · rw [hbox, hplain, hglue, List.map_append]
      exact hrest.cons _
    · rw [hbox, hplain, hglue, List.map_append]
      exact (hrest.cons _).trans List.perm_middle.symm

/-- The product's settings have no glued identifiers. -/
theorem glues_productPieces (p : Project) :
    (productPieces p).filterMap (·.glue? targetDirId) = [] := by
  rw [List.filterMap_eq_nil_iff]
  intro x hx
  obtain ⟨s, hs⟩ := setting_of_mem_furnish hx
  simp [Piece.glue?, hs]

theorem payload_mem_of_mem_allPieces {p : Project} {x : Piece} (hx : x ∈ allPieces p) :
    x.payload ∈ p.payloads := by
  have hmem := List.mem_map_of_mem (f := Piece.payload) hx
  rw [allPieces_eq, map_payload_furnish] at hmem
  obtain ⟨t, ht, htx⟩ := List.mem_map.1 hmem
  rw [← htx]
  exact mem_allTasks ht

section distinct

variable {p : Project} (h : ∀ q ∈ p.payloads, q.LeavesIds)

include h

theorem leaves_of_mem_allPieces {x : Piece} (hx : x ∈ allPieces p) :
    x.payload.LeavesIds ∧ x.id.isSome = !x.payload.isLoose := by
  have hpayload := h _ (payload_mem_of_mem_allPieces hx)
  rw [allPieces_eq] at hx
  exact ⟨hpayload, isSome_id_of_mem_furnish hx⟩

/-- The components of a room are named after its plain and its glued identifiers. -/
theorem map_id_boxes_room_perm {r : Room} (hr : r ∈ (housing p).1) :
    ((r.boxes p (assignDirectories p)).map (·.id)).Perm
      ((r.pieces.filterMap Piece.plain? ++ (r.glues p (assignDirectories p)).map (·.id)).map
        Component.idFor) := by
  have hkeepers : (keepers p (assignDirectories p) r.outline).map (·.id) =
      ((keeperGlues p (assignDirectories p) r.outline).map (·.id)).map Component.idFor := by
    unfold keepers keeperGlues
    split
    · simp only [List.map_singleton, emptyBox, Glue.id, String.append_assoc]
      rfl
    · rfl
  have hleaves : ∀ x ∈ r.pieces, x.payload.LeavesIds ∧ x.id.isSome = !x.payload.isLoose :=
    fun x hx => leaves_of_mem_allPieces h
      (List.mem_append_left _ (List.mem_flatMap.2 ⟨r, hr, hx⟩))
  have hpieces := map_id_boxes_perm p ((assignDirectories p).id r.outline.index) hleaves
  have hroom := hpieces.append_right (((keeperGlues p (assignDirectories p) r.outline).map
    (·.id)).map Component.idFor)
  rw [Room.boxes, Room.glues, List.map_append, hkeepers]
  simpa using hroom

/-- The components of a project are named after the plain and the glued identifiers. -/
theorem map_id_allBoxes_perm :
    ((allBoxes p).map (·.id)).Perm
      ((plainIds p ++ (allGlues p).map (·.id)).map Component.idFor) := by
  have hproduct := glues_productPieces p
  have hleaves : ∀ x ∈ productPieces p, x.payload.LeavesIds ∧ x.id.isSome = !x.payload.isLoose :=
    fun x hx => leaves_of_mem_allPieces h (List.mem_append_right _ hx)
  have hsettings := map_id_boxes_perm p targetDirId hleaves
  rw [hproduct, List.map_nil, List.append_nil] at hsettings
  have hsplit := List.flatMap_append_perm (housing p).1
    (fun r => r.pieces.filterMap Piece.plain?)
    (fun r => (r.glues p (assignDirectories p)).map (·.id))
  have hall : ((housing p).1.flatMap fun r =>
        (r.boxes p (assignDirectories p)).map (·.id)).Perm
      (((housing p).1.flatMap (fun r => r.pieces.filterMap Piece.plain?) ++
        (allGlues p).map (·.id)).map Component.idFor) := by
    refine (List.Perm.flatMap_left _ fun r hr => map_id_boxes_room_perm h hr).trans ?_
    rw [← List.map_flatMap, allGlues, List.map_flatMap (f := Glue.id)]
    exact (hsplit.symm).map _
  rw [allBoxes, plainIds, allPieces, List.map_append, List.map_flatMap, List.filterMap_append,
    List.filterMap_flatMap]
  refine (hall.append hsettings).trans ?_
  rw [← List.map_append]
  refine List.Perm.map _ ?_
  rw [List.append_assoc, List.append_assoc]
  exact List.perm_append_comm.append_left _

/-- Among the elements of pieces the shortcuts have the glued identifiers. -/
theorem ids_shortcuts_pieces (directory : String) {xs : List Piece}
    (hxs : ∀ x ∈ xs, x ∈ allPieces p) :
    ((xs.map (·.element p directory)).filter (·.name == "Shortcut")).filterMap (·.get? "Id") =
      (xs.filterMap (·.glue? directory)).map (·.id) := by
  induction xs with
  | nil => rfl
  | cons x xs ih =>
    have hrest := ih fun z hz => hxs z (by simp [hz])
    obtain ⟨hx, hsome⟩ := leaves_of_mem_allPieces h (hxs x (by simp))
    have hname := (x.element_spec p directory).1
    rw [List.map_cons, List.filter_cons, hname, List.filterMap_cons]
    cases hq : x.payload with
    | shortcut s =>
      have hloose : x.payload.isLoose = false := by rw [hq]; rfl
      obtain ⟨id, hid⟩ : ∃ id, x.id = some id :=
        Option.isSome_iff_exists.1 (by simpa [hloose] using hsome)
      have hget := get?_id_element p directory hx hloose hid
      rw [hq] at hget
      have hglue : x.glue? directory = some ⟨directory, id⟩ := by simp [Piece.glue?, hq, hid]
      rw [if_pos (by rfl), List.filterMap_cons, hget, hglue, hrest]
      rfl
    | file f =>
      have hglue : x.glue? directory = none := by simp [Piece.glue?, hq]
      rw [if_neg (by simp [Payload.elementName]), hglue, hrest]
    | setting s =>
      have hglue : x.glue? directory = none := by simp [Piece.glue?, hq]
      rw [if_neg (by cases s <;> simp [Payload.elementName]), hglue, hrest]

/-- The shortcuts of a project have their glued identifiers. -/
theorem idsOf_shortcut_perm {c : Compiled} (hc : p.compile = .ok c) :
    (c.document.idsOf "Shortcut").Perm (((housing p).1.flatMap fun r =>
      r.pieces.filterMap (·.glue? ((assignDirectories p).id r.outline.index))).map (·.id)) := by
  obtain ⟨y, hy⟩ := shows_of_compile hc
  have hproduct : (productPieces p).filterMap (·.glue? targetDirId) = [] := glues_productPieces p
  refine (hy.idsOf_perm rfl).trans (List.Perm.of_eq ?_)
  rw [payloadElements, List.filter_append, List.filterMap_append,
    ids_shortcuts_pieces h _ fun x hx => List.mem_append_right _ hx, hproduct, List.filter_flatMap,
    List.filterMap_flatMap, List.map_flatMap, List.map_nil, List.append_nil]
  refine List.flatMap_congr fun r hr => ids_shortcuts_pieces h _ fun x hx => ?_
  exact List.mem_append_left _ (List.mem_flatMap.2 ⟨r, hr, hx⟩)

/-- A component keeps its registered identifier where nobody renames it. -/
theorem finalId_eq_id {b : Box} (hb : b ∈ allBoxes p) : b.finalId = b.id := by
  rcases mem_allBoxes hb with ⟨directory, x, hx, rfl⟩ | ⟨directory, features, rfl⟩
  · rw [Box.finalId, override?_box, (leaves_of_mem_allPieces h hx).1.component]
    rfl
  · rfl

end distinct

/-- Glued identifiers clash: they have the same parts, or the directory of one goes on where the
name of the other begins. -/
def Glue.Clashes (g k : Glue) : Prop :=
  (g.directory = k.directory ∧ g.name = k.name) ∨
  (∃ x, k.directory = g.directory ++ "." ++ x ∧ g.name = x ++ "." ++ k.name) ∨
  ∃ x, g.directory = k.directory ++ "." ++ x ∧ k.name = x ++ "." ++ g.name

theorem append_dot_eq_iff {ds ns es ms : List Char} :
    ds ++ '.' :: ns = es ++ '.' :: ms ↔ (ds = es ∧ ns = ms) ∨
      (∃ xs, es = ds ++ '.' :: xs ∧ ns = xs ++ '.' :: ms) ∨
      ∃ xs, ds = es ++ '.' :: xs ∧ ms = xs ++ '.' :: ns := by
  rw [List.append_eq_append_iff]
  constructor
  · rintro (⟨xs, hes, hns⟩ | ⟨xs, hds, hms⟩)
    · cases xs with
      | nil => exact Or.inl ⟨by simpa using hes.symm, (List.cons.inj hns).2⟩
      | cons c xs =>
        obtain ⟨rfl, htail⟩ := List.cons.inj hns
        exact Or.inr (Or.inl ⟨xs, hes, htail⟩)
    · cases xs with
      | nil => exact Or.inl ⟨by simpa using hds, (List.cons.inj hms).2.symm⟩
      | cons c xs =>
        obtain ⟨rfl, htail⟩ := List.cons.inj hms
        exact Or.inr (Or.inr ⟨xs, hds, htail⟩)
  · rintro (⟨rfl, rfl⟩ | ⟨xs, rfl, rfl⟩ | ⟨xs, rfl, rfl⟩)
    · exact Or.inl ⟨[], by simp⟩
    · exact Or.inl ⟨'.' :: xs, by simp⟩
    · exact Or.inr ⟨'.' :: xs, by simp⟩

theorem Glue.id_eq_iff (g k : Glue) : g.id = k.id ↔ g.Clashes k := by
  have hlist : ∀ s d n : String, s = d ++ "." ++ n ↔ s.toList = d.toList ++ '.' :: n.toList := by
    intro s d n
    rw [← String.toList_inj]
    simp
  have hexists : ∀ q : List Char → Prop, (∃ x : String, q x.toList) ↔ ∃ xs, q xs := fun q =>
    ⟨fun ⟨x, hx⟩ => ⟨x.toList, hx⟩, fun ⟨xs, hxs⟩ => ⟨String.ofList xs, by simpa using hxs⟩⟩
  change g.directory ++ "." ++ g.name = k.directory ++ "." ++ k.name ↔ _
  rw [hlist, String.toList_append, String.toList_append, Clashes]
  simp only [hlist, ← String.toList_inj]
  rw [hexists fun xs => k.directory.toList = g.directory.toList ++ '.' :: xs ∧
      g.name.toList = xs ++ '.' :: k.name.toList,
    hexists fun xs => g.directory.toList = k.directory.toList ++ '.' :: xs ∧
      k.name.toList = xs ++ '.' :: g.name.toList, ← append_dot_eq_iff]
  simp

/-- Where nobody gives an identifier by hand, the components and the shortcuts of a document have
pairwise distinct identifiers exactly when no two glued identifiers clash and none is a plain
one. -/
theorem nodup_componentIds_iff {p : Project} {c : Compiled} (h : ∀ q ∈ p.payloads, q.LeavesIds)
    (hc : p.compile = .ok c) :
    (c.document.idsOf "Component").Nodup ∧ (c.document.idsOf "Shortcut").Nodup ↔
      (allGlues p).Pairwise (fun g k => ¬ g.Clashes k) ∧
        ∀ g ∈ allGlues p, g.id ∉ plainIds p := by
  have hglues : ((allGlues p).map (·.id)).Nodup ↔
      (allGlues p).Pairwise fun g k => ¬ g.Clashes k := by
    rw [List.Nodup, List.pairwise_map]
    simp only [ne_eq, Glue.id_eq_iff]
  have hidFor : Function.Injective Component.idFor := by
    intro s t hst
    simpa [Component.idFor, ← String.toList_inj] using hst
  have hfinal : (allBoxes p).map (·.finalId) = (allBoxes p).map (·.id) :=
    List.map_congr_left fun b hb => finalId_eq_id h hb
  -- The identifiers of shortcuts are glued, so those of components are distinct only if they are.
  have hshortcuts : ∀ rs : List Room, (rs.flatMap fun r =>
      r.pieces.filterMap (·.glue? ((assignDirectories p).id r.outline.index))).Sublist
        (rs.flatMap (·.glues p (assignDirectories p))) := by
    intro rs
    induction rs with
    | nil => exact .slnil
    | cons r rs ih =>
      rw [List.flatMap_cons, List.flatMap_cons]
      exact (List.sublist_append_left _ _).append ih
  rw [idsOf_component hc, hfinal, (map_id_allBoxes_perm h).nodup_iff, List.nodup_map_iff hidFor,
    List.nodup_append', (idsOf_shortcut_perm h hc).nodup_iff, hglues]
  constructor
  · rintro ⟨⟨_, hpairwise, hdisjoint⟩, _⟩
    exact ⟨hpairwise, fun g hg hmem => hdisjoint hmem (List.mem_map_of_mem hg)⟩
  · rintro ⟨hpairwise, hfree⟩
    refine ⟨⟨nodup_plainIds h, hpairwise, fun id hid hmem => ?_⟩, ?_⟩
    · obtain ⟨g, hg, rfl⟩ := List.mem_map.1 hmem
      exact hfree g hg hid
    · exact (hglues.2 hpairwise).sublist ((hshortcuts _).map _)

/-- A directory with a shortcut whose name begins like the directory below it. -/
def dottedShortcut : Declaration where
  path := "A"
  items := [
    .shortcut { name := "B.c", target := "x" },
    .directory { path := "B", items := [.shortcut { name := "c", target := "x" }] }]

/-- The project with that directory and nothing else. -/
def dottedProject : Project where
  name := "Acme"
  directories := (Tree.empty.declare none dottedShortcut).2

theorem leavesIds_dottedProject : ∀ q ∈ dottedProject.payloads, q.LeavesIds := by
  decide +kernel

theorem compile_dottedProject : ∃ c, dottedProject.compile = .ok c ∧
    c.document.idsOf "Shortcut" = ["INSTALLDIR.B.c", "INSTALLDIR.B.c"] := by
  have hrun : (dottedProject.compile.toOption.map fun c => c.document.idsOf "Shortcut") =
      some ["INSTALLDIR.B.c", "INSTALLDIR.B.c"] := by
    decide +kernel
  exact exists_ok_of_toOption_map hrun

/-- Two shortcuts of one identifier, although nobody gave one by hand. -/
theorem shortcuts_of_one_identifier :
    ({ name := "Acme" } : Project).add (.directory dottedShortcut) = .ok dottedProject ∧
    (∀ q ∈ dottedProject.payloads, q.LeavesIds) ∧
    ∃ c, dottedProject.compile = .ok c ∧
      ¬ ((c.document.idsOf "Component").Nodup ∧ (c.document.idsOf "Shortcut").Nodup) := by
  obtain ⟨c, hc, hids⟩ := compile_dottedProject
  refine ⟨rfl, leavesIds_dottedProject, c, hc, ?_⟩
  rintro ⟨_, hshortcuts⟩
  rw [hids] at hshortcuts
  exact absurd hshortcuts (by decide)

theorem nodup_componentIds_iff_dotted :
    (∀ q ∈ dottedProject.payloads, q.LeavesIds) ∧ ∃ c, dottedProject.compile = .ok c ∧
      ((c.document.idsOf "Component").Nodup ∧ (c.document.idsOf "Shortcut").Nodup ↔
        (allGlues dottedProject).Pairwise (fun g k => ¬ g.Clashes k) ∧
          ∀ g ∈ allGlues dottedProject, g.id ∉ plainIds dottedProject) := by
  obtain ⟨c, hc, _⟩ := compile_dottedProject
  exact ⟨leavesIds_dottedProject, c, hc, nodup_componentIds_iff leavesIds_dottedProject hc⟩

end Compile

end Installer
