import Installer.Proofs.Markup.AttributeNames
import Installer.Proofs.Schema.Writing

/-!
# Elements that schemas write

Whatever the schema, what becomes of an entity can be read off its fields: which names the attributes
of the element have and in which order, what value each of them has, what stands below the element,
and what is asked of the component around it. Three hands write attributes, and the later one wins:
the fields in their order, then the identifier, then the author.
-/
namespace Installer.Schema
open Identifier Markup

variable {α : Type}

namespace Field

/-- The attribute that a field gives the element: the value is there, it is no row of elements and
not the usual one, and the field is not for a text. -/
def asAttribute? (f : Field α) (x : α) : Option (String × String) :=
  match f.value? x with
  | none => none
  | some (.elements _) => none
  | some v =>
      if f.role = .asText ∨ f.presence = .unless v.written then none else some (f.target, v.written)

/-- What a field puts below the element: its row of elements, or its value as a text unless it is the
usual one. -/
def content (f : Field α) (x : α) : List (Content Element) :=
  match f.value? x with
  | none => []
  | some (.elements es) => es.map .element
  | some v => if f.role = .asText ∧ f.presence ≠ .unless v.written then [.text v.written] else []

theorem attributes_write (f : Field α) (x : α) (e : Element) :
    (f.write x e).attributes = (e.setAll (f.asAttribute? x).toList).attributes := by
  unfold write asAttribute?
  cases f.value? x with
  | none => rfl
  | some v =>
    cases v with
    | elements es => rfl
    | text s | flag b | number n | version v | word s =>
      dsimp only
      split
      · next husual =>
        rw [if_pos (Or.inr husual)]
        rfl
      · next husual => cases hrole : f.role <;> simp [husual, Element.pushText, Element.setAll]

theorem children_write (f : Field α) (x : α) (e : Element) :
    (f.write x e).children = e.children ++ f.content x := by
  unfold write content
  cases f.value? x with
  | none => rw [List.append_nil]
  | some v =>
    cases v with
    | elements es => rfl
    | text s | flag b | number n | version v | word s =>
      dsimp only
      split
      · next husual => rw [if_neg fun h => h.2 husual, List.append_nil]
      · next husual => cases hrole : f.role <;> simp [husual, Element.pushText]

end Field

/-- The attributes that the fields of an entity give its element, in the order of the fields. -/
def entries (s : Schema α) (x : α) : List (String × String) :=
  s.fields.filterMap (·.asAttribute? x)

/-- What the fields of an entity put below its element, in the order of the fields. -/
def contents (s : Schema α) (x : α) : List (Content Element) :=
  s.fields.flatMap (·.content x)

theorem attributes_setAll (e : Element) (as : List (String × String)) :
    (e.setAll as).attributes = as.foldl (fun bs a => setAttribute a.1 a.2 bs) e.attributes := by
  induction as generalizing e with
  | nil => rfl
  | cons a as ih => rw [Element.setAll_cons, ih, Element.set, List.foldl_cons]

theorem children_setAll (e : Element) (as : List (String × String)) :
    (e.setAll as).children = e.children := by
  induction as generalizing e with
  | nil => rfl
  | cons a as ih => rw [Element.setAll_cons, ih, Element.set_children]

theorem attributes_fieldsElement (s : Schema α) (x : α) : (s.fieldsElement x).attributes =
    ((Element.named s.element).setAll (s.entries x)).attributes := by
  have hfold : ∀ (fs : List (Field α)) (e : Element),
      (fs.foldl (fun e f => f.write x e) e).attributes =
        (e.setAll (fs.filterMap (·.asAttribute? x))).attributes := by
    intro fs
    induction fs with
    | nil => exact fun _ => rfl
    | cons f fs ih =>
      intro e
      rw [List.foldl_cons, ih, attributes_setAll, Field.attributes_write, ← attributes_setAll,
        List.filterMap_cons]
      cases f.asAttribute? x <;> rfl
  exact hfold s.fields (Element.named s.element)

theorem children_fieldsElement (s : Schema α) (x : α) :
    (s.fieldsElement x).children = s.contents x := by
  have hfold : ∀ (fs : List (Field α)) (e : Element),
      (fs.foldl (fun e f => f.write x e) e).children = e.children ++ fs.flatMap (·.content x) := by
    intro fs
    induction fs with
    | nil => exact fun _ => (List.append_nil _).symm
    | cons f fs ih =>
      intro e
      rw [List.foldl_cons, ih, Field.children_write, List.append_assoc, List.flatMap_cons]
  exact hfold s.fields (Element.named s.element)

/-- The names that come before those of the author: `Id` for an entity with an identifier, then the
names of the fields' attributes, each where it was first written. -/
def leadingNames (s : Schema α) (x : α) (id : Option String) : List String :=
  ((id.map fun _ => "Id").toList ++ (s.entries x).map (·.1)).eraseDups

/-- What is written for an entity with the given identifier, if it has one. -/
structure Renders (s : Schema α) (x : α) (id : Option String) (w : Written) : Prop where
  name : w.element.name = s.element
  distinct : w.element.attributeNames.Nodup
  value : ∀ n, w.element.get? n =
    (if (Attributes.componentName? n).isNone then (s.attributes x).get? n else none).or
      ((if n = "Id" then id else none).or (((s.entries x).findRev? (·.1 == n)).map (·.2)))
  order : w.element.attributeNames = s.leadingNames x id ++
    ((s.attributes x).own.map (·.1)).removeAll (s.leadingNames x id)
  sorted : ((s.attributes x).own.map (·.1)).Pairwise (· < ·)
  children : w.element.children = s.contents x
  component : (w.componentAttributes.map fun a => ("Component:" ++ a.1, a.2)) =
    (s.attributes x).entries.filter fun a => Attributes.componentMark.isPrefixOf a.1.toList

/-- The element before the author's attributes. -/
def identified (s : Schema α) (x : α) (id : Option String) : Element :=
  match id with
  | some id => (s.fieldsElement x).setFirst "Id" id
  | none => s.fieldsElement x

theorem element_complete (s : Schema α) (x : α) (id : Option String) :
    (s.complete x id).element = (s.identified x id).setAll (s.attributes x).own := by
  cases id <;> rfl

theorem attributeNames_identified (s : Schema α) (x : α) (id : Option String) :
    (s.identified x id).attributeNames = s.leadingNames x id := by
  have hfields : (s.fieldsElement x).attributeNames = ((s.entries x).map (·.1)).eraseDups := by
    rw [Element.attributeNames, attributes_fieldsElement]
    have hnamed : (Element.named s.element).attributeNames = [].eraseDups := rfl
    exact Element.attributeNames_setAll hnamed (s.entries x)
  cases id with
  | none => exact hfields
  | some id => exact Element.attributeNames_setFirst hfields "Id" id

theorem get?_identified (s : Schema α) (x : α) (id : Option String) (n : String) :
    (s.identified x id).get? n =
      (if n = "Id" then id else none).or (((s.entries x).findRev? (·.1 == n)).map (·.2)) := by
  have hfields : (s.fieldsElement x).get? n = ((s.entries x).findRev? (·.1 == n)).map (·.2) := by
    have hset := Element.get?_setAll_last (Element.named s.element) (s.entries x) n
    rw [Element.get?, attributes_fieldsElement]
    exact hset.trans (Option.or_none ..)
  cases id with
  | none => simpa [identified] using hfields
  | some id =>
    rw [identified, Element.get?_setFirst, hfields]
    by_cases hn : n = "Id"
    · simp [hn]
    · simp [hn, Ne.symm hn]

theorem children_identified (s : Schema α) (x : α) (id : Option String) :
    (s.identified x id).children = s.contents x := by
  cases id <;> exact children_fieldsElement s x

theorem pairwise_own (as : Attributes) : (as.own.map (·.1)).Pairwise (· < ·) :=
  List.pairwise_map.2 (as.sorted.filter _)

/-- Behind `Component:` stands what is asked of the component, and nothing else is asked of it. -/
theorem map_component (as : Attributes) :
    (as.component.map fun a => ("Component:" ++ a.1, a.2)) =
      as.entries.filter fun a => Attributes.componentMark.isPrefixOf a.1.toList := by
  have hprefix : ∀ name, Attributes.componentMark.isPrefixOf name.toList =
      (Attributes.componentName? name).isSome := by
    intro name
    rw [Attributes.componentName?, Option.isSome_map, Bool.eq_iff_iff, List.isPrefixOf_iff_prefix,
      Option.isSome_iff_exists]
    exact exists_congr fun _ => List.isPrefixOf?_eq_some_iff_append_eq.symm
  rw [Attributes.component, List.map_filterMap]
  induction as.entries with
  | nil => rfl
  | cons a entries ih =>
    rw [List.filterMap_cons, List.filter_cons, hprefix, ih]
    cases hname : Attributes.componentName? a.1 with
    | none => rfl
    | some key =>
      rw [componentName?_eq_some] at hname
      simp [← hname]

theorem complete_renders (s : Schema α) (x : α) (id : Option String) :
    s.Renders x id (s.complete x id) where
  name := complete_name s x id
  distinct := by
    rw [element_complete, Element.attributeNames_setAll (attributeNames_identified s x id)]
    exact nodup_eraseDups _
  value := by
    intro n
    rw [element_complete, get?_setAll_own?, own?_eq, get?_identified]
  order := by
    have hown : ((s.attributes x).own.map (·.1)).Nodup :=
      (pairwise_own _).imp fun h => String.ne_of_lt h
    have hrest : ∀ ns, (((s.attributes x).own.map (·.1)).removeAll ns).eraseDups =
        ((s.attributes x).own.map (·.1)).removeAll ns := fun ns =>
      eraseDups_of_nodup (hown.sublist List.filter_sublist)
    rw [element_complete, Element.attributeNames_setAll (attributeNames_identified s x id),
      List.eraseDups_append, hrest, leadingNames]
    refine congrArg _ (List.filter_congr fun n _ => ?_)
    rw [List.elem_eq_mem, List.elem_eq_mem]
    simp only [List.mem_eraseDups]
  sorted := pairwise_own _
  children := by rw [element_complete, children_setAll, children_identified]
  component := by
    cases id <;> exact map_component _

theorem fst_resolve (s : Schema α) (x : α) (slot : Slot) (ids : Allocator) :
    (s.resolve x slot ids).1 =
      (s.identity x).map fun i => (slot.resolve i.kind i.source ids).1 := by
  unfold resolve
  cases s.identity x <;> rfl

theorem eq_complete_of_write {s : Schema α} {x : α} {slot t : Slot} {ids later : Allocator}
    {w : Written} (h : s.write x slot ids = (.ok w, t, later)) :
    w = s.complete x ((s.identity x).map fun i => (slot.resolve i.kind i.source ids).1) := by
  cases hmissing : s.missing? x with
  | some e => simp [write_of_missing hmissing] at h
  | none =>
    rw [write_of_complete hmissing, fst_resolve] at h
    exact (Except.ok.inj (congrArg Prod.fst h)).symm

/-- Whatever the schema and the entity, where writing succeeds the element has pairwise distinct
attributes. Each has the author's value if there is one, else the identifier if it is the `Id` of an
entity with an identifier, else what the last field under this name gives it. `Id` comes first, then
the names of the fields where each was first written, then those of the author in their order. Below
the element stands what the fields put there, in their order, and the component is asked for what the
author put behind `Component:`. -/
theorem write_renders {s : Schema α} {x : α} {slot t : Slot} {ids later : Allocator} {w : Written}
    (h : s.write x slot ids = (.ok w, t, later)) :
    s.Renders x ((s.identity x).map fun i => (slot.resolve i.kind i.source ids).1) w := by
  rw [eq_complete_of_write h]
  exact complete_renders s x _

/-- A schema whose fields get in each other's way, for entities that are nothing but the author's
attributes. -/
def crowdedSchema : Schema Attributes where
  element := "Sample"
  fields := [
    .required "Name" fun _ => some (.text "a.txt"),
    .optional "Id" fun _ => some (.text "field"),
    (Field.optional "Title" fun _ => some (.text "first")).renamed "Caption",
    .optional "Vital" fun _ => some (.flag true),
    (Field.optional "Parts" fun _ => some (.elements [.named "Part"])).asChildren,
    (Field.optional "Short" fun _ => some (.number 7)).renamed "Caption",
    (Field.withUsual "Long" "usual" fun _ => some (.word "usual")).renamed "Caption",
    (Field.optional "Note" fun _ => some (.text "behind")).asText]
  attributes := id
  identity _ := some ⟨.file, "a.txt", none⟩

/-- What the author of such an entity says. -/
def crowdedAttributes : Attributes :=
  .ofList [("Vital", "no"), ("Component:Win64", "yes"), ("Checksum", "yes"), ("After", "x")]

theorem write_renders_crowded : ∃ w t later,
    crowdedSchema.write crowdedAttributes {} (.empty 0) = (.ok w, t, later) ∧
      crowdedSchema.Renders crowdedAttributes (some "a.txt") w ∧
      w.element.attributes = [("Id", "a.txt"), ("Name", "a.txt"), ("Caption", "7"), ("Vital", "no"),
        ("After", "x"), ("Checksum", "yes")] ∧
      w.componentAttributes = [("Win64", "yes")] := by
  have hid : (crowdedSchema.identity crowdedAttributes).map (fun i =>
      (Slot.resolve {} i.kind i.source (.empty 0)).1) = some "a.txt" := by decide +kernel
  obtain ⟨t, later, hwrite⟩ : ∃ t later, crowdedSchema.write crowdedAttributes {} (.empty 0) =
      (.ok (crowdedSchema.complete crowdedAttributes (some "a.txt")), t, later) := by
    rw [write_of_complete (by decide +kernel), fst_resolve, hid]
    exact ⟨_, _, rfl⟩
  have hrenders := write_renders hwrite
  rw [hid] at hrenders
  exact ⟨_, t, later, hwrite, hrenders, by decide +kernel, by decide +kernel⟩

end Installer.Schema
