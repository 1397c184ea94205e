import Installer.Proofs.Identifier.Freshness
import Installer.Proofs.Schema.Writing

/-!
# Identifiers taken one after the other

Entities come by their identifiers in turn. One that its author chose never reaches the allocator;
the others are new and pairwise distinct. So the identifiers of one kind are pairwise distinct where
the chosen ones are, and where none of them happens to be made for another entity.
-/
namespace Installer.Schema
open Identifier

/-- An identifier with what it was made from. -/
structure Named where
  identity : Identity
  id : String

/-- Identifiers taken one after the other, with the allocator behind them. -/
def takeAll (a : Allocator) : List Identity → List Named × Allocator
  | [] => ([], a)
  | i :: is =>
      let rest := takeAll (i.take a).2 is
      (⟨i, (i.take a).1⟩ :: rest.1, rest.2)

theorem takeAll_append (a : Allocator) (is js : List Identity) :
    takeAll a (is ++ js) = ((takeAll a is).1 ++ (takeAll (takeAll a is).2 js).1,
      (takeAll (takeAll a is).2 js).2) := by
  induction is generalizing a with
  | nil => rfl
  | cons i is ih => rw [List.cons_append, takeAll, ih, takeAll, List.cons_append]

theorem map_identity_takeAll (a : Allocator) (is : List Identity) :
    (takeAll a is).1.map (·.identity) = is := by
  induction is generalizing a with
  | nil => rfl
  | cons i is ih => rw [takeAll, List.map_cons, ih]

theorem identity_mem_of_mem_takeAll {a : Allocator} {is : List Identity} {x : Named}
    (hx : x ∈ (takeAll a is).1) : x.identity ∈ is := by
  rw [← map_identity_takeAll a is]
  exact List.mem_map_of_mem hx

/-- An identifier that its author chose is taken as it is. -/
theorem id_of_mem_takeAll {a : Allocator} {is : List Identity} {x : Named}
    (hx : x ∈ (takeAll a is).1) {id : String} (h : x.identity.explicit = some id) : x.id = id := by
  induction is generalizing a with
  | nil => simp [takeAll] at hx
  | cons i is ih =>
    rcases List.mem_cons.1 hx with rfl | hx
    · change (i.take a).1 = id
      rw [Identity.take, show i.explicit = some id from h]
    · exact ih hx

def made (xs : List Named) : List String :=
  (xs.filter (·.identity.explicit.isNone)).map (·.id)

/-- What was handed out after `a` is new, and all of it is in use behind it. -/
structure HandsOut (a : Allocator) (ids : List String) (b : Allocator) : Prop where
  nodup : ids.Nodup
  new : ∀ id ∈ ids, id ∉ a.taken
  taken : ∀ id, id ∈ b.taken ↔ id ∈ ids ∨ id ∈ a.taken

theorem HandsOut.nil (a : Allocator) : HandsOut a [] a :=
  ⟨.nil, by simp, by simp⟩

/-- One more identifier from the allocator, before all others. -/
theorem HandsOut.allocate {a b : Allocator} {kind : Kind} {raw : String} {ids : List String}
    (h : HandsOut (a.allocate kind raw).2 ids b) :
    HandsOut a ((a.allocate kind raw).1 :: ids) b where
  nodup := List.nodup_cons.2
    ⟨fun hmem => h.new _ hmem (by rw [a.taken_allocate]; exact List.mem_cons_self), h.nodup⟩
  new := by
    intro id hid hmem
    rcases List.mem_cons.1 hid with rfl | hid
    · exact a.allocate_not_mem kind raw hmem
    · exact h.new id hid (by rw [a.taken_allocate]; exact List.mem_cons_of_mem _ hmem)
  taken := by
    intro id
    rw [h.taken, a.taken_allocate, List.mem_cons, List.mem_cons]
    tauto

/-- What the allocator makes for a row of entities is new, whatever the others chose. -/
theorem handsOut_takeAll (a : Allocator) (is : List Identity) :
    HandsOut a (made (takeAll a is).1) (takeAll a is).2 := by
  induction is generalizing a with
  | nil => exact .nil a
  | cons i is ih =>
    have hrest := ih (i.take a).2
    rw [takeAll, made, List.filter_cons]
    cases hi : i.explicit with
    | some id =>
      have htake : i.take a = (id, a) := by rw [Identity.take, hi]
      rw [htake] at hrest ⊢
      exact hrest
    | none =>
      have htake : i.take a = a.allocate i.kind i.source := by rw [Identity.take, hi]
      rw [htake] at hrest ⊢
      exact hrest.allocate

def idsOfKind (kind : Kind) (xs : List Named) : List String :=
  (xs.filter (·.identity.kind = kind)).map (·.id)

def madeOfKind (kind : Kind) (xs : List Named) : List String :=
  made (xs.filter (·.identity.kind = kind))

def chosenOfKind (kind : Kind) (is : List Identity) : List String :=
  (is.filter (·.kind = kind)).filterMap (·.explicit)

theorem idsOfKind_append (kind : Kind) (xs ys : List Named) :
    idsOfKind kind (xs ++ ys) = idsOfKind kind xs ++ idsOfKind kind ys := by
  rw [idsOfKind, List.filter_append, List.map_append, idsOfKind, idsOfKind]

theorem chosenOfKind_append (kind : Kind) (is js : List Identity) :
    chosenOfKind kind (is ++ js) = chosenOfKind kind is ++ chosenOfKind kind js := by
  rw [chosenOfKind, List.filter_append, List.filterMap_append, chosenOfKind, chosenOfKind]

theorem madeOfKind_sublist (kind : Kind) (xs : List Named) :
    (madeOfKind kind xs).Sublist (made xs) :=
  (List.filter_sublist.filter _).map _

/-- Where chosen identifiers are taken as they are, a row has the chosen and the made ones. -/
theorem map_id_perm {xs : List Named}
    (h : ∀ x ∈ xs, ∀ id, x.identity.explicit = some id → x.id = id) :
    (xs.map (·.id)).Perm (xs.filterMap (·.identity.explicit) ++ made xs) := by
  induction xs with
  | nil => exact .nil
  | cons x xs ih =>
    obtain ⟨hx, hxs⟩ := List.forall_mem_cons.1 h
    rw [List.map_cons, List.filterMap_cons, made, List.filter_cons]
    cases hid : x.identity.explicit with
    | some id =>
      rw [hx id hid]
      exact (ih hxs).cons id
    | none => exact ((ih hxs).cons x.id).trans List.perm_middle.symm

/-- The identifiers of a kind are those that were chosen and those that were made. -/
theorem idsOfKind_takeAll_perm (a : Allocator) (is : List Identity) (kind : Kind) :
    (idsOfKind kind (takeAll a is).1).Perm
      (chosenOfKind kind is ++ madeOfKind kind (takeAll a is).1) := by
  have hchosen : chosenOfKind kind is =
      ((takeAll a is).1.filter (·.identity.kind = kind)).filterMap (·.identity.explicit) := by
    conv_lhs => rw [← map_identity_takeAll a is]
    rw [chosenOfKind, List.filter_map, List.filterMap_map]
    rfl
  rw [hchosen]
  exact map_id_perm fun x hx _ => id_of_mem_takeAll (List.mem_filter.1 hx).1

/-- The identifiers of a kind are pairwise distinct where the chosen ones are and none of these was
made for another entity. -/
theorem nodup_idsOfKind_iff {a : Allocator} {is : List Identity} {kind : Kind}
    (h : (chosenOfKind kind is).Nodup) :
    (idsOfKind kind (takeAll a is).1).Nodup ↔
      ∀ id ∈ madeOfKind kind (takeAll a is).1, id ∉ chosenOfKind kind is := by
  rw [(idsOfKind_takeAll_perm a is kind).nodup_iff, List.nodup_append']
  constructor
  · rintro ⟨_, _, hdisjoint⟩ id hmade hchosen
    exact hdisjoint hchosen hmade
  · intro hfree
    have hmade := (handsOut_takeAll a is).nodup.sublist (madeOfKind_sublist kind _)
    exact ⟨h, hmade, fun id hchosen hid => hfree id hid hchosen⟩

end Installer.Schema
