import Installer.Payload.Setting
import Installer.Proofs.Identifier.Generations
import Installer.Proofs.Schema.Writing

/-!
# Writes that fail

An entity is not written where a required field has no value, and the first such field is the one
complained about. The identifier would have been taken last, so nothing was taken: sessions with and
without the failed write cannot be told apart, whatever is done in them from then on.
-/
namespace Installer
open Identifier

namespace Schema

variable {α : Type}

/-- A field has to be there and has no value, an empty text or an empty row of elements. -/
def Field.Lacks (f : Field α) (x : α) : Prop :=
  f.presence = .required ∧
    (f.value x = none ∨ f.value x = some (.text "") ∨ f.value x = some (.elements []))

/-- The complaint is about the first field that lacks its value. -/
def FirstLack (s : Schema α) (x : α) (e : MissingValue) : Prop :=
  ∃ before f after, s.fields = before ++ f :: after ∧ (∀ g ∈ before, ¬g.Lacks x) ∧ f.Lacks x ∧
    e = ⟨f.name, s.element⟩

theorem Field.isMissing_iff (f : Field α) (x : α) : f.isMissing x = true ↔ f.Lacks x := by
  unfold isMissing Lacks value?
  rw [Bool.and_eq_true, beq_iff_eq]
  refine and_congr_right fun _ => ?_
  cases f.value x with
  | none => simp
  | some v => cases v <;> simp [Value.isAbsent, Option.filter]

theorem missing?_eq_some_iff {s : Schema α} {x : α} {e : MissingValue} :
    s.missing? x = some e ↔ s.FirstLack x e := by
  unfold missing? FirstLack
  simp only [Option.map_eq_some_iff, List.find?_eq_some_iff_append, Bool.not_eq_true',
    ← Bool.not_eq_true, Field.isMissing_iff]
  constructor
  · rintro ⟨f, ⟨hf, before, after, hfields, hbefore⟩, rfl⟩
    exact ⟨before, f, after, hfields, hbefore, hf, rfl⟩
  · rintro ⟨before, f, after, hfields, hbefore, hf, rfl⟩
    exact ⟨f, ⟨hf, before, after, hfields, hbefore⟩, rfl⟩

theorem missing?_isSome_iff {s : Schema α} {x : α} :
    (∃ e, s.missing? x = some e) ↔ ∃ f ∈ s.fields, f.Lacks x := by
  rw [← Option.isSome_iff_exists, missing?, Option.isSome_map, List.find?_isSome]
  simp only [Field.isMissing_iff]

theorem fst_write_eq_error {s : Schema α} {x : α} {slot : Slot} {ids : Allocator}
    {e : MissingValue} : (s.write x slot ids).1 = .error e ↔ s.missing? x = some e := by
  cases h : s.missing? x with
  | none => simp [write_of_complete h]
  | some d => simp [write_of_missing h]

/-- What can be done in a session whose slots belong to entities: any operation of it, or writing an
entity by any schema, with its slot and one of the allocators. -/
inductive Move : Type 1 where
  | operation (op : Operation)
  | write {α : Type} (s : Schema α) (x : α) (slot : String) (allocator : Nat)

/-- What comes of it. -/
inductive Outcome where
  | answer (a : Answer)
  | written (r : Except MissingValue Written)

end Schema

namespace Identifier.Session
open Schema

/-- One move. As with operations, what names no allocator or slot of the session changes nothing. -/
def move (u : Session) : Move → Outcome × Session
  | .operation op => (.answer (u.step op).1, (u.step op).2)
  | .write s x name i =>
      match u.slot? name, u.allocators[i]? with
      | some slot, some a =>
          let (result, t, b) := s.write x slot a
          (.written result, (u.putSlot name t).putAllocator i b)
      | _, _ => (.answer .unknown, u)

/-- What comes of a row of moves, with the session behind them. -/
def play (u : Session) : List Move → List Outcome × Session
  | [] => ([], u)
  | m :: ms =>
      let (outcome, v) := u.move m
      let (outcomes, w) := v.play ms
      (outcome :: outcomes, w)

/-- The sessions have the same allocators, and the same slot under every name. -/
structure Alike (u v : Session) : Prop where
  next : u.nextGeneration = v.nextGeneration
  allocators : u.allocators = v.allocators
  slots : ∀ name, u.slot? name = v.slot? name

namespace Alike

variable {u v : Session} (h : Alike u v)
include h

theorem putSlot (name : String) (x : Slot) : Alike (u.putSlot name x) (v.putSlot name x) where
  next := h.next
  allocators := h.allocators
  slots key := by rw [slot?_putSlot, slot?_putSlot, h.slots]

theorem putAllocator (i : Nat) (a : Allocator) :
    Alike (u.putAllocator i a) (v.putAllocator i a) where
  next := h.next
  allocators := congrArg (·.set i a) h.allocators
  slots := h.slots

theorem renew (i : Nat) : Alike
    { u.putAllocator i (.empty u.nextGeneration) with nextGeneration := u.nextGeneration + 1 }
    { v.putAllocator i (.empty v.nextGeneration) with
      nextGeneration := v.nextGeneration + 1 } where
  next := congrArg (· + 1) h.next
  allocators := by
    change u.allocators.set i _ = v.allocators.set i _
    rw [h.allocators, h.next]
  slots := h.slots

theorem make : Alike (u.step .make).2 (v.step .make).2 where
  next := congrArg (· + 1) h.next
  allocators := by
    change u.allocators ++ _ = v.allocators ++ _
    rw [h.allocators, h.next]
  slots := h.slots

/-- No operation makes a difference between sessions that are alike. -/
theorem step (op : Operation) :
    (u.step op).1 = (v.step op).1 ∧ Alike (u.step op).2 (v.step op).2 := by
  cases op with
  | make => exact ⟨by simp only [Session.step, h.allocators], h.make⟩
  | allocate i kind name =>
    simp only [Session.step, ← h.allocators]
    cases u.allocators[i]? with
    | none => exact ⟨rfl, h⟩
    | some a => exact ⟨rfl, h.putAllocator i _⟩
  | reserve i id =>
    simp only [Session.step, ← h.allocators]
    cases u.allocators[i]? with
    | none => exact ⟨rfl, h⟩
    | some a => exact ⟨rfl, h.putAllocator i _⟩
  | reset i =>
    simp only [Session.step, ← h.allocators]
    cases u.allocators[i]? with
    | none => exact ⟨rfl, h⟩
    | some a => exact ⟨by rw [h.next], h.renew i⟩
  | askEmpty i =>
    simp only [Session.step, ← h.allocators]
    cases u.allocators[i]? <;> exact ⟨rfl, h⟩
  | declare name id => exact ⟨rfl, h.putSlot name _⟩
  | copy name source i =>
    simp only [Session.step, ← h.allocators, ← h.slots]
    cases u.slot? source with
    | none => exact ⟨rfl, h⟩
    | some x =>
      cases u.allocators[i]? with
      | none => exact ⟨rfl, h⟩
      | some a => exact ⟨rfl, h.putSlot name x⟩
  | assign name id =>
    simp only [Session.step, ← h.slots]
    cases u.slot? name with
    | none => exact ⟨rfl, h⟩
    | some x => exact ⟨rfl, h.putSlot name _⟩
  | look name i =>
    simp only [Session.step, ← h.allocators, ← h.slots]
    cases u.slot? name <;> cases u.allocators[i]? <;> exact ⟨rfl, h⟩
  | resolve name i kind raw =>
    simp only [Session.step, ← h.allocators, ← h.slots]
    cases u.slot? name with
    | none => exact ⟨rfl, h⟩
    | some x =>
      cases u.allocators[i]? with
      | none => exact ⟨rfl, h⟩
      | some a => exact ⟨rfl, (h.putSlot name _).putAllocator i _⟩
  | compare name other =>
    simp only [Session.step, ← h.slots]
    cases u.slot? name <;> cases u.slot? other <;> exact ⟨rfl, h⟩

/-- No move does. -/
theorem move (m : Move) : (u.move m).1 = (v.move m).1 ∧ Alike (u.move m).2 (v.move m).2 := by
  cases m with
  | operation op =>
    obtain ⟨hanswer, hafter⟩ := h.step op
    exact ⟨congrArg Outcome.answer hanswer, hafter⟩
  | write s x name i =>
    simp only [Session.move, ← h.allocators, ← h.slots]
    cases u.slot? name with
    | none => exact ⟨rfl, h⟩
    | some slot =>
      cases u.allocators[i]? with
      | none => exact ⟨rfl, h⟩
      | some a => exact ⟨rfl, (h.putSlot name _).putAllocator i _⟩

/-- No row of moves does. -/
theorem play (ms : List Move) :
    (u.play ms).1 = (v.play ms).1 ∧ Alike (u.play ms).2 (v.play ms).2 := by
  induction ms generalizing u v with
  | nil => exact ⟨rfl, h⟩
  | cons m ms ih =>
    obtain ⟨houtcome, hafter⟩ := h.move m
    obtain ⟨houtcomes, hlast⟩ := ih hafter
    exact ⟨congrArg₂ List.cons houtcome houtcomes, hlast⟩

end Alike

variable {α : Type} {u : Session} {i : Nat}

/-- A write that fails puts back the slot and the allocator that it was given. -/
theorem move_of_missing {s : Schema α} {x : α} {e : MissingValue} (h : s.missing? x = some e)
    {name : String} {slot : Slot} (hslot : u.slot? name = some slot) {ids : Allocator}
    (hids : u.allocators[i]? = some ids) : (u.move (.write s x name i)).1 = .written (.error e) ∧
      Alike (u.move (.write s x name i)).2 u := by
  simp only [move, hslot, hids, write_of_missing h, true_and]
  refine ⟨rfl, ?_, fun key => ?_⟩
  · obtain ⟨hi, hget⟩ := List.getElem?_eq_some_iff.1 hids
    change u.allocators.set i ids = u.allocators
    rw [← hget, List.set_getElem_self]
  · rw [slot?_putAllocator, slot?_putSlot]
    split
    · next hkey => rw [← hkey, hslot]
    · rfl

end Identifier.Session

namespace Schema

variable {α : Type}

/-- Writing an entity fails where some required field lacks its value, and only there; the complaint
is about the first such field; and slot and allocator are what they were. Whatever the session and
whatever is done in it later, everything comes out as if nobody had tried. -/
theorem failed_write_leaves_no_trace (s : Schema α) (x : α) (slot : Slot) (ids : Allocator) :
    ((∃ e, (s.write x slot ids).1 = .error e) ↔ ∃ f ∈ s.fields, f.Lacks x) ∧
      ∀ e, ((s.write x slot ids).1 = .error e ↔ s.FirstLack x e) ∧
        ((s.write x slot ids).1 = .error e → (s.write x slot ids).2 = (slot, ids) ∧
          ∀ (u : Session) (name : String) (i : Nat), u.slot? name = some slot →
            u.allocators[i]? = some ids → ∀ later : List Move,
              (u.play (.write s x name i :: later)).1 =
                .written (.error e) :: (u.play later).1 ∧
              (u.play (.write s x name i :: later)).2.Alike (u.play later).2) := by
  simp only [fst_write_eq_error]
  refine ⟨missing?_isSome_iff, fun e => ⟨missing?_eq_some_iff, fun h => ⟨?_, ?_⟩⟩⟩
  · rw [write_of_missing h]
  · intro u name i hslot hids later
    obtain ⟨houtcome, hafter⟩ := Session.move_of_missing h hslot hids
    obtain ⟨houtcomes, hlast⟩ := hafter.play later
    exact ⟨congrArg₂ List.cons houtcome houtcomes, hlast⟩

/-- Two registry values of one name in a session, the first of them without a key: the second one
gets the identifier that the first would have had. -/
theorem failed_write_leaves_no_trace_registry :
    let broken : RegistryValue := { key := "", name := some "Version" }
    let whole : RegistryValue := { key := "Software", name := some "Version" }
    let u : Session := ⟨1, [.empty 0], [("broken", {}), ("whole", {})]⟩
    let later : List Move := [.write RegistryValue.schema whole "whole" 0]
    (u.play (.write RegistryValue.schema broken "broken" 0 :: later)).1 =
        .written (.error ⟨"Key", "RegistryValue"⟩) :: (u.play later).1 ∧
      ((u.play later).2.slot? "whole").bind (·.generated) = some ⟨0, "Version"⟩ := by
  intro broken whole u later
  have hfails : (RegistryValue.schema.write broken {} (.empty 0)).1 =
      .error ⟨"Key", "RegistryValue"⟩ := fst_write_eq_error.2 (by decide +kernel)
  obtain ⟨-, hall⟩ := failed_write_leaves_no_trace RegistryValue.schema broken {} (.empty 0)
  obtain ⟨-, htrace⟩ := (hall _).2 hfails
  exact ⟨(htrace u "broken" 0 rfl rfl later).1, by decide +kernel⟩

end Schema

end Installer
