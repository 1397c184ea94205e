import Installer.Identifier.Allocator

/-!
# Histories of allocators and slots

A session holds any number of allocators, numbered in the order of their making, and of named slots.
Every generation in it is new: none is shared by two allocators and none comes back after a reset.
-/

namespace Installer.Identifier

/-- Allocators, slots, and the first generation not used yet. -/
structure Session where
  nextGeneration : Nat
  allocators : List Allocator
  slots : List (String × Slot)

/-- What can be done with the allocators and slots of a session. -/
inductive Operation where
  | make
  | allocate (allocator : Nat) (kind : Kind) (name : String)
  | reserve (allocator : Nat) (id : String)
  | reset (allocator : Nat)
  | askEmpty (allocator : Nat)
  | declare (slot : String) (id : Option String)
  | copy (slot source : String) (allocator : Nat)
  | assign (slot id : String)
  | look (slot : String) (allocator : Nat)
  | resolve (slot : String) (allocator : Nat) (kind : Kind) (name : String)
  | compare (slot other : String)

inductive Answer where
  | number (n : Nat)
  | id (id : String)
  | optionalId (id : Option String)
  | flag (b : Bool)
  | renewed (empty newGeneration : Bool)
  | slot (set : Bool) (explicit cached : Option String)
  | unknown
deriving DecidableEq

namespace Session

def initial : Session :=
  ⟨1, [Allocator.empty 0], []⟩

def slot? (s : Session) (name : String) : Option Slot :=
  (s.slots.find? (·.1 == name)).map (·.2)

def putSlot (s : Session) (name : String) (slot : Slot) : Session :=
  { s with slots := (name, slot) :: s.slots.filter (·.1 != name) }

def putAllocator (s : Session) (i : Nat) (a : Allocator) : Session :=
  { s with allocators := s.allocators.set i a }

/-- One operation. What names no allocator or slot of the session changes nothing. -/
def step (s : Session) : Operation → Answer × Session
  | .make =>
      (.number s.allocators.length,
        { s with
          nextGeneration := s.nextGeneration + 1
          allocators := s.allocators ++ [Allocator.empty s.nextGeneration] })
  | .allocate i kind name =>
      match s.allocators[i]? with
      | some a => let (id, b) := a.allocate kind name; (.id id, s.putAllocator i b)
      | none => (.unknown, s)
  | .reserve i id =>
      match s.allocators[i]? with
      | some a => let b := a.reserve id; (.flag b.isEmpty, s.putAllocator i b)
      | none => (.unknown, s)
  | .reset i =>
      match s.allocators[i]? with
      | some a =>
          let b := Allocator.empty s.nextGeneration
          (.renewed b.isEmpty (b.generation != a.generation),
            { s.putAllocator i b with nextGeneration := s.nextGeneration + 1 })
      | none => (.unknown, s)
  | .askEmpty i =>
      match s.allocators[i]? with
      | some a => (.flag a.isEmpty, s)
      | none => (.unknown, s)
  | .declare name id =>
      let slot := Slot.ofExplicit id
      (.flag slot.isSet, s.putSlot name slot)
  | .copy name source i =>
      match s.slot? source, s.allocators[i]? with
      | some slot, some a => (.optionalId (slot.cached a), s.putSlot name slot)
      | _, _ => (.unknown, s)
  | .assign name id =>
      match s.slot? name with
      | some slot => (.id id, s.putSlot name (slot.set id))
      | none => (.unknown, s)
  | .look name i =>
      match s.slot? name, s.allocators[i]? with
      | some slot, some a => (.slot slot.isSet slot.explicit (slot.cached a), s)
      | _, _ => (.unknown, s)
  | .resolve name i kind raw =>
      match s.slot? name, s.allocators[i]? with
      | some slot, some a =>
          let (id, t, b) := slot.resolve kind raw a
          (.id id, (s.putSlot name t).putAllocator i b)
      | _, _ => (.unknown, s)
  | .compare name other =>
      match s.slot? name, s.slot? other with
      | some a, some b => (.flag (a.same b), s)
      | _, _ => (.unknown, s)

/-- The answers to a row of operations, with the session behind them. -/
def run (s : Session) : List Operation → List Answer × Session
  | [] => ([], s)
  | op :: ops =>
      let (answer, t) := s.step op
      let (answers, u) := t.run ops
      (answer :: answers, u)

end Session

end Installer.Identifier
