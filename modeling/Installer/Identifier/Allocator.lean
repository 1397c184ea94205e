import Installer.Identifier.Name

/-!
# Handing out identifiers

An allocator gives each request an identifier that it has not given before. Requests of one kind
that differ only in letter case are told apart by a counter; what still clashes, with another kind
or with a reserved identifier, gets underscores behind it.

An author may give an entity an identifier. Without one, the entity asks an allocator once and
remembers the answer as long as the allocator's generation lasts.
-/

namespace Installer.Identifier

/-- How often a candidate, letter case aside, was asked for after its first time. -/
structure Counter where
  kind : Kind
  name : String
  repeats : Nat
deriving DecidableEq

/-- The identifiers in use since the allocator was made or reset. The generation tells this span of
its life from every other span of every allocator. -/
structure Allocator where
  generation : Nat
  counters : List Counter
  taken : List String
deriving DecidableEq

namespace Allocator

def empty (generation : Nat) : Allocator :=
  ⟨generation, [], []⟩

def isEmpty (a : Allocator) : Bool :=
  a.taken.isEmpty

/-- Keeps an identifier from being generated. -/
def reserve (a : Allocator) (id : String) : Allocator :=
  if id ∈ a.taken then a else { a with taken := id :: a.taken }

/-- How often the candidate was asked for after its first time, or nothing before that time. -/
def repeats? (a : Allocator) (kind : Kind) (name : String) : Option Nat :=
  (a.counters.find? fun c => c.kind = kind ∧ c.name = name).map (·.repeats)

def countRequest (kind : Kind) (name : String) : List Counter → List Counter
  | [] => [⟨kind, name, 0⟩]
  | c :: cs =>
      if c.kind = kind ∧ c.name = name then { c with repeats := c.repeats + 1 } :: cs
      else c :: countRequest kind name cs

/-- The identifier, or its first form with underscores behind it that is not in use. As many steps
as there are identifiers in use are enough, because no form comes twice. -/
def freshen (taken : List String) : Nat → String → String
  | 0, id => id
  | steps + 1, id => if id ∈ taken then freshen taken steps (id.push '_') else id

/-- The candidate with the number of earlier requests for it, the first one left out. -/
def numbered (candidate : String) : Option Nat → String
  | none => candidate
  | some n => candidate ++ String.ofList ('.' :: Text.decimal (n + 1))

/-- A new identifier for an entity of the given kind and name. -/
def allocate (a : Allocator) (kind : Kind) (raw : String) : String × Allocator :=
  let wanted := candidate kind raw
  let key := Text.fold wanted
  let id := freshen a.taken a.taken.length (numbered wanted (a.repeats? kind key))
  (id, { a with counters := countRequest kind key a.counters, taken := id :: a.taken })

end Allocator

/-- An identifier generated in one generation of an allocator. -/
structure Generated where
  generation : Nat
  id : String
deriving DecidableEq

/-- The identifier an author gave, and the one last generated. -/
structure Slot where
  explicit : Option String := none
  generated : Option Generated := none

namespace Slot

/-- A slot with the identifier that an author gave, if any. -/
def ofExplicit (id : Option String) : Slot :=
  ⟨id, none⟩

def isSet (s : Slot) : Bool :=
  s.explicit.isSome

def set (s : Slot) (id : String) : Slot :=
  { s with explicit := some id }

def cached (s : Slot) (a : Allocator) : Option String :=
  (s.generated.filter fun g => g.generation = a.generation).map (·.id)

/-- Slots are the same when the author gave the same; what was generated does not count. -/
def same (s t : Slot) : Bool :=
  s.explicit == t.explicit

/-- The identifier: the one given, else the one remembered, else a new one. -/
def resolve (s : Slot) (kind : Kind) (raw : String) (a : Allocator) : String × Slot × Allocator :=
  match s.explicit.or (s.cached a) with
  | some id => (id, s, a)
  | none =>
      let (id, b) := a.allocate kind raw
      (id, { s with generated := some ⟨a.generation, id⟩ }, b)

end Slot

end Installer.Identifier
