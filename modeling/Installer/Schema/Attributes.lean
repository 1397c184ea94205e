/-!
# Verbatim attributes

An author may give an entity attributes that are written as they stand, in the order of their names.
A name behind `Component:` addresses the component that encloses the entity instead of the entity's
own element.
-/

namespace Installer.Schema

/-- The entries with a new value for `name`, in the order of their names. -/
def insertEntry (name value : String) : List (String × String) → List (String × String)
  | [] => [(name, value)]
  | a :: as =>
      if name < a.1 then (name, value) :: a :: as
      else if name = a.1 then (name, value) :: as
      else a :: insertEntry name value as

theorem fst_mem_insertEntry {name value : String} {as : List (String × String)}
    {b : String × String} (h : b ∈ insertEntry name value as) :
    b = (name, value) ∨ b ∈ as := by
  induction as with
  | nil => exact Or.inl (by simpa [insertEntry] using h)
  | cons a as ih =>
      rw [insertEntry] at h
      split at h
      · simpa using h
      · split at h
        · rcases List.mem_cons.1 h with h | h
          · exact Or.inl h
          · exact Or.inr (List.mem_cons_of_mem _ h)
        · rcases List.mem_cons.1 h with h | h
          · exact Or.inr (by simp [h])
          · exact (ih h).imp id (List.mem_cons_of_mem _)

theorem pairwise_insertEntry {name value : String} {as : List (String × String)}
    (h : as.Pairwise fun a b => a.1 < b.1) :
    (insertEntry name value as).Pairwise fun a b => a.1 < b.1 := by
  induction as with
  | nil => simp [insertEntry]
  | cons a as ih =>
      obtain ⟨head, tail⟩ := List.pairwise_cons.1 h
      rw [insertEntry]
      split
      case isTrue less =>
        refine List.pairwise_cons.2 ⟨fun b hb => ?_, h⟩
        rcases List.mem_cons.1 hb with rfl | hb
        · exact less
        · exact String.lt_trans less (head b hb)
      case isFalse notLess =>
        split
        case isTrue same =>
          exact List.pairwise_cons.2 ⟨fun b hb => same ▸ head b hb, tail⟩
        case isFalse other =>
          refine List.pairwise_cons.2 ⟨fun b hb => ?_, ih tail⟩
          rcases fst_mem_insertEntry hb with rfl | hb
          · exact String.not_le.1 fun le => other (String.le_antisymm le (String.not_lt.1 notLess))
          · exact head b hb

/-- Verbatim attributes: one value for each name, in the order of the names. -/
structure Attributes where
  entries : List (String × String)
  sorted : entries.Pairwise fun a b => a.1 < b.1
deriving DecidableEq

namespace Attributes

def empty : Attributes :=
  ⟨[], .nil⟩

instance : Inhabited Attributes := ⟨empty⟩

def isEmpty (as : Attributes) : Bool :=
  as.entries.isEmpty

/-- The attributes with one set. -/
def insert (as : Attributes) (name value : String) : Attributes :=
  ⟨insertEntry name value as.entries, pairwise_insertEntry as.sorted⟩

/-- The attributes with others set over them, one after the other. -/
def insertAll (as : Attributes) (others : List (String × String)) : Attributes :=
  others.foldl (fun as a => as.insert a.1 a.2) as

/-- A list of attributes, of which the last of a name counts. -/
def ofList (entries : List (String × String)) : Attributes :=
  empty.insertAll entries

/-- The attributes with all of another set over them. -/
def extend (as other : Attributes) : Attributes :=
  as.insertAll other.entries

def get? (as : Attributes) (name : String) : Option String :=
  (as.entries.find? (·.1 == name)).map (·.2)

/-- What stands before the names that address the enclosing component. -/
def componentMark : List Char :=
  "Component:".toList

/-- The attribute of the enclosing component that a name addresses. -/
def componentName? (name : String) : Option String :=
  (componentMark.isPrefixOf? name.toList).map String.ofList

def own (as : Attributes) : List (String × String) :=
  as.entries.filter fun a => (componentName? a.1).isNone

def component (as : Attributes) : List (String × String) :=
  as.entries.filterMap fun a => (componentName? a.1).map (·, a.2)

end Attributes

end Installer.Schema
