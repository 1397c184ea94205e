/-!
# Elements

The output document is a tree of elements. An element has attributes with distinct names, in the
order in which the names were first set, and content that is made of elements, texts and character
data.
-/

namespace Installer.Markup

/-- A child of an element: an element, a text, or character data. -/
inductive Content (Child : Type) where
  | element (e : Child)
  | text (s : String)
  | cdata (s : String)

/-- An element with its attributes and its content in document order. -/
structure Element where
  name : String
  attributes : List (String × String) := []
  children : List (Content Element) := []
deriving Inhabited

/-- The attributes with a new value for `name`: in its place if the name is there, else at the end. -/
def setAttribute (name value : String) : List (String × String) → List (String × String)
  | [] => [(name, value)]
  | a :: as => if a.1 = name then (name, value) :: as else a :: setAttribute name value as

namespace Content

/-- The text of a text or of character data. -/
def text? {Child : Type} : Content Child → Option String
  | .element _ => none
  | .text s => some s
  | .cdata s => some s

def element? {Child : Type} : Content Child → Option Child
  | .element e => some e
  | .text _ => none
  | .cdata _ => none

end Content

namespace Element

def named (name : String) : Element :=
  { name }

/-- The element with an attribute set. An attribute that is there keeps its place. -/
def set (e : Element) (name value : String) : Element :=
  { e with attributes := setAttribute name value e.attributes }

/-- The element with an attribute set before all others. -/
def setFirst (e : Element) (name value : String) : Element :=
  { e with attributes := (name, value) :: e.attributes.filter (·.1 != name) }

/-- The element with a list of attributes set one after the other. -/
def setAll (e : Element) (attributes : List (String × String)) : Element :=
  attributes.foldl (fun e a => e.set a.1 a.2) e

def push (e : Element) (child : Element) : Element :=
  { e with children := e.children ++ [.element child] }

def pushAll (e : Element) (more : List Element) : Element :=
  { e with children := e.children ++ more.map .element }

def pushText (e : Element) (s : String) : Element :=
  { e with children := e.children ++ [.text s] }

def pushCData (e : Element) (s : String) : Element :=
  { e with children := e.children ++ [.cdata s] }

def get? (e : Element) (name : String) : Option String :=
  (e.attributes.find? (·.1 == name)).map (·.2)

/-- The texts and character data right below the element, put together. -/
def text (e : Element) : String :=
  (e.children.filterMap Content.text?).foldl (· ++ ·) ""

def elements (e : Element) : List Element :=
  e.children.filterMap Content.element?

def childrenNamed (e : Element) (name : String) : List Element :=
  e.elements.filter (·.name == name)

def child? (e : Element) (name : String) : Option Element :=
  e.elements.find? (·.name == name)

/-- An element has a name and an attribute with a value. -/
def hasValue (name key value : String) (e : Element) : Bool :=
  e.name == name && e.get? key == some value

/-- The first element right below with a name and an attribute value. -/
def childWhere? (e : Element) (name key value : String) : Option Element :=
  e.elements.find? (hasValue name key value)

/-- A change to the first element right below that passes a test. -/
def modifyFirst (p : Element → Bool) (f : Element → Element) :
    List (Content Element) → List (Content Element)
  | [] => []
  | .element c :: rest =>
      if p c then .element (f c) :: rest else .element c :: modifyFirst p f rest
  | c :: rest => c :: modifyFirst p f rest

/-- A change to the first element right below with a name and an attribute value. -/
def modifyWhere (e : Element) (name key value : String) (f : Element → Element) : Element :=
  { e with children := modifyFirst (hasValue name key value) f e.children }

/-- A change to every element right below the element. -/
def modifyElements (e : Element) (f : Element → Element) : Element :=
  { e with
    children := e.children.map fun
      | .element c => .element (f c)
      | c => c }

/-- All elements below the element, each before those below it. -/
def descendants : Element → List Element
  | ⟨_, _, children⟩ => below children
where
  below : List (Content Element) → List Element
    | [] => []
    | .element c :: rest => (c :: c.descendants) ++ below rest
    | .text _ :: rest => below rest
    | .cdata _ :: rest => below rest

/-- All elements of a name below the element, in document order. -/
def descendantsNamed (e : Element) (name : String) : List Element :=
  e.descendants.filter (·.name == name)

/-- Equality of names, attributes, their order, and content. -/
def same : Element → Element → Bool
  | ⟨n, as, cs⟩, ⟨m, bs, ds⟩ => n == m && as == bs && sameContent cs ds
where
  sameContent : List (Content Element) → List (Content Element) → Bool
    | [], [] => true
    | .element c :: cs, .element d :: ds => c.same d && sameContent cs ds
    | .text s :: cs, .text t :: ds => s == t && sameContent cs ds
    | .cdata s :: cs, .cdata t :: ds => s == t && sameContent cs ds
    | _, _ => false

@[simp] theorem set_name (e : Element) (name value : String) : (e.set name value).name = e.name := rfl

@[simp] theorem set_children (e : Element) (name value : String) :
    (e.set name value).children = e.children := rfl

@[simp] theorem push_attributes (e c : Element) : (e.push c).attributes = e.attributes := rfl

@[simp] theorem elements_push (e c : Element) : (e.push c).elements = e.elements ++ [c] := by
  simp [elements, push, Content.element?]

@[simp] theorem elements_pushText (e : Element) (s : String) : (e.pushText s).elements = e.elements := by
  simp [elements, pushText, Content.element?]

end Element

end Installer.Markup
