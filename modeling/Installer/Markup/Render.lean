import Installer.Markup.Element
import Installer.Text.Pieces

/-!
# The written form of a document

A document is written with one tag to a line, indented by two blanks for each level. Right behind a
text or character data no line is broken, so that neither gains white space.
-/

namespace Installer.Markup

/-- The written form of a character in a text or in an attribute's value. -/
def escapeChar : Char → List Char
  | '<' => ['&', 'l', 't', ';']
  | '>' => ['&', 'g', 't', ';']
  | '&' => ['&', 'a', 'm', 'p', ';']
  | '\x27' => ['&', 'a', 'p', 'o', 's', ';']
  | '\x22' => ['&', 'q', 'u', 'o', 't', ';']
  | c => [c]

def escape (s : String) : List Char :=
  s.toList.flatMap escapeChar

/-- What closes a section of character data. -/
def terminator : List Char := [']', ']', '>']

/-- Behind its first `skip` characters, the text cut inside every terminator, between its brackets
and its last character. -/
def sectionsFrom : Nat → List Char → List (List Char)
  | _, [] => [[]]
  | skip + 1, _ :: cs => sectionsFrom skip cs
  | 0, c :: cs =>
      if terminator.isPrefixOf (c :: cs) then
        match sectionsFrom 2 cs with
        | [] => [[']', ']'], ['>']]
        | piece :: pieces => [']', ']'] :: ('>' :: piece) :: pieces
      else match sectionsFrom 0 cs with
        | [] => [[c]]
        | piece :: pieces => (c :: piece) :: pieces

/-- Character data as sections without a terminator in them. -/
def cdataSections (s : String) : List (List Char) :=
  sectionsFrom 0 s.toList

def cdataSection (cs : List Char) : List Char :=
  "<![CDATA[".toList ++ cs ++ terminator

/-- A new line indented to a level. -/
def newLine (level : Nat) : List Char :=
  '\n' :: List.replicate (2 * level) ' '

/-- An attribute with the blank in front of it. -/
def writeAttribute (a : String × String) : List Char :=
  ' ' :: a.1.toList ++ '=' :: '\x22' :: escape a.2 ++ ['\x22']

/-- The name and the attributes of an element. -/
def tagBody (name : String) (attributes : List (String × String)) : List Char :=
  name.toList ++ attributes.flatMap writeAttribute

/-- A line may be broken behind a row of children: the last one is an element, or there is none. -/
def breaksAfter (before : Bool) : List (Content Element) → Bool
  | [] => before
  | .element _ :: rest => breaksAfter true rest
  | .text _ :: rest => breaksAfter false rest
  | .cdata _ :: rest => breaksAfter false rest

/-- An element without the line break before it. -/
def writeElement (level : Nat) : Element → List Char
  | ⟨name, attributes, children⟩ =>
      if children.isEmpty then '<' :: tagBody name attributes ++ ['/', '>']
      else
        '<' :: tagBody name attributes ++ '>' :: writeChildren (level + 1) true children ++
          (if breaksAfter true children then newLine level else []) ++
          '<' :: '/' :: name.toList ++ ['>']
where
  /-- A row of children. `breaks` says whether a line may be broken before the first. -/
  writeChildren (level : Nat) (breaks : Bool) : List (Content Element) → List Char
    | [] => []
    | .element e :: rest =>
        (if breaks then newLine level else []) ++ writeElement level e ++
          writeChildren level true rest
    | .text s :: rest => escape s ++ writeChildren level false rest
    | .cdata s :: rest =>
        (cdataSections s).flatMap cdataSection ++ writeChildren level false rest

/-- The line that opens a document. -/
def declaration : List Char :=
  "<?xml version=\"1.0\" encoding=\"utf-8\"?>".toList

/-- A whole document with the element at its root. -/
def render (root : Element) : String :=
  String.ofList (declaration ++ newLine 0 ++ writeElement 0 root ++ ['\n'])

end Installer.Markup
