import Installer.Json.Basic
import Installer.Text.Basic
import Installer.Text.Pieces

/-!
# Writing JSON

A value is written on one line without blanks, or with each item and each member on a line of its
own, indented by two blanks for each level. Of the characters of a text only quotes, backslashes
and the controls below U+0020 are escaped.
-/

namespace Installer.Json

def quoteChar (c : Char) : List Char :=
  match c with
  | '\x22' => ['\\', '\x22']
  | '\\' => ['\\', '\\']
  | '\x08' => ['\\', 'b']
  | '\x0c' => ['\\', 'f']
  | '\n' => ['\\', 'n']
  | '\r' => ['\\', 'r']
  | '\t' => ['\\', 't']
  | c =>
      if c.toNat < 0x20 then
        '\\' :: 'u' :: '0' :: '0' :: Text.hexByte (UInt8.ofNat c.toNat)
      else [c]

/-- A string literal for a text. Where there is no text, half of a surrogate pair stands for it. -/
def quote : Option String → List Char
  | some s => '\x22' :: s.toList.flatMap quoteChar ++ ['\x22']
  | none => "\"\\ud800\"".toList

def writeNumber (n : Number) : List Char :=
  (if n.negative then ['-'] else []) ++ Text.decimal n.whole ++
    (if n.fraction.isEmpty then [] else '.' :: n.fraction.flatMap Text.decimal) ++
    match n.exponent with
    | none => []
    | some e => 'e' :: Text.integer e

def write : Json → List Char
  | .null => ['n', 'u', 'l', 'l']
  | .bool true => ['t', 'r', 'u', 'e']
  | .bool false => ['f', 'a', 'l', 's', 'e']
  | .number n => writeNumber n
  | .string s => quote s
  | .array [] => ['[', ']']
  | .array (j :: js) => '[' :: write j ++ writeItems js ++ [']']
  | .object [] => ['\x7b', '\x7d']
  | .object ((name, j) :: ms) =>
      '\x7b' :: quote name ++ ':' :: write j ++ writeMembers ms ++ ['\x7d']
where
  writeItems : List Json → List Char
    | [] => []
    | j :: js => ',' :: write j ++ writeItems js
  writeMembers : List (Option String × Json) → List Char
    | [] => []
    | (name, j) :: ms => ',' :: quote name ++ ':' :: write j ++ writeMembers ms

/-- A value on one line. -/
def compact (j : Json) : String :=
  String.ofList (write j)

/-- The line break before an item of the given level. -/
def lineBreak (level : Nat) : List Char :=
  '\n' :: List.replicate (2 * level) ' '

/-- A value over several lines, at the given level. -/
def layOut (level : Nat) : Json → List Char
  | .array (j :: js) =>
      '[' :: lineBreak (level + 1) ++ layOut (level + 1) j ++ layOutItems (level + 1) js ++
        lineBreak level ++ [']']
  | .object ((name, j) :: ms) =>
      '\x7b' :: lineBreak (level + 1) ++ quote name ++ ':' :: ' ' :: layOut (level + 1) j ++
        layOutMembers (level + 1) ms ++ lineBreak level ++ ['\x7d']
  | .array [] => ['[', ']']
  | .object [] => ['\x7b', '\x7d']
  | .null => ['n', 'u', 'l', 'l']
  | .bool true => ['t', 'r', 'u', 'e']
  | .bool false => ['f', 'a', 'l', 's', 'e']
  | .number n => writeNumber n
  | .string s => quote s
where
  layOutItems (level : Nat) : List Json → List Char
    | [] => []
    | j :: js => ',' :: lineBreak level ++ layOut level j ++ layOutItems level js
  layOutMembers (level : Nat) : List (Option String × Json) → List Char
    | [] => []
    | (name, j) :: ms =>
        ',' :: lineBreak level ++ quote name ++ ':' :: ' ' :: layOut level j ++
          layOutMembers level ms

def pretty (j : Json) : String :=
  String.ofList (layOut 0 j)

end Installer.Json
