import Installer.Json.Basic
import Installer.Text.Basic

/-!
# The tokens of a JSON text

A JSON text is a row of tokens with blanks between them. Two texts that differ only in blanks
between tokens have the same tokens.
-/

namespace Installer.Json

/-- A token: a bracket, a separator, or a value that is no array and no object. -/
inductive Token where
  | openArray
  | closeArray
  | openObject
  | closeObject
  | comma
  | colon
  | null
  | bool (b : Bool)
  | number (n : Number)
  | string (s : Option String)
deriving DecidableEq

/-- The characters that may stand between tokens. -/
def isSpace (c : Char) : Bool :=
  c == ' ' || c == '\n' || c == '\r' || c == '\t'

/-- The number that four hexadecimal digits write. -/
def codeUnit? (a b c d : Char) : Option Nat := do
  let a ← Text.hexDigit? a
  let b ← Text.hexDigit? b
  let c ← Text.hexDigit? c
  let d ← Text.hexDigit? d
  return ((a * 16 + b) * 16 + c) * 16 + d

/-- The character that an escape of one letter writes. -/
def escaped? : Char → Option Char
  | '\x22' => some '\x22'
  | '\\' => some '\\'
  | '/' => some '/'
  | 'b' => some '\x08'
  | 'f' => some '\x0c'
  | 'n' => some '\n'
  | 'r' => some '\r'
  | 't' => some '\t'
  | _ => none

/-- The first half of a surrogate pair. -/
def isHighSurrogate (n : Nat) : Bool :=
  0xD800 ≤ n && n ≤ 0xDBFF

/-- The second half of a surrogate pair. -/
def isLowSurrogate (n : Nat) : Bool :=
  0xDC00 ≤ n && n ≤ 0xDFFF

/-- The character of a surrogate pair. -/
def pairChar (high low : Nat) : Char :=
  Char.ofNat (0x10000 + (high - 0xD800) * 0x400 + (low - 0xDC00))

/-- What a string literal names, read so far: a character in front of it. -/
def prepend (c : Char) (r : Option (Option (List Char) × List Char)) :
    Option (Option (List Char) × List Char) :=
  r.map fun p => (p.1.map (c :: ·), p.2)

/-- What a string literal names, read so far, when it escapes half of a surrogate pair. -/
def unpaired (r : Option (Option (List Char) × List Char)) :
    Option (Option (List Char) × List Char) :=
  r.map fun p => (none, p.2)

/-- The characters of a string literal up to its closing quote, and what follows. An escaped first
half of a surrogate pair takes the escape behind it for the second half, or stands alone. -/
def stringBody : List Char → Option (Option (List Char) × List Char)
  | [] => none
  | '\x22' :: rest => some (some [], rest)
  | '\\' :: 'u' :: a :: b :: c :: d :: rest =>
      match codeUnit? a b c d with
      | none => none
      | some n =>
          if isHighSurrogate n then
            match rest with
            | '\\' :: 'u' :: a' :: b' :: c' :: d' :: rest' =>
                match codeUnit? a' b' c' d' with
                | none => none
                | some m =>
                    if isLowSurrogate m then prepend (pairChar n m) (stringBody rest')
                    else unpaired (stringBody rest')
            | rest => unpaired (stringBody rest)
          else if isLowSurrogate n then unpaired (stringBody rest)
          else prepend (Char.ofNat n) (stringBody rest)
  | '\\' :: c :: rest =>
      match escaped? c with
      | some c => prepend c (stringBody rest)
      | none => none
  | c :: rest => if c.toNat < 0x20 then none else prepend c (stringBody rest)

/-- The leading decimal digits, as values, and what follows. -/
def digitRow : List Char → List Nat × List Char
  | [] => ([], [])
  | c :: cs =>
      match Text.digit? c with
      | some d => let (ds, rest) := digitRow cs; (d :: ds, rest)
      | none => ([], c :: cs)

def digitValue (ds : List Nat) : Nat :=
  ds.foldl (fun n d => 10 * n + d) 0

/-- The digits behind a point, if there is one. -/
def fraction? : List Char → Option (List Nat × List Char)
  | '.' :: cs =>
      match digitRow cs with
      | ([], _) => none
      | (ds, rest) => some (ds, rest)
  | cs => some ([], cs)

/-- The digits of an exponent behind its sign. -/
def exponentDigits? (negative : Bool) (cs : List Char) : Option (Option Int × List Char) :=
  match digitRow cs with
  | ([], _) => none
  | (ds, rest) =>
      some (some (if negative then -Int.ofNat (digitValue ds) else Int.ofNat (digitValue ds)), rest)

/-- The exponent, if there is one. -/
def exponent? : List Char → Option (Option Int × List Char)
  | c :: cs =>
      if c == 'e' || c == 'E' then
        match cs with
        | '+' :: cs => exponentDigits? false cs
        | '-' :: cs => exponentDigits? true cs
        | cs => exponentDigits? false cs
      else some (none, c :: cs)
  | [] => some (none, [])

/-- A number behind its sign. A zero ends the digits before the point. -/
def numberBody (negative : Bool) (cs : List Char) : Option (Token × List Char) :=
  let whole := match cs with
    | '0' :: rest => some (0, rest)
    | cs => match digitRow cs with
      | ([], _) => none
      | (ds, rest) => some (digitValue ds, rest)
  do
    let (n, cs) ← whole
    let (ds, cs) ← fraction? cs
    let (e, cs) ← exponent? cs
    return (.number ⟨negative, n, ds, e⟩, cs)

/-- The first token of a text that begins with no blank, and what follows it. -/
def token? : List Char → Option (Token × List Char)
  | '[' :: cs => some (.openArray, cs)
  | ']' :: cs => some (.closeArray, cs)
  | '\x7b' :: cs => some (.openObject, cs)
  | '\x7d' :: cs => some (.closeObject, cs)
  | ',' :: cs => some (.comma, cs)
  | ':' :: cs => some (.colon, cs)
  | 'n' :: 'u' :: 'l' :: 'l' :: cs => some (.null, cs)
  | 't' :: 'r' :: 'u' :: 'e' :: cs => some (.bool true, cs)
  | 'f' :: 'a' :: 'l' :: 's' :: 'e' :: cs => some (.bool false, cs)
  | '\x22' :: cs => (stringBody cs).map fun p => (.string (p.1.map String.ofList), p.2)
  | '-' :: cs => numberBody true cs
  | cs => numberBody false cs

/-- The tokens of a text, at most `limit` of them. -/
def tokensWithin (limit : Nat) (cs : List Char) : Option (List Token) :=
  match limit, cs.dropWhile isSpace with
  | _, [] => some []
  | 0, _ => none
  | limit + 1, cs =>
      match token? cs with
      | some (t, rest) => (tokensWithin limit rest).map (t :: ·)
      | none => none

def tokens (cs : List Char) : Option (List Token) :=
  tokensWithin cs.length cs

end Installer.Json
