/-!
# Pieces of texts

Replacement scans from the left and goes on behind what it has replaced, so occurrences never overlap
and a replacement is not searched again. A text is cut at single characters. A line ends in a line feed
or in a carriage return and a line feed; what follows the last line feed is a line unless it is empty.
-/

namespace Installer.Text

/-- `cs` with the occurrences of `pat` that start at or after position `skip` replaced by `new`;
the first `skip` characters are dropped. -/
def replaceFrom (pat new : List Char) : Nat → List Char → List Char
  | _, [] => []
  | skip + 1, _ :: cs => replaceFrom pat new skip cs
  | 0, c :: cs =>
      if pat.isPrefixOf (c :: cs) then new ++ replaceFrom pat new (pat.length - 1) cs
      else c :: replaceFrom pat new 0 cs

/-- Every occurrence of the nonempty `pat` replaced by `new`, from left to right. -/
def replaceAll (pat new cs : List Char) : List Char :=
  replaceFrom pat new 0 cs

/-- The pieces between the characters with property `p`; `n` such characters make `n + 1` pieces. -/
def splitAt (p : Char → Bool) : List Char → List (List Char)
  | [] => [[]]
  | c :: cs =>
      if p c then [] :: splitAt p cs
      else match splitAt p cs with
        | [] => [[c]]
        | piece :: pieces => (c :: piece) :: pieces

/-- The pieces joined with `sep` between each two. -/
def joinWith (sep : List Char) : List (List Char) → List Char
  | [] => []
  | [piece] => piece
  | piece :: pieces => piece ++ sep ++ joinWith sep pieces

theorem splitAt_ne_nil (p : Char → Bool) (cs : List Char) : splitAt p cs ≠ [] := by
  cases cs with
  | nil => simp [splitAt]
  | cons c cs => rw [splitAt]; split <;> (try split) <;> simp

/-- A line without the carriage return at its end. -/
def dropReturn (cs : List Char) : List Char :=
  if cs.getLast? = some '\r' then cs.dropLast else cs

/-- The lines among pieces between line feeds. -/
def linesOf : List (List Char) → List (List Char)
  | [] => []
  | [piece] => if piece.isEmpty then [] else [piece]
  | piece :: pieces => dropReturn piece :: linesOf pieces

def lines (s : String) : List String :=
  (linesOf (splitAt (· == '\n') s.toList)).map String.ofList

end Installer.Text
