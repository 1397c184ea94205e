import Installer.Json.Token
import Installer.Proofs.Identifier.Forms
import Mathlib.Data.List.Chain

/-!
# How a JSON text may be spelled

A token can be spelled in several ways: the characters of a string literal may be escaped or not,
and an exponent has a mark, a sign and leading zeros to choose. Blanks may stand in front of each
token and at the end. Whatever is chosen, the tokens of the text are the ones that were spelled, as
long as no number runs into what is behind it.
-/
namespace Installer

namespace Text

/-- A digit has its place behind the zero as its value. -/
theorem digit?_of_isDigit {c : Char} (h : isDigit c = true) :
    digit? c = some (c.toNat - '0'.toNat) :=
  if_pos h

/-- The text of a number is a row of digits and is not empty. -/
theorem decimal_eq_cons (n : Nat) : ∃ c cs, decimal n = c :: cs ∧ isDigit c = true := by
  obtain ⟨c, cs, hcs⟩ := List.exists_cons_of_ne_nil (show decimal n ≠ [] from Nat.toDigits_ne_nil)
  exact ⟨c, cs, hcs, isDigit_of_mem_decimal (hcs ▸ List.mem_cons_self)⟩

/-- Only the number zero is written with a leading zero. -/
theorem decimal_eq_zero_cons {n : Nat} {cs : List Char} (h : decimal n = '0' :: cs) : n = 0 := by
  induction n using Nat.strongRecOn generalizing cs with
  | ind n ih =>
    rw [decimal, Nat.toDigits_eq_if (by decide)] at h
    by_cases hn : n < 10
    · have hdigits : ∀ d < 10, d.digitChar = '0' → d = 0 := by decide
      rw [if_pos hn] at h
      exact hdigits n hn (List.cons.inj h).1
    · rw [if_neg hn] at h
      obtain ⟨c, ds, hds, _⟩ := decimal_eq_cons (n / 10)
      rw [← decimal, hds, List.cons_append] at h
      obtain ⟨rfl, _⟩ := List.cons.inj h
      have hzero := ih (n / 10) (by omega) hds
      omega

end Text

namespace Json

/-- A row of decimal digits that is not empty. -/
structure IsDigitRow (cs : List Char) : Prop where
  ne_nil : cs ≠ []
  digits : ∀ c ∈ cs, Text.isDigit c = true

/-- The values of a row of digits. -/
def digitValues (cs : List Char) : List Nat :=
  cs.map (·.toNat - '0'.toNat)

/-- How the digits behind a point may be spelled. -/
inductive FractionSpelled : List Nat → List Char → Prop
  | absent : FractionSpelled [] []
  | digits {cs : List Char} (h : IsDigitRow cs) : FractionSpelled (digitValues cs) ('.' :: cs)

/-- How an exponent may be spelled. -/
inductive ExponentSpelled : Option Int → List Char → Prop
  | absent : ExponentSpelled none []
  | unsigned {mark : Char} (hmark : mark ∈ ['e', 'E']) {cs : List Char} (h : IsDigitRow cs) :
      ExponentSpelled (some (Nat.ofDigitChars 10 cs 0)) (mark :: cs)
  | plus {mark : Char} (hmark : mark ∈ ['e', 'E']) {cs : List Char} (h : IsDigitRow cs) :
      ExponentSpelled (some (Nat.ofDigitChars 10 cs 0)) (mark :: '+' :: cs)
  | minus {mark : Char} (hmark : mark ∈ ['e', 'E']) {cs : List Char} (h : IsDigitRow cs) :
      ExponentSpelled (some (-Nat.ofDigitChars 10 cs 0)) (mark :: '-' :: cs)

/-- What follows is nothing that a number could go on with. -/
def EndsNumber (rest : List Char) : Prop :=
  ∀ c ∈ rest.head?, Text.digit? c = none ∧ c ≠ '.' ∧ c ≠ 'e' ∧ c ≠ 'E'

theorem digitRow_append {cs : List Char} (h : ∀ c ∈ cs, Text.isDigit c = true) {rest : List Char}
    (hrest : ∀ c ∈ rest.head?, Text.digit? c = none) :
    digitRow (cs ++ rest) = (digitValues cs, rest) := by
  induction cs with
  | nil =>
    cases rest with
    | nil => rfl
    | cons c rest => simp [digitRow, digitValues, hrest c rfl]
  | cons c cs ih =>
    have hhead := Text.digit?_of_isDigit (h c (by simp))
    have htail := ih fun d hd => h d (by simp [hd])
    simp [digitRow, digitValues, hhead, htail]

theorem digitValue_digitValues (cs : List Char) :
    digitValue (digitValues cs) = Nat.ofDigitChars 10 cs 0 := by
  rw [digitValue, digitValues, List.foldl_map]
  rfl

theorem digitValue_decimal (n : Nat) : digitValue (digitValues (Text.decimal n)) = n := by
  rw [digitValue_digitValues]
  exact Nat.ofDigitChars_toDigits (by decide) (by decide)

theorem digitValues_eq_cons {cs : List Char} (h : IsDigitRow cs) :
    ∃ d ds, digitValues cs = d :: ds :=
  List.exists_cons_of_ne_nil (by simpa [digitValues] using h.ne_nil)

theorem fraction?_append {ds : List Nat} {cs rest : List Char} (h : FractionSpelled ds cs)
    (hrest : ∀ c ∈ rest.head?, Text.digit? c = none ∧ c ≠ '.') :
    fraction? (cs ++ rest) = some (ds, rest) := by
  cases h with
  | absent =>
    rw [List.nil_append]
    unfold fraction?
    split
    · exact absurd rfl (hrest '.' rfl).2
    · rfl
  | @digits cs h =>
    have hrow := digitRow_append h.digits fun c hc => (hrest c hc).1
    obtain ⟨d, ds, hds⟩ := digitValues_eq_cons h
    rw [hds] at hrow ⊢
    simp [fraction?, hrow]

theorem exponentDigits?_append (negative : Bool) {cs rest : List Char} (h : IsDigitRow cs)
    (hrest : EndsNumber rest) :
    exponentDigits? negative (cs ++ rest) = some (some (if negative then
      -(Nat.ofDigitChars 10 cs 0 : Int) else Nat.ofDigitChars 10 cs 0), rest) := by
  have hrow := digitRow_append h.digits fun c hc => (hrest c hc).1
  have hvalue := digitValue_digitValues cs
  obtain ⟨d, ds, hds⟩ := digitValues_eq_cons h
  rw [hds] at hrow hvalue
  simp [exponentDigits?, hrow, hvalue]

theorem exponent?_append {e : Option Int} {cs rest : List Char} (h : ExponentSpelled e cs)
    (hrest : EndsNumber rest) : exponent? (cs ++ rest) = some (e, rest) := by
  have hmark : ∀ {mark : Char}, mark ∈ ['e', 'E'] → (mark == 'e' || mark == 'E') = true := by
    simp
  cases h with
  | absent =>
    cases rest with
    | nil => rfl
    | cons c rest =>
      obtain ⟨_, _, he, hE⟩ := hrest c rfl
      simp [exponent?, he, hE]
  | @unsigned mark h cs hcs =>
    obtain ⟨c, ds, rfl⟩ := List.exists_cons_of_ne_nil hcs.ne_nil
    have hc : Text.isDigit c = true := hcs.digits c List.mem_cons_self
    have hplus : c ≠ '+' := by rintro rfl; exact absurd hc (by decide)
    have hminus : c ≠ '-' := by rintro rfl; exact absurd hc (by decide)
    have hdigits := exponentDigits?_append false hcs hrest
    rw [List.cons_append] at hdigits
    rw [List.cons_append, List.cons_append, exponent?, if_pos (hmark h)]
    · exact hdigits
    · exact fun _ h => hplus (List.cons.inj h).1
    · exact fun _ h => hminus (List.cons.inj h).1
  | @plus mark h cs hcs =>
    rw [List.cons_append, List.cons_append, exponent?, if_pos (hmark h)]
    exact exponentDigits?_append false hcs hrest
  | @minus mark h cs hcs =>
    rw [List.cons_append, List.cons_append, exponent?, if_pos (hmark h)]
    exact exponentDigits?_append true hcs hrest

/-- An exponent goes on with no digit and no point, and neither does what follows a number. -/
theorem head?_exponent {e : Option Int} {cs rest : List Char} (h : ExponentSpelled e cs)
    (hrest : EndsNumber rest) : ∀ c ∈ (cs ++ rest).head?, Text.digit? c = none ∧ c ≠ '.' := by
  have hmarks : ∀ c ∈ ['e', 'E'], Text.digit? c = none ∧ c ≠ '.' := by
    intro c hc
    simp only [List.mem_cons, List.not_mem_nil, or_false] at hc
    rcases hc with rfl | rfl <;> decide
  cases h with
  | absent => exact fun c hc => ⟨(hrest c hc).1, (hrest c hc).2.1⟩
  | unsigned h _ | plus h _ | minus h _ => simpa using hmarks _ h

theorem head?_fraction {ds : List Nat} {cs rest : List Char} (h : FractionSpelled ds cs)
    (hrest : ∀ c ∈ rest.head?, Text.digit? c = none ∧ c ≠ '.') :
    ∀ c ∈ (cs ++ rest).head?, Text.digit? c = none := by
  cases h with
  | absent => exact fun c hc => (hrest c hc).1
  | digits _ => simpa using (by decide : Text.digit? '.' = none)

/-- A number is read back from its digits, its fraction and its exponent. -/
theorem numberBody_append (negative : Bool) (n : Nat) {ds : List Nat} {e : Option Int}
    {fs es rest : List Char} (hfraction : FractionSpelled ds fs) (hexponent : ExponentSpelled e es)
    (hrest : EndsNumber rest) :
    numberBody negative (Text.decimal n ++ (fs ++ (es ++ rest))) =
      some (.number ⟨negative, n, ds, e⟩, rest) := by
  have hbehind := head?_exponent hexponent hrest
  have hfs := fraction?_append hfraction hbehind
  have hes := exponent?_append hexponent hrest
  have hrow := digitRow_append (fun c => Text.isDigit_of_mem_decimal (n := n) (c := c))
    (head?_fraction hfraction hbehind)
  have hvalue := digitValue_decimal n
  generalize fs ++ (es ++ rest) = more at hfs hrow ⊢
  obtain ⟨c, cs, hcs, _⟩ := Text.decimal_eq_cons n
  rw [hcs] at hrow hvalue ⊢
  by_cases hc : c = '0'
  · subst hc
    obtain rfl := Text.decimal_eq_zero_cons hcs
    obtain ⟨_, rfl⟩ := List.cons.inj hcs
    simp [numberBody, hfs, hes]
  · rw [digitValues, List.map_cons] at hrow hvalue
    rw [List.cons_append] at hrow ⊢
    generalize c.toNat - '0'.toNat = d at hrow hvalue
    generalize cs.map (·.toNat - '0'.toNat) = ds' at hrow hvalue
    simp [numberBody, hc, hrow, hvalue, hfs, hes]

/-- The letters behind a backslash, with the characters that they stand for. -/
def letterEscapes : List (Char × Char) := [
  ('\x22', '\x22'), ('\\', '\\'), ('/', '/'), ('b', '\x08'), ('f', '\x0c'), ('n', '\n'),
  ('r', '\r'), ('t', '\t')]

/-- A piece of a string literal: a character that stands for itself, an escape of one letter, or an
escaped code unit. -/
inductive Piece where
  | plain (c : Char) (h : c ≠ '\x22' ∧ c ≠ '\\' ∧ 0x20 ≤ c.toNat)
  | letter (e : Char × Char) (h : e ∈ letterEscapes)
  | unit (a b c d : Char) (n : Nat) (h : codeUnit? a b c d = some n)

/-- The characters that spell a piece. -/
def Piece.chars : Piece → List Char
  | .plain c _ => [c]
  | .letter e _ => ['\\', e.1]
  | .unit a b c d _ _ => ['\\', 'u', a, b, c, d]

/-- What a row of pieces names. The halves of a surrogate pair make one character, and half of a
pair alone makes none. -/
def named : List Piece → Option (List Char)
  | [] => some []
  | .plain c _ :: ps => (named ps).map (c :: ·)
  | .letter e _ :: ps => (named ps).map (e.2 :: ·)
  | .unit _ _ _ _ n _ :: ps =>
      if isHighSurrogate n then
        match ps with
        | .unit _ _ _ _ m _ :: ps =>
            if isLowSurrogate m then (named ps).map (pairChar n m :: ·) else none
        | _ => none
      else if isLowSurrogate n then none
      else (named ps).map (Char.ofNat n :: ·)

theorem stringBody_plain {c : Char} (h : c ≠ '\x22' ∧ c ≠ '\\' ∧ 0x20 ≤ c.toNat) (cs : List Char) :
    stringBody (c :: cs) = prepend c (stringBody cs) := by
  obtain ⟨hquote, hslash, hcontrol⟩ := h
  rw [stringBody]
  · rw [if_neg (by omega)]
  · exact hquote
  · exact fun _ _ _ _ _ h => absurd h hslash
  · exact fun _ _ h => absurd h hslash

theorem stringBody_letter {e : Char × Char} (h : e ∈ letterEscapes) (cs : List Char) :
    stringBody ('\\' :: e.1 :: cs) = prepend e.2 (stringBody cs) := by
  have hletters : ∀ e ∈ letterEscapes, e.1 ≠ 'u' ∧ escaped? e.1 = some e.2 := by decide
  obtain ⟨hu, hescaped⟩ := hletters e h
  rw [stringBody]
  · rw [hescaped]
  · exact fun _ _ _ _ _ h => absurd h hu

section

variable {a b c d : Char} {n : Nat} (h : codeUnit? a b c d = some n)
include h

/-- Half of a pair is not alone where the other half follows. -/
theorem stringBody_unit_unit (hhigh : isHighSurrogate n = true) {a' b' c' d' : Char} {m : Nat}
    (h' : codeUnit? a' b' c' d' = some m) (cs : List Char) :
    stringBody ('\\' :: 'u' :: a :: b :: c :: d :: '\\' :: 'u' :: a' :: b' :: c' :: d' :: cs) =
      if isLowSurrogate m then prepend (pairChar n m) (stringBody cs)
      else unpaired (stringBody cs) := by
  rw [stringBody, h]
  simp only [hhigh, if_true, h']

theorem stringBody_unit_of_high (hhigh : isHighSurrogate n = true) {cs : List Char}
    (hcs : ∀ ds, cs ≠ '\\' :: 'u' :: ds) :
    stringBody ('\\' :: 'u' :: a :: b :: c :: d :: cs) = unpaired (stringBody cs) := by
  rw [stringBody, h]
  simp only [hhigh, if_true]
  split
  · exact absurd rfl (hcs _)
  · rfl

theorem stringBody_unit_of_not_high (hhigh : isHighSurrogate n = false) (cs : List Char) :
    stringBody ('\\' :: 'u' :: a :: b :: c :: d :: cs) =
      if isLowSurrogate n then unpaired (stringBody cs)
      else prepend (Char.ofNat n) (stringBody cs) := by
  rw [stringBody, h]
  simp only [hhigh, Bool.false_eq_true, if_false]

end

theorem named_unit_of_not_high {a b c d : Char} {n : Nat} (h : codeUnit? a b c d = some n)
    (hhigh : isHighSurrogate n = false) (ps : List Piece) :
    named (.unit a b c d n h :: ps) =
      if isLowSurrogate n then none else (named ps).map (Char.ofNat n :: ·) := by
  cases ps with
  | nil => simp [named, hhigh]
  | cons p ps => cases p <;> simp [named, hhigh]

/-- A string literal is read up to its closing quote, piece by piece. -/
theorem stringBody_pieces (rest : List Char) : ∀ ps : List Piece,
    stringBody (ps.flatMap Piece.chars ++ '\x22' :: rest) = some (named ps, rest)
  | [] => by
    rw [List.flatMap_nil, List.nil_append, stringBody, named]
  | .plain c h :: ps => by
    change stringBody (c :: (ps.flatMap Piece.chars ++ '\x22' :: rest)) = _
    rw [stringBody_plain h, stringBody_pieces rest ps]
    rfl
  | .letter e h :: ps => by
    change stringBody ('\\' :: e.1 :: (ps.flatMap Piece.chars ++ '\x22' :: rest)) = _
    rw [stringBody_letter h, stringBody_pieces rest ps]
    rfl
  | .unit a b c d n h :: ps => by
    have hps := stringBody_pieces rest ps
    change stringBody ('\\' :: 'u' :: a :: b :: c :: d ::
      (ps.flatMap Piece.chars ++ '\x22' :: rest)) = _
    cases hhigh : isHighSurrogate n with
    | false =>
      rw [stringBody_unit_of_not_high h hhigh, named_unit_of_not_high h hhigh, hps]
      split <;> rfl
    | true =>
      -- A code unit behind the first half is taken along, whether it is the other half or not.
      match ps with
      | .unit a' b' c' d' m h' :: ps =>
        have hmore := stringBody_pieces rest ps
        change stringBody ('\\' :: 'u' :: a :: b :: c :: d :: '\\' :: 'u' :: a' :: b' :: c' :: d' ::
          (ps.flatMap Piece.chars ++ '\x22' :: rest)) = _
        rw [stringBody_unit_unit h hhigh h', named, if_pos hhigh, hmore]
        split <;> rfl
      | [] =>
        rw [stringBody_unit_of_high h hhigh (by simp), hps]
        simp [named, hhigh, unpaired]
      | .plain c' h' :: ps =>
        rw [stringBody_unit_of_high h hhigh (by simp [Piece.chars, h'.2.1]), hps]
        simp [named, hhigh, unpaired]
      | .letter e h' :: ps =>
        have hletters : ∀ e ∈ letterEscapes, e.1 ≠ 'u' := by decide
        rw [stringBody_unit_of_high h hhigh (by simp [Piece.chars, hletters e h']), hps]
        simp [named, hhigh, unpaired]

/-- A number token. -/
def Token.isNumber : Token → Bool
  | .number _ => true
  | _ => false

/-- How a token may be spelled. -/
inductive Token.SpelledAs : Token → List Char → Prop
  | openArray : SpelledAs .openArray ['[']
  | closeArray : SpelledAs .closeArray [']']
  | openObject : SpelledAs .openObject ['\x7b']
  | closeObject : SpelledAs .closeObject ['\x7d']
  | comma : SpelledAs .comma [',']
  | colon : SpelledAs .colon [':']
  | null : SpelledAs .null ['n', 'u', 'l', 'l']
  | yes : SpelledAs (.bool true) ['t', 'r', 'u', 'e']
  | no : SpelledAs (.bool false) ['f', 'a', 'l', 's', 'e']
  | number (negative : Bool) (n : Nat) {ds : List Nat} {e : Option Int} {fs es : List Char}
      (hfraction : FractionSpelled ds fs) (hexponent : ExponentSpelled e es) :
      SpelledAs (.number ⟨negative, n, ds, e⟩)
        ((if negative then ['-'] else []) ++ (Text.decimal n ++ (fs ++ es)))
  | string (ps : List Piece) :
      SpelledAs (.string ((named ps).map String.ofList))
        ('\x22' :: (ps.flatMap Piece.chars ++ ['\x22']))

theorem token?_of_isDigit {c : Char} (h : Text.isDigit c = true) (cs : List Char) :
    token? (c :: cs) = numberBody false (c :: cs) := by
  have hne : ∀ d, Text.isDigit d = false → c ≠ d := by
    rintro d hd rfl
    exact absurd h (by simp [hd])
  unfold token?
  split
  all_goals first | rfl | exact absurd (List.cons.inj ‹_›).1 (hne _ (by decide))

/-- A token is read off any of its spellings. -/
theorem token?_append {t : Token} {cs rest : List Char} (h : t.SpelledAs cs)
    (hrest : t.isNumber = true → EndsNumber rest) : token? (cs ++ rest) = some (t, rest) := by
  cases h with
  | @number negative n ds e fs es hfraction hexponent =>
    have hbody := numberBody_append negative n hfraction hexponent (hrest rfl)
    simp only [List.append_assoc]
    cases negative with
    | true => exact hbody
    | false =>
      obtain ⟨c, cs, hcs, hdigit⟩ := Text.decimal_eq_cons n
      rw [hcs] at hbody
      simp only [hcs, Bool.false_eq_true, if_false, List.nil_append, List.cons_append]
      rw [token?_of_isDigit hdigit]
      exact hbody
  | string ps =>
    rw [List.cons_append, List.append_assoc, token?, List.singleton_append, stringBody_pieces]
    rfl
  | _ => rfl

/-- A token begins with no blank, and another token than a number with nothing that goes on with a
number. -/
theorem Token.SpelledAs.eq_cons {t : Token} {cs : List Char} (h : t.SpelledAs cs) :
    ∃ c ds, cs = c :: ds ∧ isSpace c = false ∧
      (t.isNumber = false → Text.digit? c = none ∧ c ≠ '.' ∧ c ≠ 'e' ∧ c ≠ 'E') := by
  cases h with
  | @number negative n ds e fs es hfraction hexponent =>
    obtain ⟨c, cs, hcs, hdigit⟩ := Text.decimal_eq_cons n
    have hspace : isSpace c = false := by
      rw [Bool.eq_false_iff]
      intro hc
      simp only [isSpace, Bool.or_eq_true, beq_iff_eq] at hc
      rcases hc with ((rfl | rfl) | rfl) | rfl <;> exact absurd hdigit (by decide)
    rw [hcs]
    cases negative with
    | true => exact ⟨'-', _, rfl, rfl, fun h => absurd h (by simp [isNumber])⟩
    | false => exact ⟨c, _, rfl, hspace, fun h => absurd h (by simp [isNumber])⟩
  | string ps => exact ⟨'\x22', _, rfl, by decide, fun _ => by decide⟩
  | _ => exact ⟨_, _, rfl, by decide⟩

/-- The characters that mean nothing between tokens. -/
def blanks : List Char :=
  [' ', '\t', '\n', '\r']

/-- A row of tokens is spelled one token after the other, with blanks wherever one likes. -/
inductive Spaced : List Token → List Char → Prop
  | nil {bs : List Char} (hbs : bs ⊆ blanks) : Spaced [] bs
  | cons {bs cs rest : List Char} {t : Token} {ts : List Token} (hbs : bs ⊆ blanks)
      (ht : t.SpelledAs cs) (hrest : Spaced ts rest) : Spaced (t :: ts) (bs ++ (cs ++ rest))

/-- No number stands right before another one. -/
def Separated (ts : List Token) : Prop :=
  ts.IsChain fun t u => t.isNumber = true → u.isNumber = false

theorem isSpace_of_mem_blanks : ∀ c ∈ blanks, isSpace c = true :=
  List.all_eq_true.1 rfl

/-- Blanks are passed by. -/
theorem dropWhile_blanks {bs : List Char} (hbs : bs ⊆ blanks) (cs : List Char) :
    (bs ++ cs).dropWhile isSpace = cs.dropWhile isSpace :=
  List.dropWhile_append_of_pos fun c hc => isSpace_of_mem_blanks c (hbs hc)

theorem Spaced.endsNumber {t : Token} {ts : List Token} {cs : List Char} (h : Spaced ts cs)
    (hsep : Separated (t :: ts)) (ht : t.isNumber = true) : EndsNumber cs := by
  have hblank : ∀ b ∈ blanks, Text.digit? b = none ∧ b ≠ '.' ∧ b ≠ 'e' ∧ b ≠ 'E' := by
    intro b hb
    simp only [blanks, List.mem_cons, List.not_mem_nil, or_false] at hb
    rcases hb with rfl | rfl | rfl | rfl <;> decide
  -- Behind a number stands a blank, the next token, or nothing.
  cases h with
  | @nil bs hbs => exact fun c hc => hblank c (hbs (List.mem_of_mem_head? hc))
  | @cons bs cs rest u ts hbs hu hrest =>
    cases bs with
    | cons b bs => simpa [EndsNumber] using hblank b (hbs List.mem_cons_self)
    | nil =>
      obtain ⟨c, ds, rfl, _, hends⟩ := hu.eq_cons
      simpa [EndsNumber] using hends ((List.isChain_cons_cons.1 hsep).1 ht)

theorem tokensWithin_of_blank {cs : List Char} (h : cs.dropWhile isSpace = []) (limit : Nat) :
    tokensWithin limit cs = some [] := by
  unfold tokensWithin
  simp only [h]

/-- Behind its blanks a text begins with a token. -/
theorem tokensWithin_succ {cs : List Char} (h : cs.dropWhile isSpace ≠ []) (limit : Nat) :
    tokensWithin (limit + 1) cs =
      (token? (cs.dropWhile isSpace)).bind fun p => (tokensWithin limit p.2).map (p.1 :: ·) := by
  obtain ⟨c, ds, hcs⟩ := List.exists_cons_of_ne_nil h
  conv_lhs => unfold tokensWithin
  simp only [hcs]
  cases token? (c :: ds) <;> simp only [Option.bind_none, Option.bind_some]

theorem Spaced.tokensWithin {ts : List Token} {cs : List Char} (h : Spaced ts cs)
    (hsep : Separated ts) {limit : Nat} (hlimit : ts.length ≤ limit) :
    tokensWithin limit cs = some ts := by
  induction h generalizing limit with
  | @nil bs hbs => exact tokensWithin_of_blank (by simpa using dropWhile_blanks hbs []) limit
  | @cons bs cs rest t ts hbs ht hrest ih =>
    obtain ⟨limit, rfl⟩ : ∃ n, limit = n + 1 := ⟨limit - 1, by simp at hlimit; omega⟩
    have hread := token?_append ht (hrest.endsNumber hsep)
    have hmore : Json.tokensWithin limit rest = some ts := ih hsep.tail (by simpa using hlimit)
    obtain ⟨c, ds, rfl, hspace, _⟩ := ht.eq_cons
    have hdrop : (bs ++ (c :: ds ++ rest)).dropWhile isSpace = c :: ds ++ rest := by
      rw [dropWhile_blanks hbs, List.cons_append, List.dropWhile_cons_of_neg (by simp [hspace])]
    rw [tokensWithin_succ (by rw [hdrop]; simp), hdrop, hread, Option.bind_some, hmore]
    rfl

theorem Spaced.length_le {ts : List Token} {cs : List Char} (h : Spaced ts cs) :
    ts.length ≤ cs.length := by
  induction h with
  | nil => exact Nat.zero_le _
  | cons hbs ht hrest ih =>
    obtain ⟨c, ds, rfl, _⟩ := ht.eq_cons
    simp only [List.length_append, List.length_cons]
    omega

/-- The tokens of a text are the ones that were spelled in it. -/
theorem Spaced.tokens {ts : List Token} {cs : List Char} (h : Spaced ts cs) (hsep : Separated ts) :
    tokens cs = some ts :=
  h.tokensWithin hsep h.length_le

end Json

end Installer
