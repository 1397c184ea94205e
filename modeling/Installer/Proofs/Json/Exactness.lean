import Installer.Proofs.Json.ReadBack

/-!
# What the reader takes

The reader takes no text but those that the grammar spells. Each token that it finds stands there in
one of its spellings, and while it puts a value together, what it holds is what it was given so far.
-/
namespace Installer.Json

/-- The tokens of items that each have a comma behind them. -/
def listed (js : List Json) : List Token :=
  js.flatMap fun j => tokensOf j ++ [.comma]

/-- The tokens of members that each have a comma behind them. -/
def listedMembers (ms : List (Option String × Json)) : List Token :=
  ms.flatMap fun m => .string m.1 :: .colon :: (tokensOf m.2 ++ [.comma])

theorem tokensOf_array_concat (js : List Json) (j : Json) :
    tokensOf (.array (js ++ [j])) = .openArray :: (listed js ++ tokensOf j) ++ [.closeArray] := by
  have hmore : ∀ (ks : List Json) (k : Json), tokensOf k ++ tokensOf.itemTokens (ks ++ [j]) =
      listed (k :: ks) ++ tokensOf j := by
    intro ks
    induction ks with
    | nil => intro k; simp [tokensOf.itemTokens, listed]
    | cons l ks ih =>
      intro k
      have hl := ih l
      simp only [listed, List.flatMap_cons, List.append_assoc] at hl ⊢
      rw [List.cons_append, tokensOf.itemTokens, hl]
      simp
  cases js with
  | nil => simp [tokensOf, tokensOf.itemTokens, listed]
  | cons k ks => rw [List.cons_append, tokensOf, hmore]; rfl

theorem tokensOf_object_concat (ms : List (Option String × Json)) (name : Option String)
    (j : Json) : tokensOf (.object (ms ++ [(name, j)])) =
      .openObject :: (listedMembers ms ++ .string name :: .colon :: tokensOf j) ++
        [.closeObject] := by
  have hmore : ∀ (ns : List (Option String × Json)) (n : Option String × Json),
      .string n.1 :: .colon :: (tokensOf n.2 ++ tokensOf.memberTokens (ns ++ [(name, j)])) =
        listedMembers (n :: ns) ++ .string name :: .colon :: tokensOf j := by
    intro ns
    induction ns with
    | nil => intro n; simp [tokensOf.memberTokens, listedMembers]
    | cons m ns ih =>
      intro n
      have hm := ih m
      simp only [listedMembers, List.flatMap_cons, List.append_assoc] at hm ⊢
      rw [List.cons_append, tokensOf.memberTokens]
      simp [hm]
  cases ms with
  | nil => simp [tokensOf, tokensOf.memberTokens, listedMembers]
  | cons m ms =>
    have hm := hmore ms m
    rw [List.cons_append, tokensOf]
    simp [← hm]

/-- The tokens of an array or an object up to the value that is missing. -/
def Frame.begun : Frame → List Token
  | .array before => .openArray :: listed before.reverse
  | .object before name => .openObject :: (listedMembers before.reverse ++ [.string name, .colon])

/-- The tokens of the innermost part, as far as they came. -/
def Expectation.begun : Expectation → List Token
  | .value => []
  | .firstValue => [.openArray]
  | .firstName => [.openObject]
  | .name before => .openObject :: listedMembers before.reverse
  | .colon before key => .openObject :: (listedMembers before.reverse ++ [.string key])
  | .afterValue j => tokensOf j

/-- The tokens that a reading was given. -/
def Reading.given (r : Reading) : List Token :=
  r.stack.reverse.flatMap Frame.begun ++ r.expect.begun

theorem given_eq (e : Expectation) (stack : List Frame) :
    (Reading.mk e stack).given = stack.reverse.flatMap Frame.begun ++ e.begun :=
  rfl

/-- Where a value must come, the token begins it. -/
theorem given_beginValue {t : Token} {stack : List Frame} {r : Reading}
    (h : beginValue t stack = some r) : r.given = stack.reverse.flatMap Frame.begun ++ [t] := by
  unfold beginValue at h
  split at h
  case h_7 => cases h
  all_goals
    obtain rfl := Option.some.inj h
    simp [given_eq, Expectation.begun, tokensOf]

/-- A reading that takes a token was given this token last. -/
theorem given_step {r s : Reading} {t : Token} (h : r.step t = some s) :
    s.given = r.given ++ [t] := by
  obtain ⟨expect, stack⟩ := r
  unfold Reading.step at h
  split at h
  case h_1 hvalue =>
    obtain rfl : expect = .value := hvalue
    rw [given_beginValue h, given_eq, Expectation.begun, List.append_nil]
  case h_3 hvalue _ =>
    obtain rfl : expect = .firstValue := hvalue
    rw [given_beginValue h, given_eq]
    simp [Expectation.begun, Frame.begun, listed]
  case h_12 => cases h
  all_goals
    obtain rfl := Option.some.inj h
    simp_all [given_eq, Expectation.begun, Frame.begun, tokensOf, listed, listedMembers,
      tokensOf_array_concat, tokensOf_object_concat]

theorem given_run {r s : Reading} {ts : List Token} (h : r.run ts = some s) :
    s.given = r.given ++ ts := by
  induction ts generalizing r with
  | nil =>
    obtain rfl := Option.some.inj h
    exact (List.append_nil _).symm
  | cons t ts ih =>
    obtain ⟨q, hstep, hrun⟩ := Option.bind_eq_some_iff.1 h
    rw [ih hrun, given_step hstep, List.append_assoc, List.singleton_append]

/-- A row of tokens is taken exactly if it is the tokens of a value. -/
theorem ofTokens?_eq_some_iff {ts : List Token} {j : Json} :
    ofTokens? ts = some j ↔ ts = tokensOf j := by
  constructor
  · intro h
    obtain ⟨⟨expect, stack⟩, hrun, hresult⟩ := Option.bind_eq_some_iff.1 h
    have hgiven := given_run hrun
    unfold Reading.result? at hresult
    split at hresult
    case h_1 value hexpect hstack =>
      obtain rfl : expect = .afterValue value := hexpect
      obtain rfl : stack = [] := hstack
      obtain rfl := Option.some.inj hresult
      exact hgiven.symm
    case h_2 => cases hresult
  · rintro rfl
    have hrun := writes_tokensOf j [] []
    rw [List.append_nil] at hrun
    rw [ofTokens?, hrun]
    rfl

theorem digit?_eq_some {c : Char} {d : Nat} (h : Text.digit? c = some d) :
    Text.isDigit c = true ∧ d = c.toNat - '0'.toNat := by
  unfold Text.digit? at h
  split at h
  case isTrue hdigit => exact ⟨hdigit, (Option.some.inj h).symm⟩
  case isFalse => cases h

theorem digitRow_eq {cs rest : List Char} {ds : List Nat} (h : digitRow cs = (ds, rest)) :
    ∃ row, cs = row ++ rest ∧ ds = digitValues row ∧ ∀ c ∈ row, Text.isDigit c = true := by
  induction cs generalizing ds with
  | nil =>
    obtain ⟨rfl, rfl⟩ := Prod.mk.inj h
    exact ⟨[], rfl, rfl, by simp⟩
  | cons c cs ih =>
    rw [digitRow] at h
    cases hc : Text.digit? c with
    | none =>
      rw [hc] at h
      obtain ⟨rfl, rfl⟩ := Prod.mk.inj h
      exact ⟨[], rfl, rfl, by simp⟩
    | some d =>
      rw [hc] at h
      obtain ⟨rfl, rfl⟩ := Prod.mk.inj h
      obtain ⟨hdigit, rfl⟩ := digit?_eq_some hc
      obtain ⟨row, hrow, hds, hdigits⟩ := ih rfl
      refine ⟨c :: row, ?_, ?_, List.forall_mem_cons.2 ⟨hdigit, hdigits⟩⟩
      · rw [List.cons_append, ← hrow]
      · rw [hds]
        rfl

theorem digitChar_of_isDigit {c : Char} (h : Text.isDigit c = true) :
    (c.toNat - '0'.toNat).digitChar = c ∧ c.toNat - '0'.toNat < 10 := by
  have hchars : ∀ n < 10, n.digitChar = Char.ofNat ('0'.toNat + n) := by decide
  have hbounds : 48 ≤ c.toNat ∧ c.toNat ≤ 57 := by
    simpa [Text.isDigit, Char.le_def, UInt32.le_iff_toNat_le] using h
  have hzero : '0'.toNat = 48 := rfl
  have hlt : c.toNat - '0'.toNat < 10 := by omega
  rw [hchars _ hlt, Nat.add_sub_cancel' (by omega), Char.ofNat_toNat]
  exact ⟨rfl, hlt⟩

/-- Digits without a leading zero are the text of their number. -/
theorem decimal_ofDigitChars {row : List Char} (hdigits : ∀ c ∈ row, Text.isDigit c = true)
    (hzero : ∀ c ∈ row.head?, c ≠ '0') (hne : row ≠ []) :
    Text.decimal (Nat.ofDigitChars 10 row 0) = row ∧ 0 < Nat.ofDigitChars 10 row 0 := by
  induction row using List.reverseRecOn with
  | nil => exact absurd rfl hne
  | append_singleton row c ih =>
    obtain ⟨hc, hlt⟩ := digitChar_of_isDigit (hdigits c (by simp))
    rw [Nat.ofDigitChars_append, Nat.ofDigitChars_cons, Nat.ofDigitChars_nil]
    generalize c.toNat - '0'.toNat = d at hc hlt
    by_cases hrow : row = []
    · obtain rfl := hrow
      have hpos : d ≠ 0 := by
        rintro rfl
        exact hzero c (by simp) hc.symm
      rw [Nat.ofDigitChars_nil, Nat.mul_zero, Nat.zero_add, Text.decimal,
        Nat.toDigits_of_lt_base hlt, hc]
      exact ⟨rfl, Nat.pos_of_ne_zero hpos⟩
    · obtain ⟨hdecimal, hpos⟩ := ih (fun e he => hdigits e (by simp [he]))
        (by simpa [List.head?_append_of_ne_nil _ hrow] using hzero) hrow
      rw [Text.decimal, ← Nat.toDigits_append_toDigits (by decide) hpos hlt, ← Text.decimal,
        hdecimal, Nat.toDigits_of_lt_base hlt, hc]
      exact ⟨rfl, by omega⟩

theorem exists_of_fraction? {cs rest : List Char} {ds : List Nat}
    (h : fraction? cs = some (ds, rest)) : ∃ fs, cs = fs ++ rest ∧ FractionSpelled ds fs := by
  unfold fraction? at h
  split at h
  case h_1 cs =>
    cases hrow : digitRow cs with
    | mk ds' rest' =>
      rw [hrow] at h
      obtain ⟨row, rfl, rfl, hdigits⟩ := digitRow_eq hrow
      cases row with
      | nil => cases h
      | cons c row =>
        obtain ⟨rfl, rfl⟩ := Prod.mk.inj (Option.some.inj h)
        exact ⟨'.' :: c :: row, rfl, .digits ⟨by simp, hdigits⟩⟩
  case h_2 =>
    obtain ⟨rfl, rfl⟩ := Prod.mk.inj (Option.some.inj h)
    exact ⟨[], rfl, .absent⟩

theorem exists_of_exponentDigits? {negative : Bool} {cs rest : List Char} {e : Option Int}
    (h : exponentDigits? negative cs = some (e, rest)) : ∃ row, cs = row ++ rest ∧
      IsDigitRow row ∧ e = some (if negative then -(Nat.ofDigitChars 10 row 0 : Int)
        else Nat.ofDigitChars 10 row 0) := by
  unfold exponentDigits? at h
  cases hrow : digitRow cs with
  | mk ds rest' =>
    rw [hrow] at h
    obtain ⟨row, rfl, rfl, hdigits⟩ := digitRow_eq hrow
    have hvalue := digitValue_digitValues row
    cases row with
    | nil => cases h
    | cons c row =>
      obtain ⟨rfl, rfl⟩ := Prod.mk.inj (Option.some.inj h)
      exact ⟨c :: row, rfl, ⟨by simp, hdigits⟩, by simp [← hvalue, digitValues]⟩

theorem exists_of_exponent? {cs rest : List Char} {e : Option Int}
    (h : exponent? cs = some (e, rest)) : ∃ es, cs = es ++ rest ∧ ExponentSpelled e es := by
  unfold exponent? at h
  split at h
  case h_1 mark cs =>
    split at h
    case isTrue hmark =>
      have hmark : mark ∈ ['e', 'E'] := by simpa using hmark
      split at h
      case h_1 =>
        obtain ⟨row, rfl, hdigits, rfl⟩ := exists_of_exponentDigits? h
        exact ⟨mark :: '+' :: row, rfl, .plus hmark hdigits⟩
      case h_2 =>
        obtain ⟨row, rfl, hdigits, rfl⟩ := exists_of_exponentDigits? h
        exact ⟨mark :: '-' :: row, rfl, .minus hmark hdigits⟩
      case h_3 =>
        obtain ⟨row, rfl, hdigits, rfl⟩ := exists_of_exponentDigits? h
        exact ⟨mark :: row, rfl, .unsigned hmark hdigits⟩
    case isFalse =>
      obtain ⟨rfl, rfl⟩ := Prod.mk.inj (Option.some.inj h)
      exact ⟨[], rfl, .absent⟩
  case h_2 =>
    obtain ⟨rfl, rfl⟩ := Prod.mk.inj (Option.some.inj h)
    exact ⟨[], rfl, .absent⟩

/-- What a number is read from is its digits, its fraction and its exponent. -/
theorem exists_of_numberBody {negative : Bool} {cs rest : List Char} {t : Token}
    (h : numberBody negative cs = some (t, rest)) : ∃ n ds e fs es,
      t = .number ⟨negative, n, ds, e⟩ ∧ cs = Text.decimal n ++ (fs ++ es) ++ rest ∧
        FractionSpelled ds fs ∧ ExponentSpelled e es := by
  unfold numberBody at h
  obtain ⟨⟨n, cs₁⟩, hwhole, h⟩ := Option.bind_eq_some_iff.1 h
  obtain ⟨⟨ds, cs₂⟩, hfraction, h⟩ := Option.bind_eq_some_iff.1 h
  obtain ⟨⟨e, cs₃⟩, hexponent, h⟩ := Option.bind_eq_some_iff.1 h
  obtain ⟨rfl, rfl⟩ := Prod.mk.inj (Option.some.inj h)
  obtain ⟨fs, rfl, hfs⟩ := exists_of_fraction? hfraction
  obtain ⟨es, rfl, hes⟩ := exists_of_exponent? hexponent
  have hdecimal : cs = Text.decimal n ++ (fs ++ (es ++ cs₃)) := by
    split at hwhole
    case h_1 =>
      obtain ⟨rfl, rfl⟩ := Prod.mk.inj (Option.some.inj hwhole)
      rfl
    case h_2 hzero =>
      cases hrow : digitRow cs with
      | mk ds' rest' =>
        rw [hrow] at hwhole
        obtain ⟨row, rfl, rfl, hdigits⟩ := digitRow_eq hrow
        have hvalue := digitValue_digitValues row
        cases row with
        | nil => cases hwhole
        | cons c row =>
          obtain ⟨rfl, rfl⟩ := Prod.mk.inj (Option.some.inj hwhole)
          have hc : c ≠ '0' := by
            rintro rfl
            exact hzero _ rfl
          have hspelled := (decimal_ofDigitChars hdigits (by simpa using hc) (by simp)).1
          rw [← hvalue] at hspelled
          exact congrArg (· ++ _) hspelled.symm
  exact ⟨n, ds, e, fs, es, rfl, by simpa using hdecimal, hfs, hes⟩

theorem prepend_eq_some {c : Char} {r : Option (Option (List Char) × List Char)}
    {s : Option (List Char)} {rest : List Char} (h : prepend c r = some (s, rest)) :
    ∃ s', r = some (s', rest) ∧ s = s'.map (c :: ·) := by
  obtain ⟨⟨s', rest'⟩, hr, heq⟩ := Option.map_eq_some_iff.1 h
  obtain ⟨rfl, rfl⟩ := Prod.mk.inj heq
  exact ⟨s', hr, rfl⟩

theorem unpaired_eq_some {r : Option (Option (List Char) × List Char)} {s : Option (List Char)}
    {rest : List Char} (h : unpaired r = some (s, rest)) :
    ∃ s', r = some (s', rest) ∧ s = none := by
  obtain ⟨⟨s', rest'⟩, hr, heq⟩ := Option.map_eq_some_iff.1 h
  obtain ⟨rfl, rfl⟩ := Prod.mk.inj heq
  exact ⟨s', hr, rfl⟩

theorem mem_letterEscapes {c d : Char} (h : escaped? c = some d) : (c, d) ∈ letterEscapes := by
  unfold escaped? at h
  split at h
  case h_9 => cases h
  all_goals
    obtain rfl := Option.some.inj h
    decide

/-- What a string literal is read from is a row of pieces up to a quote. -/
theorem exists_of_stringBody {cs rest : List Char} {s : Option (List Char)}
    (h : stringBody cs = some (s, rest)) :
    ∃ ps : List Piece, cs = ps.flatMap Piece.chars ++ '\x22' :: rest ∧ s = named ps := by
  fun_induction stringBody cs generalizing s with
  | case1 => cases h
  | case2 cs =>
    obtain ⟨rfl, rfl⟩ := Prod.mk.inj (Option.some.inj h)
    exact ⟨[], rfl, rfl⟩
  | case3 => cases h
  | case4 => cases h
  | case5 a b c d n hn hhigh a' b' c' d' cs m hm hlow ih =>
    obtain ⟨s, hs, rfl⟩ := prepend_eq_some h
    obtain ⟨ps, rfl, rfl⟩ := ih hs
    exact ⟨.unit a b c d n hn :: .unit a' b' c' d' m hm :: ps, rfl, by
      rw [named, if_pos hhigh, if_pos hlow]⟩
  | case6 a b c d n hn hhigh a' b' c' d' cs m hm hlow ih =>
    obtain ⟨s, hs, rfl⟩ := unpaired_eq_some h
    obtain ⟨ps, rfl, rfl⟩ := ih hs
    exact ⟨.unit a b c d n hn :: .unit a' b' c' d' m hm :: ps, rfl, by
      rw [named, if_pos hhigh, if_neg hlow]⟩
  | case7 a b c d n hn hhigh cs hcs ih =>
    obtain ⟨s, hs, rfl⟩ := unpaired_eq_some h
    obtain ⟨ps, rfl, rfl⟩ := ih hs
    refine ⟨.unit a b c d n hn :: ps, rfl, ?_⟩
    -- No code unit follows.
    rcases ps with _ | ⟨p, ps⟩
    · simp [named, hhigh]
    · cases p with
      | unit a' b' c' d' m hm => exact absurd rfl (hcs _ _ _ _ _)
      | plain | letter => simp [named, hhigh]
  | case8 a b c d cs n hn hhigh hlow ih =>
    obtain ⟨s, hs, rfl⟩ := unpaired_eq_some h
    obtain ⟨ps, rfl, rfl⟩ := ih hs
    exact ⟨.unit a b c d n hn :: ps, rfl, by
      rw [named_unit_of_not_high hn (by simpa using hhigh), if_pos hlow]⟩
  | case9 a b c d cs n hn hhigh hlow ih =>
    obtain ⟨s, hs, rfl⟩ := prepend_eq_some h
    obtain ⟨ps, rfl, rfl⟩ := ih hs
    exact ⟨.unit a b c d n hn :: ps, rfl, by
      rw [named_unit_of_not_high hn (by simpa using hhigh), if_neg hlow]⟩
  | case10 c cs _ d hd ih =>
    obtain ⟨s, hs, rfl⟩ := prepend_eq_some h
    obtain ⟨ps, rfl, rfl⟩ := ih hs
    exact ⟨.letter (c, d) (mem_letterEscapes hd) :: ps, rfl, rfl⟩
  | case11 => cases h
  | case12 => cases h
  | case13 c cs hquote _ hslash hcontrol ih =>
    obtain ⟨s, hs, rfl⟩ := prepend_eq_some h
    obtain ⟨ps, rfl, rfl⟩ := ih hs
    have hc : c ≠ '\\' := by
      rintro rfl
      cases hps : ps.flatMap Piece.chars ++ '\x22' :: rest with
      | nil => simp at hps
      | cons d ds => exact hslash d ds rfl hps
    exact ⟨.plain c ⟨hquote, hc, by omega⟩ :: ps, rfl, rfl⟩

/-- What a token is read from is one of its spellings. -/
theorem exists_of_token? {cs rest : List Char} {t : Token} (h : token? cs = some (t, rest)) :
    ∃ spelled, cs = spelled ++ rest ∧ t.SpelledAs spelled := by
  unfold token? at h
  split at h
  case h_10 =>
    obtain ⟨⟨s, rest'⟩, hbody, heq⟩ := Option.map_eq_some_iff.1 h
    obtain ⟨rfl, rfl⟩ := Prod.mk.inj heq
    obtain ⟨ps, rfl, rfl⟩ := exists_of_stringBody hbody
    exact ⟨'\x22' :: (ps.flatMap Piece.chars ++ ['\x22']), by simp, .string ps⟩
  case h_11 =>
    obtain ⟨n, ds, e, fs, es, rfl, rfl, hfs, hes⟩ := exists_of_numberBody h
    exact ⟨_, rfl, .number true n hfs hes⟩
  case h_12 =>
    obtain ⟨n, ds, e, fs, es, rfl, rfl, hfs, hes⟩ := exists_of_numberBody h
    exact ⟨_, rfl, .number false n hfs hes⟩
  all_goals
    obtain ⟨rfl, rfl⟩ := Prod.mk.inj (Option.some.inj h)
    refine ⟨_, ?_, by constructor⟩
    rfl

theorem takeWhile_isSpace_subset (cs : List Char) : cs.takeWhile isSpace ⊆ blanks := by
  intro c hc
  have hspace : isSpace c = true := List.all_eq_true.1 List.all_takeWhile c hc
  simp only [isSpace, Bool.or_eq_true, beq_iff_eq] at hspace
  rcases hspace with ((rfl | rfl) | rfl) | rfl <;> simp [blanks]

/-- The tokens of a text stand in it one behind the other, with blanks between them. -/
theorem spaced_of_tokensWithin {limit : Nat} {cs : List Char} {ts : List Token}
    (h : tokensWithin limit cs = some ts) : Spaced ts cs := by
  have hsplit : ∀ cs : List Char, cs = cs.takeWhile isSpace ++ cs.dropWhile isSpace := fun cs =>
    List.takeWhile_append_dropWhile.symm
  have hblank : ∀ cs : List Char, cs.dropWhile isSpace = [] → Spaced [] cs := fun cs hdrop => by
    rw [hsplit cs, hdrop, List.append_nil]
    exact .nil (takeWhile_isSpace_subset cs)
  induction limit generalizing cs ts with
  | zero =>
    by_cases hdrop : cs.dropWhile isSpace = []
    · rw [tokensWithin_of_blank hdrop] at h
      exact Option.some.inj h ▸ hblank cs hdrop
    · obtain ⟨c, ds, hcs⟩ := List.exists_cons_of_ne_nil hdrop
      unfold tokensWithin at h
      simp only [hcs] at h
      cases h
  | succ limit ih =>
    by_cases hdrop : cs.dropWhile isSpace = []
    · rw [tokensWithin_of_blank hdrop] at h
      exact Option.some.inj h ▸ hblank cs hdrop
    · rw [tokensWithin_succ hdrop] at h
      obtain ⟨⟨t, rest⟩, htoken, h⟩ := Option.bind_eq_some_iff.1 h
      obtain ⟨us, hmore, rfl⟩ := Option.map_eq_some_iff.1 h
      obtain ⟨spelled, hspelled, ht⟩ := exists_of_token? htoken
      rw [hsplit cs, hspelled]
      exact .cons (takeWhile_isSpace_subset cs) ht (ih hmore)

/-- A text is read as a value exactly if it writes the value. -/
theorem read?_eq_some_iff {s : String} {j : Json} : read? s = some j ↔ WrittenAs j s := by
  refine ⟨fun h => ?_, read?_of_writtenAs⟩
  obtain ⟨ts, htokens, h⟩ := Option.bind_eq_some_iff.1 h
  obtain rfl := ofTokens?_eq_some_iff.1 h
  exact spaced_of_tokensWithin htokens

end Installer.Json
