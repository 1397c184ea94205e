import Installer.Json.Reader
import Installer.Proofs.Json.Grammar

/-!
# Reading values

A value is read from each text in which its tokens are spelled in their order, whatever blanks and
spellings were chosen.
-/
namespace Installer.Json

/-- A value is built up from those that stand in it. -/
@[elab_as_elim, induction_eliminator]
theorem structural {P : Json → Prop} (null : P .null) (bool : ∀ b, P (.bool b))
    (number : ∀ n, P (.number n)) (string : ∀ s, P (.string s))
    (array : ∀ js, (∀ j ∈ js, P j) → P (.array js))
    (object : ∀ ms, (∀ m ∈ ms, P m.2) → P (.object ms)) : ∀ j, P j
  | .null => null
  | .bool b => bool b
  | .number n => number n
  | .string s => string s
  | .array js => array js fun j _ => structural null bool number string array object j
  | .object ms => object ms fun m hm =>
    have : sizeOf m.2 < sizeOf ms := by
      have hsize := List.sizeOf_lt_of_mem hm
      rw [show sizeOf m = 1 + sizeOf m.1 + sizeOf m.2 from rfl] at hsize
      omega
    structural null bool number string array object m.2

/-- The tokens of a value, in the order of its text. -/
def tokensOf : Json → List Token
  | .null => [.null]
  | .bool b => [.bool b]
  | .number n => [.number n]
  | .string s => [.string s]
  | .array [] => [.openArray, .closeArray]
  | .array (j :: js) => .openArray :: (tokensOf j ++ itemTokens js ++ [.closeArray])
  | .object [] => [.openObject, .closeObject]
  | .object ((name, j) :: ms) =>
      .openObject :: .string name :: .colon :: (tokensOf j ++ memberTokens ms ++ [.closeObject])
where
  itemTokens : List Json → List Token
    | [] => []
    | j :: js => .comma :: (tokensOf j ++ itemTokens js)
  memberTokens : List (Option String × Json) → List Token
    | [] => []
    | (name, j) :: ms => .comma :: .string name :: .colon :: (tokensOf j ++ memberTokens ms)

/-- A text writes a value when it spells the tokens of the value. -/
def WrittenAs (j : Json) (s : String) : Prop :=
  Spaced (tokensOf j) s.toList

/-- A row of tokens that may stand behind a value. -/
structure GoesOn (ts : List Token) : Prop where
  separated : Separated ts
  head : ∀ t ∈ ts.head?, t.isNumber = false

theorem goesOn_nil : GoesOn [] :=
  ⟨.nil, by simp⟩

theorem goesOn_cons {t : Token} (ht : t.isNumber = false) {ts : List Token} (h : Separated ts) :
    GoesOn (t :: ts) :=
  ⟨List.isChain_cons.2 ⟨fun _ _ hnumber => absurd hnumber (by simp [ht]), h⟩, by simpa using ht⟩

theorem goesOn_itemTokens {js : List Json}
    (h : ∀ j ∈ js, ∀ rest, GoesOn rest → Separated (tokensOf j ++ rest)) {rest : List Token}
    (hrest : GoesOn rest) : GoesOn (tokensOf.itemTokens js ++ rest) := by
  induction js with
  | nil => exact hrest
  | cons j js ih =>
    have hjs := ih fun k hk => h k (by simp [hk])
    rw [tokensOf.itemTokens, List.cons_append, List.append_assoc]
    exact goesOn_cons rfl (h j (by simp) _ hjs)

theorem goesOn_memberTokens {ms : List (Option String × Json)}
    (h : ∀ m ∈ ms, ∀ rest, GoesOn rest → Separated (tokensOf m.2 ++ rest)) {rest : List Token}
    (hrest : GoesOn rest) : GoesOn (tokensOf.memberTokens ms ++ rest) := by
  induction ms with
  | nil => exact hrest
  | cons m ms ih =>
    obtain ⟨name, j⟩ := m
    have hms := ih fun k hk => h k (by simp [hk])
    have hj := h (name, j) (by simp) _ hms
    rw [tokensOf.memberTokens]
    simp only [List.cons_append, List.append_assoc]
    exact goesOn_cons rfl (goesOn_cons rfl (goesOn_cons rfl hj).separated).separated

/-- In the tokens of a value no number stands right before another one. -/
theorem separated_tokensOf (j : Json) {rest : List Token} (hrest : GoesOn rest) :
    Separated (tokensOf j ++ rest) := by
  induction j generalizing rest with
  | null | bool b | string s => exact (goesOn_cons rfl hrest.separated).separated
  | number n => exact List.isChain_cons.2 ⟨fun t ht _ => hrest.head t ht, hrest.separated⟩
  | array js ih =>
    have hclose : GoesOn (.closeArray :: rest) := goesOn_cons rfl hrest.separated
    cases js with
    | nil => exact (goesOn_cons rfl hclose.separated).separated
    | cons j js =>
      have hjs := goesOn_itemTokens (fun k hk _ => ih k (List.mem_cons_of_mem j hk)) hclose
      have hj := ih j (by simp) hjs
      rw [tokensOf]
      simp only [List.cons_append, List.append_assoc, List.nil_append]
      exact (goesOn_cons rfl hj).separated
  | object ms ih =>
    have hclose : GoesOn (.closeObject :: rest) := goesOn_cons rfl hrest.separated
    cases ms with
    | nil => exact (goesOn_cons rfl hclose.separated).separated
    | cons m ms =>
      obtain ⟨name, j⟩ := m
      have hms := goesOn_memberTokens (fun k hk _ => ih k (List.mem_cons_of_mem _ hk)) hclose
      have hj := ih (name, j) (by simp) hms
      rw [tokensOf]
      simp only [List.cons_append, List.append_assoc, List.nil_append]
      exact (goesOn_cons rfl (goesOn_cons rfl (goesOn_cons rfl hj).separated).separated).separated

theorem run_cons {r s : Reading} {t : Token} (h : r.step t = some s) (ts : List Token) :
    r.run (t :: ts) = s.run ts := by
  rw [Reading.run, h]
  rfl

/-- A row of tokens writes a value wherever one must come. -/
def Writes (ts : List Token) (j : Json) : Prop :=
  ∀ stack rest, (Reading.mk .value stack).run (ts ++ rest) =
    (Reading.mk (.afterValue j) stack).run rest

theorem run_itemTokens {js : List Json} (h : ∀ j ∈ js, Writes (tokensOf j) j) (j : Json)
    (before : List Json) (stack : List Frame) (rest : List Token) :
    (Reading.mk (.afterValue j) (.array before :: stack)).run
        (tokensOf.itemTokens js ++ .closeArray :: rest) =
      (Reading.mk (.afterValue (.array (before.reverse ++ j :: js))) stack).run rest := by
  induction js generalizing j before with
  | nil =>
    rw [tokensOf.itemTokens, List.nil_append, run_cons rfl, List.reverse_cons]
  | cons k js ih =>
    rw [tokensOf.itemTokens, List.cons_append, List.append_assoc, run_cons rfl,
      h k (by simp), ih (fun l hl => h l (by simp [hl]))]
    simp

theorem run_memberTokens {ms : List (Option String × Json)}
    (h : ∀ m ∈ ms, Writes (tokensOf m.2) m.2) (name : Option String) (j : Json)
    (before : List (Option String × Json)) (stack : List Frame) (rest : List Token) :
    (Reading.mk (.afterValue j) (.object before name :: stack)).run
        (tokensOf.memberTokens ms ++ .closeObject :: rest) =
      (Reading.mk (.afterValue (.object (before.reverse ++ (name, j) :: ms))) stack).run rest := by
  induction ms generalizing name j before with
  | nil =>
    rw [tokensOf.memberTokens, List.nil_append, run_cons rfl, List.reverse_cons]
  | cons m ms ih =>
    obtain ⟨next, k⟩ := m
    rw [tokensOf.memberTokens]
    simp only [List.cons_append, List.append_assoc]
    rw [run_cons rfl, run_cons rfl, run_cons rfl, h (next, k) (by simp),
      ih (fun l hl => h l (by simp [hl]))]
    simp

/-- The first token of a value ends no array. -/
theorem tokensOf_eq_cons (j : Json) : ∃ t ts, tokensOf j = t :: ts ∧ t ≠ .closeArray := by
  cases j with
  | array js => cases js <;> exact ⟨_, _, rfl, by decide⟩
  | object ms => cases ms <;> exact ⟨_, _, rfl, by decide⟩
  | _ => exact ⟨_, _, rfl, by simp⟩

/-- A first item is read as any value is. -/
theorem run_firstValue (j : Json) (stack : List Frame) (rest : List Token) :
    (Reading.mk .firstValue stack).run (tokensOf j ++ rest) =
      (Reading.mk .value (.array [] :: stack)).run (tokensOf j ++ rest) := by
  obtain ⟨t, ts, hts, hclose⟩ := tokensOf_eq_cons j
  rw [hts, List.cons_append, Reading.run, Reading.run]
  cases t <;> first | rfl | exact absurd rfl hclose

/-- The tokens of a value write the value. -/
theorem writes_tokensOf (j : Json) : Writes (tokensOf j) j := by
  induction j with
  | null | bool b | number n | string s => exact fun stack rest => run_cons rfl rest
  | array js ih =>
    intro stack rest
    cases js with
    | nil =>
      rw [tokensOf, List.cons_append, List.cons_append, run_cons rfl, run_cons rfl]
      rfl
    | cons j js =>
      have hjs : ∀ k ∈ js, Writes (tokensOf k) k := fun k hk => ih k (by simp [hk])
      rw [tokensOf]
      simp only [List.cons_append, List.append_assoc, List.nil_append]
      rw [run_cons rfl, run_firstValue, ih j (by simp), run_itemTokens hjs]
      rfl
  | object ms ih =>
    intro stack rest
    cases ms with
    | nil =>
      rw [tokensOf, List.cons_append, List.cons_append, run_cons rfl, run_cons rfl]
      rfl
    | cons m ms =>
      obtain ⟨name, j⟩ := m
      have hms : ∀ k ∈ ms, Writes (tokensOf k.2) k.2 := fun k hk => ih k (by simp [hk])
      rw [tokensOf]
      simp only [List.cons_append, List.append_assoc, List.nil_append]
      rw [run_cons rfl, run_cons rfl, run_cons rfl, ih (name, j) (by simp), run_memberTokens hms]
      rfl

/-- A value is read from each text that writes it. -/
theorem read?_of_writtenAs {j : Json} {s : String} (h : WrittenAs j s) : read? s = some j := by
  have hseparated : Separated (tokensOf j) := by
    simpa using separated_tokensOf j goesOn_nil
  have hrun := writes_tokensOf j [] []
  rw [List.append_nil] at hrun
  rw [read?, h.tokens hseparated, Option.bind_some, ofTokens?, hrun]
  rfl

end Installer.Json
