import Installer.Json.Printer
import Installer.Proofs.Json.ReadBack

/-!
# What the printer writes

Of the spellings of a token the printer has one. It escapes a character only where it must, by a
letter where there is one. So its texts are read back. This holds for the values that encoders make:
every literal names a text, and every number is an integer.
-/
namespace Installer.Json

theorem codeUnit?_control : ∀ n < 0x20,
    codeUnit? '0' '0' (Text.hexDigit ((UInt8.ofNat n).toNat / 16))
      (Text.hexDigit ((UInt8.ofNat n).toNat % 16)) = some n := by
  decide

/-- The printer spells each character as a piece that names it. -/
theorem exists_piece_of_quoteChar (c : Char) :
    ∃ p : Piece, p.chars = quoteChar c ∧ ∀ ps, named (p :: ps) = (named ps).map (c :: ·) := by
  unfold quoteChar
  split
  case h_8 _ hquote hslash hb hf hn hr ht =>
    by_cases hcontrol : c.toNat < 0x20
    · have hhigh : isHighSurrogate c.toNat = false := by
        simp [isHighSurrogate]
        omega
      have hlow : isLowSurrogate c.toNat = false := by
        simp [isLowSurrogate]
        omega
      rw [if_pos hcontrol]
      refine ⟨.unit _ _ _ _ c.toNat (codeUnit?_control _ hcontrol), rfl, fun ps => ?_⟩
      rw [named_unit_of_not_high _ hhigh, hlow, Char.ofNat_toNat]
      rfl
    · rw [if_neg hcontrol]
      exact ⟨.plain c ⟨hquote, hslash, by omega⟩, rfl, fun ps => rfl⟩
  all_goals exact ⟨.letter (_, _) (by decide), rfl, fun ps => rfl⟩

/-- The printer spells each text as a row of pieces that names it. -/
theorem exists_pieces_of_quote (cs : List Char) :
    ∃ ps : List Piece, ps.flatMap Piece.chars = cs.flatMap quoteChar ∧ named ps = some cs := by
  induction cs with
  | nil => exact ⟨[], rfl, rfl⟩
  | cons c cs ih =>
    obtain ⟨p, hchars, hnamed⟩ := exists_piece_of_quoteChar c
    obtain ⟨ps, hps, hcs⟩ := ih
    refine ⟨p :: ps, ?_, ?_⟩
    · rw [List.flatMap_cons, List.flatMap_cons, hchars, hps]
    · rw [hnamed, hcs]
      rfl

theorem spelledAs_quote (s : Option String) : (Token.string s).SpelledAs (quote s) := by
  cases s with
  | none => exact .string [.unit 'd' '8' '0' '0' 0xD800 (by decide)]
  | some s =>
    obtain ⟨ps, hchars, hnamed⟩ := exists_pieces_of_quote s.toList
    have hspelled := Token.SpelledAs.string ps
    rw [hchars, hnamed, Option.map_some, String.ofList_toList] at hspelled
    exact hspelled

theorem spelledAs_integer (negative : Bool) (n : Nat) :
    (Token.number ⟨negative, n, [], none⟩).SpelledAs (writeNumber ⟨negative, n, [], none⟩) := by
  simpa [writeNumber] using Token.SpelledAs.number negative n .absent .absent

/-- A value of integers that are not too large, of texts, and of rows and records of such values. -/
inductive IsPlain : Json → Prop where
  | null : IsPlain .null
  | bool (b : Bool) : IsPlain (.bool b)
  | integer (negative : Bool) {n : Nat} (h : n ≤ Number.maxSignificand) :
      IsPlain (.number ⟨negative, n, [], none⟩)
  | text (s : String) : IsPlain (text s)
  | array {js : List Json} (h : ∀ j ∈ js, IsPlain j) : IsPlain (.array js)
  | record {ms : List (String × Json)} (h : ∀ m ∈ ms, IsPlain m.2) : IsPlain (record ms)

/-- A row of tokens with one more in front of it. -/
theorem Spaced.push {t : Token} {cs : List Char} (ht : t.SpelledAs cs) {ts : List Token}
    {rest : List Char} (h : Spaced ts rest) : Spaced (t :: ts) (cs ++ rest) :=
  .cons (List.nil_subset _) ht h

/-- A row of tokens with more blanks in front of it. -/
theorem Spaced.indent {bs : List Char} (hbs : bs ⊆ blanks) {ts : List Token} {rest : List Char}
    (h : Spaced ts rest) : Spaced ts (bs ++ rest) := by
  cases h with
  | nil hrest => exact .nil (List.append_subset.2 ⟨hbs, hrest⟩)
  | cons hblanks ht hmore =>
    rw [← List.append_assoc]
    exact .cons (List.append_subset.2 ⟨hbs, hblanks⟩) ht hmore

/-- A row of characters spells a value, whatever follows. -/
def Spells (cs : List Char) (j : Json) : Prop :=
  ∀ ts rest, Spaced ts rest → Spaced (tokensOf j ++ ts) (cs ++ rest)

theorem Spells.writtenAs {cs : List Char} {j : Json} (h : Spells cs j) :
    WrittenAs j (String.ofList cs) := by
  have hspaced := h [] [] (.nil (List.nil_subset _))
  rw [List.append_nil, List.append_nil] at hspaced
  rwa [WrittenAs, String.toList_ofList]

theorem spells_quote (s : Option String) : Spells (quote s) (.string s) := fun _ _ h =>
  .push (spelledAs_quote s) h

theorem spells_integer (negative : Bool) (n : Nat) :
    Spells (writeNumber ⟨negative, n, [], none⟩) (.number ⟨negative, n, [], none⟩) := fun _ _ h =>
  .push (spelledAs_integer negative n) h

theorem spaced_writeItems {js : List Json} (hjs : ∀ j ∈ js, Spells (write j) j) {ts : List Token}
    {rest : List Char} (h : Spaced ts rest) :
    Spaced (tokensOf.itemTokens js ++ ts) (write.writeItems js ++ rest) := by
  induction js with
  | nil => exact h
  | cons j js ih =>
    have hmore := ih fun k hk => hjs k (List.mem_cons_of_mem j hk)
    have hitem := Spaced.push .comma (hjs j List.mem_cons_self _ _ hmore)
    simpa [tokensOf.itemTokens, write.writeItems] using hitem

theorem spaced_writeMembers {ms : List (Option String × Json)}
    (hms : ∀ m ∈ ms, Spells (write m.2) m.2) {ts : List Token} {rest : List Char}
    (h : Spaced ts rest) :
    Spaced (tokensOf.memberTokens ms ++ ts) (write.writeMembers ms ++ rest) := by
  induction ms with
  | nil => exact h
  | cons m ms ih =>
    have hmore := ih fun k hk => hms k (List.mem_cons_of_mem m hk)
    have hmember := Spaced.push .comma
      (.push (spelledAs_quote m.1) (.push .colon (hms m List.mem_cons_self _ _ hmore)))
    simpa [tokensOf.memberTokens, write.writeMembers] using hmember

/-- The text of a value on one line spells the value. -/
theorem spells_write {j : Json} (hj : j.IsPlain) : Spells (write j) j := by
  induction hj with
  | null => exact fun _ _ h => .push .null h
  | bool b => cases b <;> exact fun _ _ h => .push (by constructor) h
  | integer negative _ => exact spells_integer negative _
  | text s => exact spells_quote (some s)
  | @array js hjs ih =>
    intro ts rest h
    have hclose := Spaced.push .closeArray h
    cases js with
    | nil => simpa [tokensOf, write] using Spaced.push .openArray hclose
    | cons j js =>
      have hmore := spaced_writeItems (fun k hk => ih k (List.mem_cons_of_mem j hk)) hclose
      have hspelled := Spaced.push .openArray (ih j List.mem_cons_self _ _ hmore)
      simpa [tokensOf, write] using hspelled
  | @record ms hms ih =>
    intro ts rest h
    have hclose := Spaced.push .closeObject h
    cases ms with
    | nil => simpa [record, tokensOf, write] using Spaced.push .openObject hclose
    | cons m ms =>
      have hmembers : ∀ k ∈ ms.map fun m => (some m.1, m.2), Spells (write k.2) k.2 :=
        List.forall_mem_map.2 fun k hk => ih k (List.mem_cons_of_mem m hk)
      have hspelled := Spaced.push .openObject (.push (spelledAs_quote (some m.1))
        (.push .colon (ih m List.mem_cons_self _ _ (spaced_writeMembers hmembers hclose))))
      simpa [record, tokensOf, write] using hspelled

/-- A text on one line writes its value. -/
theorem writtenAs_compact {j : Json} (h : j.IsPlain) : WrittenAs j j.compact :=
  (spells_write h).writtenAs

/-- A value is read back from its text on one line. -/
theorem read?_compact {j : Json} (h : j.IsPlain) : read? j.compact = some j :=
  read?_of_writtenAs (writtenAs_compact h)

theorem lineBreak_subset (level : Nat) : lineBreak level ⊆ blanks := by
  simp [lineBreak, blanks, List.subset_def]

theorem blank_subset : [' '] ⊆ blanks := by
  decide

theorem spaced_layOutItems {level : Nat} {js : List Json}
    (hjs : ∀ j ∈ js, Spells (layOut level j) j) {ts : List Token} {rest : List Char}
    (h : Spaced ts rest) :
    Spaced (tokensOf.itemTokens js ++ ts) (layOut.layOutItems level js ++ rest) := by
  induction js with
  | nil => exact h
  | cons j js ih =>
    have hmore := ih fun k hk => hjs k (List.mem_cons_of_mem j hk)
    have hitem := Spaced.push .comma ((hjs j List.mem_cons_self _ _ hmore).indent
      (lineBreak_subset level))
    simpa [tokensOf.itemTokens, layOut.layOutItems] using hitem

theorem spaced_layOutMembers {level : Nat} {ms : List (Option String × Json)}
    (hms : ∀ m ∈ ms, Spells (layOut level m.2) m.2) {ts : List Token} {rest : List Char}
    (h : Spaced ts rest) :
    Spaced (tokensOf.memberTokens ms ++ ts) (layOut.layOutMembers level ms ++ rest) := by
  induction ms with
  | nil => exact h
  | cons m ms ih =>
    have hmore := ih fun k hk => hms k (List.mem_cons_of_mem m hk)
    have hvalue := (hms m List.mem_cons_self _ _ hmore).indent blank_subset
    have hmember := Spaced.push .comma ((Spaced.push (spelledAs_quote m.1)
      (.push .colon hvalue)).indent (lineBreak_subset level))
    simpa [tokensOf.memberTokens, layOut.layOutMembers] using hmember

/-- A record over several lines is spelled where each of its values is. -/
theorem spells_layOut_record {level : Nat} {ms : List (String × Json)}
    (hms : ∀ m ∈ ms, Spells (layOut (level + 1) m.2) m.2) :
    Spells (layOut level (record ms)) (record ms) := by
  intro ts rest h
  have hclose := Spaced.push .closeObject h
  cases ms with
  | nil => simpa [record, tokensOf, layOut] using Spaced.push .openObject hclose
  | cons m ms =>
    have hmembers : ∀ k ∈ ms.map fun m => (some m.1, m.2), Spells (layOut (level + 1) k.2) k.2 :=
      List.forall_mem_map.2 fun k hk => hms k (List.mem_cons_of_mem m hk)
    have hmore := spaced_layOutMembers hmembers (hclose.indent (lineBreak_subset level))
    have hvalue := (hms m List.mem_cons_self _ _ hmore).indent blank_subset
    have hspelled := Spaced.push .openObject ((Spaced.push (spelledAs_quote (some m.1))
      (.push .colon hvalue)).indent (lineBreak_subset (level + 1)))
    simpa [record, tokensOf, layOut] using hspelled

/-- The text of a value over several lines spells the value. -/
theorem spells_layOut {j : Json} (hj : j.IsPlain) (level : Nat) : Spells (layOut level j) j := by
  induction hj generalizing level with
  | null => exact fun _ _ h => .push .null h
  | bool b => cases b <;> exact fun _ _ h => .push (by constructor) h
  | integer negative _ => exact spells_integer negative _
  | text s => exact spells_quote (some s)
  | @array js hjs ih =>
    intro ts rest h
    have hclose := Spaced.push .closeArray h
    cases js with
    | nil => simpa [tokensOf, layOut] using Spaced.push .openArray hclose
    | cons j js =>
      have hmore := spaced_layOutItems (fun k hk => ih k (List.mem_cons_of_mem j hk) (level + 1))
        (hclose.indent (lineBreak_subset level))
      have hitem := ih j List.mem_cons_self (level + 1) _ _ hmore
      have hspelled := Spaced.push .openArray (hitem.indent (lineBreak_subset (level + 1)))
      simpa [tokensOf, layOut] using hspelled
  | @record ms hms ih => exact spells_layOut_record fun m hm => ih m hm (level + 1)

/-- A text over several lines writes its value. -/
theorem writtenAs_pretty {j : Json} (h : j.IsPlain) : WrittenAs j j.pretty :=
  (spells_layOut h 0).writtenAs

end Installer.Json
