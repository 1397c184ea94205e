import Installer.Proofs.Identifier.Forms
import Installer.Proofs.Text.Pieces
import Installer.Version
import Mathlib.Algebra.Group.Nat.Defs
import Mathlib.Data.List.Forall2

/-!
# Versions and their texts

A text is a version if and only if it consists of one to four fields with dots between them, blanks
at either end left aside. The numbers of a version can be read off its own text again, and versions
are ordered by their numbers as rows, so two of them are equal exactly when they have one text.
-/
namespace Installer

namespace Text

theorem decimalFrom_eq_some_iff {n m : Nat} {cs : List Char} :
    decimalFrom n cs = some m ↔
      (∀ c ∈ cs, isDigit c = true) ∧ Nat.ofDigitChars 10 cs n = m := by
  induction cs generalizing n with
  | nil => simp [decimalFrom]
  | cons c cs ih =>
    have hdigit : digit? c = if isDigit c then some (c.toNat - '0'.toNat) else none := rfl
    rw [decimalFrom, hdigit, List.forall_mem_cons, Nat.ofDigitChars_cons]
    by_cases hc : isDigit c = true
    · simp only [hc, if_true, true_and]
      exact ih
    · simp [hc]

theorem decimal?_eq_some_iff {cs : List Char} {n : Nat} :
    decimal? cs = some n ↔
      cs ≠ [] ∧ (∀ c ∈ cs, isDigit c = true) ∧ Nat.ofDigitChars 10 cs 0 = n := by
  cases cs with
  | nil => simp [decimal?]
  | cons c cs =>
    rw [decimal?, decimalFrom_eq_some_iff]
    · simp
    · simp

end Text

namespace Version
open Text

/-- How a field of a version may be spelled: by the digits of a number below 2³², as many zeros in
front of it as one likes, and perhaps a plus in front of all. -/
structure FieldSpelled (n : Nat) (cs : List Char) : Prop where
  digits : ∃ ds, (cs = ds ∨ cs = '+' :: ds) ∧ ds ≠ [] ∧ (∀ c ∈ ds, isDigit c = true) ∧
    Nat.ofDigitChars 10 ds 0 = n
  small : n < 2 ^ 32

/-- The text spells the version: one to four fields with dots between them, and blanks around the
whole. -/
def Spells (s : String) (v : Version) : Prop :=
  ∃ before fields behind, s.toList = before ++ joinWith ['.'] fields ++ behind ∧
    (∀ c ∈ before ++ behind, isBlank c = true) ∧ 1 ≤ fields.length ∧ fields.length ≤ 4 ∧
    List.Forall₂ FieldSpelled v.parts fields

theorem not_isDigit_plus : isDigit '+' = false := by decide

theorem field?_eq_some_iff {cs : List Char} {n : Nat} :
    field? cs = some n ↔ FieldSpelled n cs := by
  rw [field?, Option.filter_eq_some_iff, decimal?_eq_some_iff, decide_eq_true_eq]
  constructor
  · rintro ⟨hdigits, hsmall⟩
    refine ⟨⟨unsigned cs, ?_, hdigits⟩, hsmall⟩
    unfold unsigned
    split
    · exact Or.inr rfl
    · exact Or.inl rfl
  · rintro ⟨⟨ds, hcs, hne, hdigits, hvalue⟩, hsmall⟩
    have hds : unsigned cs = ds := by
      rcases hcs with rfl | rfl
      · unfold unsigned
        split
        next rest =>
          have hplus := hdigits '+' List.mem_cons_self
          rw [not_isDigit_plus] at hplus
          exact absurd hplus Bool.false_ne_true
        next => rfl
      · rfl
    rw [hds]
    exact ⟨⟨hne, hdigits, hvalue⟩, hsmall⟩

/-- A field holds neither a dot nor a blank. -/
theorem FieldSpelled.char {n : Nat} {cs : List Char} (h : FieldSpelled n cs) {c : Char}
    (hc : c ∈ cs) : c ≠ '.' ∧ isBlank c = false := by
  have hdigit : ∀ {d : Char}, isDigit d = true → d ≠ '.' ∧ isBlank d = false := by
    intro d hd
    refine ⟨?_, (Identifier.not_isBlank_of_isPlain (Identifier.isPlain_of_isDigit hd)).1⟩
    rintro rfl
    exact absurd hd (by decide)
  obtain ⟨ds, hcs, -, hdigits, -⟩ := h.digits
  rcases hcs with rfl | rfl
  · exact hdigit (hdigits c hc)
  · rcases List.mem_cons.1 hc with rfl | hc
    · decide
    · exact hdigit (hdigits c hc)

/-- The numbers of spelled fields are small, and no field holds a dot or a blank. -/
theorem FieldSpelled.all {parts : List Nat} {fields : List (List Char)}
    (h : List.Forall₂ FieldSpelled parts fields) :
    (∀ n ∈ parts, n < 2 ^ 32) ∧ ∀ field ∈ fields, ∀ c ∈ field, c ≠ '.' ∧ isBlank c = false := by
  induction h with
  | nil => simp
  | cons h _ ih =>
    exact ⟨List.forall_mem_cons.2 ⟨h.small, ih.1⟩,
      List.forall_mem_cons.2 ⟨fun _ hc => h.char hc, ih.2⟩⟩

theorem mapM_eq_some_iff {α β : Type} {f : α → Option β} {xs : List α} {ys : List β} :
    xs.mapM f = some ys ↔ List.Forall₂ (fun y x => f x = some y) ys xs := by
  induction xs generalizing ys with
  | nil => cases ys <;> simp
  | cons x xs ih =>
    simp only [List.mapM_cons, Option.bind_eq_bind, Option.bind_eq_some_iff, Option.pure_def,
      Option.some.injEq, ih]
    constructor
    · rintro ⟨y, hy, rest, hrest, rfl⟩
      exact .cons hy hrest
    · intro h
      cases h with
      | cons hy hrest => exact ⟨_, hy, _, hrest, rfl⟩

theorem fields?_eq_some_iff {cs : List Char} {parts : List Nat} :
    fields? cs = some parts ↔
      List.Forall₂ FieldSpelled parts (splitAt (· == '.') (strip isBlank cs)) := by
  rw [fields?, mapM_eq_some_iff]
  simp only [field?_eq_some_iff]

/-- The fields of a text can be found in it, and there is one way to do so. -/
theorem spells_iff {s : String} {v : Version} :
    Spells s v ↔ fields? s.toList = some v.parts ∧ v.parts.length ≤ 4 := by
  rw [fields?_eq_some_iff]
  constructor
  · rintro ⟨before, fields, behind, hs, hblank, hone, hfour, hfields⟩
    have hlength := hfields.length_eq
    have hchar := (FieldSpelled.all hfields).2
    have hstrip : strip isBlank s.toList = joinWith ['.'] fields := by
      rw [hs]
      apply strip_append hblank
      intro c hc
      rcases mem_joinWith hc with hdot | ⟨field, hfield, hc⟩
      · rw [List.mem_singleton.1 hdot]
        decide
      · exact (hchar field hfield c hc).2
    have hsplit : splitAt (· == '.') (joinWith ['.'] fields) = fields := by
      apply splitAt_joinWith
      · intro field hfield hdot
        exact (hchar field hfield '.' hdot).1 rfl
      · rintro rfl
        simp at hone
    rw [hstrip, hsplit]
    exact ⟨hfields, by omega⟩
  · rintro ⟨hfields, hfour⟩
    obtain ⟨before, behind, hs, hblank⟩ := exists_strip isBlank s.toList
    have hlength := hfields.length_eq
    have hne : splitAt (· == '.') (strip isBlank s.toList) ≠ [] := splitAt_ne_nil _ _
    have hpos := List.length_pos_iff.2 hne
    refine ⟨before, splitAt (· == '.') (strip isBlank s.toList), behind, ?_, hblank, hpos, ?_,
      hfields⟩
    · rw [joinWith_splitAt]
      exact hs
    · omega

theorem parse_eq_ok_iff {s : String} {v : Version} : parse s = .ok v ↔ Spells s v := by
  rw [spells_iff, parse]
  cases fields? s.toList with
  | none => simp
  | some parts =>
    dsimp only
    split
    next hfour =>
      constructor
      · intro h
        cases h
        exact ⟨rfl, hfour⟩
      · rintro ⟨h, -⟩
        rw [Option.some.inj h]
    next hfour =>
      simp only [reduceCtorEq, Option.some.injEq, false_iff, not_and]
      rintro rfl
      exact hfour

/-- Every complaint is about the text as it was given. -/
theorem parse_eq_error_iff {s : String} {e : Invalid} :
    parse s = .error e ↔ e = ⟨s⟩ ∧ ∀ v, ¬Spells s v := by
  have hcases : (∃ v, parse s = .ok v) ∨ parse s = .error ⟨s⟩ := by
    unfold parse
    split
    · split
      · exact Or.inl ⟨_, rfl⟩
      · exact Or.inr rfl
    · exact Or.inr rfl
  simp only [← parse_eq_ok_iff]
  rcases hcases with ⟨v, hv⟩ | herror
  · simp [hv]
  · simp [herror, eq_comm]

theorem fieldSpelled_decimal {n : Nat} (h : n < 2 ^ 32) : FieldSpelled n (decimal n) where
  digits := ⟨decimal n, Or.inl rfl, Nat.toDigits_ne_nil, fun _ hc => isDigit_of_mem_decimal hc,
    Nat.ofDigitChars_toDigits (by decide) (by decide)⟩
  small := h

/-- A version that some text spells is spelled by its own text. -/
theorem Spells.text {s : String} {v : Version} (h : Spells s v) : Spells v.text v := by
  obtain ⟨-, fields, -, -, -, hone, hfour, hfields⟩ := h
  have hlength := hfields.length_eq
  refine ⟨[], v.parts.map decimal, [], ?_, ?_, ?_, ?_, ?_⟩
  · simp [Version.text]
  · simp
  · rw [List.length_map]
    omega
  · rw [List.length_map]
    omega
  · rw [List.forall₂_map_right_iff, List.forall₂_same]
    exact fun n hn => fieldSpelled_decimal ((FieldSpelled.all hfields).1 n hn)

theorem joinWith_decimal_injective :
    Function.Injective fun parts : List Nat => joinWith ['.'] (parts.map decimal) := by
  intro as bs h
  have hdot : ∀ parts : List Nat, ∀ piece ∈ parts.map decimal, '.' ∉ piece := by
    intro parts piece hpiece hmem
    obtain ⟨n, -, rfl⟩ := List.mem_map.1 hpiece
    exact absurd (isDigit_of_mem_decimal hmem) (by decide)
  have hempty : ∀ n (parts : List Nat), joinWith ['.'] ((n :: parts).map decimal) ≠ [] := by
    intro n parts
    have hn : decimal n ≠ [] := Nat.toDigits_ne_nil
    cases parts <;> simp [joinWith, hn]
  cases as with
  | nil =>
    cases bs with
    | nil => rfl
    | cons b bs => exact absurd h.symm (hempty b bs)
  | cons a as =>
    cases bs with
    | nil => exact absurd h (hempty a as)
    | cons b bs =>
      have hsplit := congrArg (splitAt (· == '.')) h
      dsimp only at hsplit
      rw [splitAt_joinWith (hdot _) (by simp), splitAt_joinWith (hdot _) (by simp)] at hsplit
      exact decimal_injective.list_map hsplit

theorem text_injective : Function.Injective Version.text := by
  intro v w h
  have hparts := joinWith_decimal_injective (String.ofList_injective h)
  cases v
  cases w
  exact congrArg Version.mk hparts

/-- A version comes before another: it goes on as the other or has the smaller number where they
first differ. -/
def Precedes (v w : Version) : Prop :=
  (v.parts <+: w.parts ∧ v.parts ≠ w.parts) ∨
    ∃ front a b as bs, v.parts = front ++ a :: as ∧ w.parts = front ++ b :: bs ∧ a < b

theorem compareParts_eq_eq_iff {as bs : List Nat} : compareParts as bs = .eq ↔ as = bs := by
  induction as generalizing bs with
  | nil => cases bs <;> simp [compareParts]
  | cons a as ih =>
    cases bs with
    | nil => simp [compareParts]
    | cons b bs =>
      rw [compareParts, Ordering.then_eq_eq, Nat.compare_eq_eq, ih, List.cons.injEq]

theorem swap_compareParts (as bs : List Nat) :
    (compareParts as bs).swap = compareParts bs as := by
  induction as generalizing bs with
  | nil => cases bs <;> rfl
  | cons a as ih =>
    cases bs with
    | nil => rfl
    | cons b bs => rw [compareParts, compareParts, Ordering.swap_then, Nat.compare_swap, ih]

theorem compareParts_eq_lt_iff {as bs : List Nat} :
    compareParts as bs = .lt ↔ (as <+: bs ∧ as ≠ bs) ∨
      ∃ front a b as' bs', as = front ++ a :: as' ∧ bs = front ++ b :: bs' ∧ a < b := by
  induction as generalizing bs with
  | nil => cases bs <;> simp [compareParts]
  | cons a as ih =>
    cases bs with
    | nil => simp [compareParts]
    | cons b bs =>
      rw [compareParts, Ordering.then_eq_lt, Nat.compare_eq_lt, Nat.compare_eq_eq, ih,
        List.cons_prefix_cons]
      constructor
      · rintro (hlt | ⟨rfl, ⟨hfront, hne⟩ | ⟨front, c, d, cs, ds, rfl, rfl, hlt⟩⟩)
        · exact Or.inr ⟨[], a, b, as, bs, rfl, rfl, hlt⟩
        · exact Or.inl ⟨⟨rfl, hfront⟩, by simpa using hne⟩
        · exact Or.inr ⟨a :: front, c, d, cs, ds, rfl, rfl, hlt⟩
      · rintro (⟨⟨rfl, hfront⟩, hne⟩ | ⟨front, c, d, cs, ds, has, hbs, hlt⟩)
        · exact Or.inr ⟨rfl, Or.inl ⟨hfront, by simpa using hne⟩⟩
        · cases front with
          | nil =>
            obtain ⟨rfl, rfl⟩ := List.cons.inj has
            obtain ⟨rfl, rfl⟩ := List.cons.inj hbs
            exact Or.inl hlt
          | cons e front =>
            obtain ⟨rfl, rfl⟩ := List.cons.inj has
            obtain ⟨rfl, rfl⟩ := List.cons.inj hbs
            exact Or.inr ⟨rfl, Or.inr ⟨front, c, d, cs, ds, rfl, rfl, hlt⟩⟩

/-- Reading, writing and comparing versions fit together. Just the texts that spell a version are
read, as that version, and any other text is named in the complaint as it was given. A version is
read from some text if and only if it is read from its own. Two versions are equal if and only if
their texts are, and else the first number in which they differ decides, a version that goes on as
the other being the smaller. -/
theorem versions_and_texts :
    (∀ s v, parse s = .ok v ↔ Spells s v) ∧
      (∀ s e, parse s = .error e ↔ e = ⟨s⟩ ∧ ∀ v, ¬Spells s v) ∧
      (∀ v, (∃ s, parse s = .ok v) ↔ parse v.text = .ok v) ∧
      ∀ v w, (compare v w = .eq ↔ v.text = w.text) ∧ (v = w ↔ v.text = w.text) ∧
        (compare v w = .lt ↔ Precedes v w) ∧ (compare v w = .gt ↔ Precedes w v) := by
  refine ⟨fun s v => parse_eq_ok_iff, fun s e => parse_eq_error_iff, ?texts, ?order⟩
  case texts =>
    intro v
    simp only [parse_eq_ok_iff]
    constructor
    · rintro ⟨s, hs⟩
      exact hs.text
    · intro h
      exact ⟨v.text, h⟩
  case order =>
    intro v w
    have htext : v = w ↔ v.text = w.text := text_injective.eq_iff.symm
    have hparts : v.parts = w.parts ↔ v = w := by
      cases v
      cases w
      simp
    refine ⟨?_, htext, compareParts_eq_lt_iff, ?_⟩
    · rw [compare, compareParts_eq_eq_iff, hparts, htext]
    · rw [compare, ← swap_compareParts, Ordering.swap_eq_gt]
      exact compareParts_eq_lt_iff

example : parse " +007.4294967295\n" = .ok ⟨[7, 4294967295]⟩ := by rfl

end Version

end Installer
