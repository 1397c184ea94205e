import Installer.Digest.Guid
import Installer.Proofs.Text.Pieces
import Mathlib.Data.List.Forall2

/-!
# Stable identifiers

A stable identifier has the form of a name-based one: five groups of capital digits, of which one
tells the version and one the variant. A seed that spells a 128-bit value names that value as its
namespace, however it is spelled, so all spellings lead to the same identifiers.
-/
namespace Installer

namespace Digest

theorem length_wordBytes (x : UInt32) : (wordBytes x).length = 4 :=
  length_bigEndian 4 x.toNat

theorem Sha1.length_hash (message : List UInt8) : (Sha1.hash message).length = 20 := by
  simp [Sha1.hash, Sha1.State.bytes, length_wordBytes]

/-- The lowest `n` hexadecimal digits of a number, most significant first. -/
def hexDigits : Nat → Nat → List Nat
  | 0, _ => []
  | n + 1, value => hexDigits n (value / 16) ++ [value % 16]

theorem length_hexDigits (n value : Nat) : (hexDigits n value).length = n := by
  induction n generalizing value with
  | zero => rfl
  | succ n ih => simp [hexDigits, ih]

theorem lt_of_mem_hexDigits {n value d : Nat} (h : d ∈ hexDigits n value) : d < 16 := by
  induction n generalizing value with
  | zero => simp [hexDigits] at h
  | succ n ih =>
    rcases List.mem_append.1 h with h | h
    · exact ih h
    · rw [List.mem_singleton.1 h]
      omega

def nibbles (b : UInt8) : List Nat :=
  [b.toNat / 16, b.toNat % 16]

/-- A number has two digits for each of its bytes. -/
theorem hexDigits_eq (n value : Nat) :
    hexDigits (2 * n) value = (bigEndian n value).flatMap nibbles := by
  induction n generalizing value with
  | zero => rfl
  | succ n ih =>
    have hbyte : nibbles (UInt8.ofNat value) = [value / 16 % 16, value % 16] := by
      have hhigh : value % 256 / 16 = value / 16 % 16 := by omega
      have hlow : value % 256 % 16 = value % 16 := by omega
      simp [nibbles, hhigh, hlow]
    rw [show 2 * (n + 1) = 2 * n + 1 + 1 by omega, hexDigits, hexDigits, Nat.div_div_eq_div_mul, ih,
      bigEndian, List.flatMap_append, List.flatMap_singleton, hbyte, List.append_assoc]
    rfl

namespace Guid

/-- A hexadecimal digit of either letter case. -/
def IsHexDigit (d : Nat) (c : Char) : Prop :=
  c = Text.hexDigit d ∨ c = Text.capitalHexDigit d

theorem IsHexDigit.spec {d : Nat} {c : Char} (h : IsHexDigit d c) (hd : d < 16) :
    Text.hexDigit? c = some d ∧ isBrace c = false ∧ c ≠ '-' := by
  have hdigits : ∀ d < 16,
      (Text.hexDigit? (Text.hexDigit d) = some d ∧ isBrace (Text.hexDigit d) = false ∧
        Text.hexDigit d ≠ '-') ∧
      (Text.hexDigit? (Text.capitalHexDigit d) = some d ∧
        isBrace (Text.capitalHexDigit d) = false ∧ Text.capitalHexDigit d ≠ '-') := by decide
  rcases h with rfl | rfl
  · exact (hdigits d hd).1
  · exact (hdigits d hd).2

/-- A row of digits that writes bytes is read as these bytes. -/
theorem readBytes_of_digits {bytes : List UInt8} {cs : List Char}
    (h : List.Forall₂ IsHexDigit (bytes.flatMap nibbles) cs) : readBytes cs = some bytes := by
  induction bytes generalizing cs with
  | nil =>
    cases h
    rfl
  | cons b bytes ih =>
    have hb := b.toNat_lt
    rw [List.flatMap_cons, nibbles, List.cons_append, List.cons_append, List.nil_append] at h
    cases h with
    | cons hhigh h =>
      cases h with
      | cons hlow hrest =>
        have hvalue : 16 * (b.toNat / 16) + b.toNat % 16 = b.toNat := by omega
        have hbyte : UInt8.ofNat (16 * (b.toNat / 16) + b.toNat % 16) = b := by
          rw [hvalue, UInt8.ofNat_toNat]
        rw [readBytes, (hhigh.spec (by omega)).1, (hlow.spec (by omega)).1, ih hrest]
        exact congrArg (fun c => some (c :: bytes)) hbyte

/-- The identifier of a 128-bit value. -/
def ofValue (v : BitVec 128) : Guid :=
  ⟨bigEndian 16 v.toNat⟩

/-- How a 128-bit value is spelled: by its thirty-two digits, each in either letter case, with or
without hyphens between the groups. -/
inductive Spelling (v : BitVec 128) : List Char → Prop
  | plain {cs : List Char} (h : List.Forall₂ IsHexDigit (hexDigits 32 v.toNat) cs) : Spelling v cs
  | hyphenated {p q r s t : List Char}
      (h : List.Forall₂ IsHexDigit (hexDigits 32 v.toNat) (p ++ q ++ r ++ s ++ t))
      (hp : p.length = 8) (hq : q.length = 4) (hr : r.length = 4) (hs : s.length = 4) :
      Spelling v (p ++ '-' :: q ++ '-' :: r ++ '-' :: s ++ '-' :: t)

/-- The seed spells the value, with any number of braces at either end. -/
def SeedSpells (v : BitVec 128) (seed : String) : Prop :=
  ∃ front cs back, seed.toList = front ++ cs ++ back ∧
    (∀ c ∈ front ++ back, c = '\x7b' ∨ c = '\x7d') ∧ Spelling v cs

section read

variable {v : BitVec 128} {cs : List Char}

theorem readPlain_of_digits (h : List.Forall₂ IsHexDigit (hexDigits 32 v.toNat) cs) :
    readPlain cs = some (ofValue v) := by
  have hlength := h.length_eq
  rw [length_hexDigits] at hlength
  rw [hexDigits_eq 16] at h
  rw [readPlain, if_pos hlength.symm, readBytes_of_digits h]
  rfl

theorem Spelling.read (h : Spelling v cs) : Guid.read cs = some (ofValue v) := by
  cases h with
  | plain h =>
    have hlength := h.length_eq
    rw [length_hexDigits] at hlength
    rw [Guid.read, readPlain_of_digits h]
    simp [← hlength]
  | @hyphenated p q r s t h hp hq hr hs =>
    have hlength := h.length_eq
    simp only [length_hexDigits, List.length_append, hp, hq, hr, hs] at hlength
    have ht : t.length = 12 := by omega
    generalize hcs : p ++ '-' :: q ++ '-' :: r ++ '-' :: s ++ '-' :: t = cs
    have hwhole : cs.length = 36 := by
      simp [← hcs, hp, hq, hr, hs, ht]
    have hhyphens : cs[8]? = some '-' ∧ cs[13]? = some '-' ∧ cs[18]? = some '-' ∧
        cs[23]? = some '-' := by
      simp [← hcs, List.getElem?_append, hp, hq, hr, hs]
    have hgroups : cs.take 8 ++ (cs.drop 9).take 4 ++ (cs.drop 14).take 4 ++
        (cs.drop 19).take 4 ++ cs.drop 24 = p ++ q ++ r ++ s ++ t := by
      simp (disch := omega) [← hcs, List.drop_append, List.drop_of_length_le, hp, hq, hr, hs]
    have hplain : readPlain cs = none := by
      rw [readPlain, if_neg (by omega)]
    have hhyphenated : readHyphenated cs = some (ofValue v) := by
      rw [readHyphenated]
      simp only [hwhole, hhyphens, hgroups, readPlain_of_digits h]
      rfl
    rw [Guid.read, hplain, hhyphenated, if_neg (by simp [hwhole])]
    rfl

/-- No digit is a brace. -/
theorem not_isBrace_of_digits (h : List.Forall₂ IsHexDigit (hexDigits 32 v.toNat) cs) :
    ∀ c ∈ cs, isBrace c = false := by
  have hall : ∀ {ds : List Nat} {cs : List Char}, List.Forall₂ IsHexDigit ds cs →
      (∀ d ∈ ds, d < 16) → ∀ c ∈ cs, isBrace c = false := by
    intro ds cs h hds
    induction h with
    | nil => simp
    | cons hc _ ih =>
      rw [List.forall_mem_cons] at hds ⊢
      exact ⟨(hc.spec hds.1).2.1, ih hds.2⟩
  exact hall h fun d hd => lt_of_mem_hexDigits hd

theorem Spelling.not_isBrace (h : Spelling v cs) : ∀ c ∈ cs, isBrace c = false := by
  cases h with
  | plain h => exact not_isBrace_of_digits h
  | hyphenated h =>
    have hdigits := not_isBrace_of_digits h
    have hhyphen : isBrace '-' = false := by decide
    simp only [List.forall_mem_append, List.forall_mem_cons] at hdigits ⊢
    obtain ⟨⟨⟨⟨hp, hq⟩, hr⟩, hs⟩, ht⟩ := hdigits
    exact ⟨⟨⟨⟨hp, hhyphen, hq⟩, hhyphen, hr⟩, hhyphen, hs⟩, hhyphen, ht⟩

/-- A seed that spells a value names it. -/
theorem SeedSpells.ofSeed {seed : String} (h : SeedSpells v seed) : ofSeed seed = ofValue v := by
  obtain ⟨front, cs, back, hseed, hbraces, hcs⟩ := h
  have hstrip : Text.strip isBrace seed.toList = cs := by
    rw [hseed]
    apply Text.strip_append
    · intro c hc
      simpa [isBrace] using hbraces c hc
    · exact hcs.not_isBrace
  rw [Guid.ofSeed, hstrip, hcs.read, Option.getD_some]

end read

/-- The text of a name-based identifier: five groups of capital hexadecimal digits with hyphens
between them, of which the third begins with the version and the fourth with the variant. -/
def IsNameBased (text : String) : Prop :=
  ∃ p q r s t : List Char, text.toList = p ++ '-' :: q ++ '-' :: r ++ '-' :: s ++ '-' :: t ∧
    [p, q, r, s, t].map List.length = [8, 4, 4, 4, 12] ∧
    (∀ c ∈ p ++ q ++ r ++ s ++ t, ('0' ≤ c ∧ c ≤ '9') ∨ ('A' ≤ c ∧ c ≤ 'F')) ∧
    r.head? = some '5' ∧ ∃ c ∈ ['8', '9', 'A', 'B'], s.head? = some c

theorem IsNameBased.length {text : String} (h : IsNameBased text) : text.length = 36 := by
  obtain ⟨p, q, r, s, t, htext, hlengths, -⟩ := h
  obtain ⟨hp, hq, hr, hs, ht⟩ : p.length = 8 ∧ q.length = 4 ∧ r.length = 4 ∧ s.length = 4 ∧
      t.length = 12 := by simpa using hlengths
  rw [← String.length_toList, htext]
  simp [hp, hq, hr, hs, ht]

/-- What holds of all numbers below 256 holds of all bytes. -/
theorem forall_byte {P : Nat → Prop} (h : ∀ n < 256, P n) (b : UInt8) : P b.toNat :=
  h b.toNat b.toNat_lt

theorem version_digit (b : UInt8) : ((b &&& 0x0f) ||| 0x50).toNat / 16 = 5 := by
  rw [UInt8.toNat_or, UInt8.toNat_and]
  exact forall_byte (P := fun n => (n &&& 0x0f ||| 0x50) / 16 = 5) (by decide +kernel) b

theorem variant_digit (b : UInt8) : ((b &&& 0x3f) ||| 0x80).toNat / 16 ∈ [8, 9, 10, 11] := by
  rw [UInt8.toNat_or, UInt8.toNat_and]
  exact forall_byte (P := fun n => (n &&& 0x3f ||| 0x80) / 16 ∈ [8, 9, 10, 11])
    (by decide +kernel) b

theorem length_stamp {hash : List UInt8} (h : 16 ≤ hash.length) :
    (stamp hash).bytes.length = 16 := by
  simp [stamp, h]

/-- Version and variant are written into the seventh and the ninth byte. -/
theorem stamp_spec {hash : List UInt8} (h : 16 ≤ hash.length) :
    (∃ b, (stamp hash).bytes[6]? = some b ∧ b.toNat / 16 = 5) ∧
      ∃ b, (stamp hash).bytes[8]? = some b ∧ b.toNat / 16 ∈ [8, 9, 10, 11] := by
  constructor
  · refine ⟨(hash[6] &&& 0x0f) ||| 0x50, ?_, version_digit _⟩
    simp [stamp, show 6 < hash.length by omega]
  · refine ⟨(hash[8] &&& 0x3f) ||| 0x80, ?_, variant_digit _⟩
    simp [stamp, show 8 < hash.length by omega]

theorem length_capitalDigits (bytes : List UInt8) :
    (bytes.flatMap Text.capitalHexByte).length = 2 * bytes.length := by
  induction bytes with
  | nil => rfl
  | cons b bytes ih =>
    rw [List.flatMap_cons, List.length_append, ih, List.length_cons]
    simp only [Text.capitalHexByte, List.length_cons, List.length_nil]
    omega

/-- The first digit of a byte stands at twice the byte's place. -/
theorem getElem?_capitalDigits (bytes : List UInt8) (i : Nat) :
    (bytes.flatMap Text.capitalHexByte)[2 * i]? =
      bytes[i]?.map fun b => Text.capitalHexDigit (b.toNat / 16) := by
  induction bytes generalizing i with
  | nil => simp
  | cons b bytes ih =>
    cases i with
    | zero => rfl
    | succ i =>
      rw [List.flatMap_cons, Text.capitalHexByte, show 2 * (i + 1) = 2 * i + 1 + 1 by omega]
      simpa using ih i

theorem capital_of_mem_digits {bytes : List UInt8} {c : Char}
    (h : c ∈ bytes.flatMap Text.capitalHexByte) :
    ('0' ≤ c ∧ c ≤ '9') ∨ ('A' ≤ c ∧ c ≤ 'F') := by
  have hdigits : ∀ d < 16, ('0' ≤ Text.capitalHexDigit d ∧ Text.capitalHexDigit d ≤ '9') ∨
      ('A' ≤ Text.capitalHexDigit d ∧ Text.capitalHexDigit d ≤ 'F') := by decide
  obtain ⟨b, -, hc⟩ := List.mem_flatMap.1 h
  have hb := b.toNat_lt
  rw [Text.capitalHexByte, List.mem_pair] at hc
  rcases hc with rfl | rfl
  · exact hdigits _ (by omega)
  · exact hdigits _ (by omega)

/-- The text of a stamped hash is that of a name-based identifier. -/
theorem isNameBased_text {hash : List UInt8} (h : 16 ≤ hash.length) :
    IsNameBased (stamp hash).text := by
  obtain ⟨⟨version, hversion, hfive⟩, variant, hvariant, hdigit⟩ := stamp_spec h
  have hlength := length_capitalDigits (stamp hash).bytes
  have hsixth := getElem?_capitalDigits (stamp hash).bytes 6
  have heighth := getElem?_capitalDigits (stamp hash).bytes 8
  have hchars : ∀ c ∈ (stamp hash).bytes.flatMap Text.capitalHexByte, _ := fun c hc =>
    capital_of_mem_digits hc
  rw [length_stamp h] at hlength
  rw [hversion, Option.map_some, hfive] at hsixth
  rw [hvariant, Option.map_some] at heighth
  rw [text]
  generalize (stamp hash).bytes.flatMap Text.capitalHexByte = digits at *
  refine ⟨digits.take 8, (digits.drop 8).take 4, (digits.drop 12).take 4, (digits.drop 16).take 4,
    digits.drop 20, String.toList_ofList, ?_, ?_, ?_, ?_⟩
  · simp [hlength]
  · intro c hc
    simp only [List.mem_append] at hc
    rcases hc with (((hc | hc) | hc) | hc) | hc
    · exact hchars c (List.mem_of_mem_take hc)
    · exact hchars c (List.mem_of_mem_drop (List.mem_of_mem_take hc))
    · exact hchars c (List.mem_of_mem_drop (List.mem_of_mem_take hc))
    · exact hchars c (List.mem_of_mem_drop (List.mem_of_mem_take hc))
    · exact hchars c (List.mem_of_mem_drop hc)
  · rw [List.head?_take, if_neg (by decide), List.head?_drop, hsixth]
    rfl
  · refine ⟨Text.capitalHexDigit (variant.toNat / 16), ?_, ?_⟩
    · have hvariants : ∀ d ∈ [8, 9, 10, 11], Text.capitalHexDigit d ∈ ['8', '9', 'A', 'B'] := by
        decide
      exact hvariants _ hdigit
    · rw [List.head?_take, if_neg (by decide), List.head?_drop, heighth]

/-- Stable identifiers have the form of name-based ones, and they are the same for all spellings of
a 128-bit value as a seed: each spelling names the value itself as the namespace. -/
theorem stable_of_spellings :
    (∀ seed name, IsNameBased (stable seed name) ∧ (stable seed name).length = 36) ∧
      ∀ (v : BitVec 128) (seed : String), SeedSpells v seed → ∀ name,
        stable seed name = (named (ofValue v) name).text ∧
          ∀ other, SeedSpells v other → stable other name = stable seed name := by
  constructor
  · intro seed name
    have hform : IsNameBased (stable seed name) := by
      apply isNameBased_text
      rw [Sha1.length_hash]
      decide
    exact ⟨hform, hform.length⟩
  · intro v seed hseed name
    refine ⟨?_, fun other hother => ?_⟩
    · rw [stable, hseed.ofSeed]
    · rw [stable, stable, hother.ofSeed, hseed.ofSeed]

instance : DecidableRel IsHexDigit := fun d c =>
  inferInstanceAs (Decidable (c = Text.hexDigit d ∨ c = Text.capitalHexDigit d))

/-- A value with letters among its digits. -/
def letteredValue : BitVec 128 := 0x6fe30b47257743ad90951861ba25889b

/-- The value with hyphens, in mixed letter case. -/
def hyphenatedSeed : String := "\x7b\x7b6fe30b47-2577-43AD-9095-1861ba25889B\x7d"

/-- The value without hyphens, in other letter case. -/
def plainSeed : String := "6FE30B47257743ad90951861BA25889b\x7d\x7b"

theorem stable_of_spellings_braced :
    SeedSpells letteredValue hyphenatedSeed ∧ SeedSpells letteredValue plainSeed ∧
      stable hyphenatedSeed "Component.a.txt" =
        (named (ofValue letteredValue) "Component.a.txt").text ∧
      stable plainSeed "Component.a.txt" = stable hyphenatedSeed "Component.a.txt" := by
  have hhyphenated : SeedSpells letteredValue hyphenatedSeed := by
    refine ⟨['\x7b', '\x7b'], "6fe30b47-2577-43AD-9095-1861ba25889B".toList, ['\x7d'],
      by decide +kernel, by simp, ?_⟩
    exact .hyphenated (p := "6fe30b47".toList) (q := "2577".toList) (r := "43AD".toList)
      (s := "9095".toList) (t := "1861ba25889B".toList) (by decide +kernel) rfl rfl rfl rfl
  have hplain : SeedSpells letteredValue plainSeed :=
    ⟨[], "6FE30B47257743ad90951861BA25889b".toList, ['\x7d', '\x7b'],
      by decide +kernel, by simp, .plain (by decide +kernel)⟩
  obtain ⟨hstable, hothers⟩ :=
    stable_of_spellings.2 letteredValue hyphenatedSeed hhyphenated "Component.a.txt"
  exact ⟨hhyphenated, hplain, hstable, hothers plainSeed hplain⟩

end Guid

end Digest

end Installer
