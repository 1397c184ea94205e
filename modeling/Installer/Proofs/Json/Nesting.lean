import Installer.Json.Decode
import Installer.Proofs.Json.Spelling

/-!
# How deep values nest

An array or an object nests one level deeper than what is in it. A plain value can be taken up
wherever there is room for as many levels as it nests.
-/
namespace Installer.Json

/-- How many arrays and objects lie around the innermost parts of a value, at most. -/
def nesting : Json → Nat
  | .array js => itemNesting js + 1
  | .object ms => memberNesting ms + 1
  | _ => 0
where
  itemNesting : List Json → Nat
    | [] => 0
    | j :: js => max (nesting j) (itemNesting js)
  memberNesting : List (Option String × Json) → Nat
    | [] => 0
    | (_, j) :: ms => max (nesting j) (memberNesting ms)

theorem itemNesting_le {js : List Json} {depth : Nat} :
    nesting.itemNesting js ≤ depth ↔ ∀ j ∈ js, j.nesting ≤ depth := by
  induction js with
  | nil => simp [nesting.itemNesting]
  | cons j js ih => rw [nesting.itemNesting, Nat.max_le, ih, List.forall_mem_cons]

theorem memberNesting_le {ms : List (Option String × Json)} {depth : Nat} :
    nesting.memberNesting ms ≤ depth ↔ ∀ m ∈ ms, m.2.nesting ≤ depth := by
  induction ms with
  | nil => simp [nesting.memberNesting]
  | cons m ms ih => rw [nesting.memberNesting, Nat.max_le, ih, List.forall_mem_cons]

theorem nesting_array_le {js : List Json} {depth : Nat} (h : (array js).nesting ≤ depth) :
    ∃ inner, depth = inner + 1 ∧ ∀ j ∈ js, j.nesting ≤ inner := by
  rw [nesting] at h
  exact ⟨depth - 1, by omega, itemNesting_le.1 (by omega)⟩

theorem nesting_record_le {ms : List (String × Json)} {depth : Nat}
    (h : (record ms).nesting ≤ depth) :
    ∃ inner, depth = inner + 1 ∧ ∀ m ∈ ms, m.2.nesting ≤ inner := by
  rw [record, nesting] at h
  have hinner := memberNesting_le.1 (Nat.le_sub_one_of_lt h)
  exact ⟨depth - 1, by omega, List.forall_mem_map.1 hinner⟩

@[simp] theorem nesting_text (s : String) : (text s).nesting = 0 := rfl

@[simp] theorem nesting_bool (b : Bool) : (bool b).nesting = 0 := rfl

namespace Number

/-- Digits of a number that fits are gathered into it. -/
theorem gatherWhole_eq {m : Nat} {ds : List Nat} {e : Int}
    (h : ds.foldl (fun n d => 10 * n + d) m ≤ maxSignificand) :
    gatherWhole (m, e) ds = (ds.foldl (fun n d => 10 * n + d) m, e) := by
  have hgrows : ∀ (ds : List Nat) (n : Nat), n ≤ ds.foldl (fun n d => 10 * n + d) n := by
    intro ds
    induction ds with
    | nil => exact fun n => Nat.le_refl n
    | cons d ds ih =>
      intro n
      have := ih (10 * n + d)
      rw [List.foldl_cons]
      omega
  induction ds generalizing m with
  | nil => rfl
  | cons d ds ih =>
    rw [List.foldl_cons] at h ⊢
    rw [gatherWhole, if_pos ((hgrows ds _).trans h), ih h]

/-- Rounding at most doubles a number. -/
theorem roundToDouble_le (n : Nat) : roundToDouble n ≤ 2 * n := by
  by_cases hn : n = 0
  · subst hn
    decide
  let unit := 1 <<< (n.log2 - 52)
  have hunit : unit ≤ n := by
    change 1 <<< (n.log2 - 52) ≤ n
    rw [Nat.one_shiftLeft]
    exact (Nat.pow_le_pow_right (by decide) (Nat.sub_le _ _)).trans (Nat.log2_self_le hn)
  have hquotient : n / unit * unit ≤ n := Nat.div_mul_le_self n unit
  have hup : ∀ up : Bool, (if up then n / unit + 1 else n / unit) * unit ≤ n / unit * unit + unit := by
    intro up
    cases up with
    | true => rw [if_pos rfl, Nat.succ_mul]
    | false => simp
  exact (hup _).trans (by omega)

/-- An integer that is not too large can be read as a double. -/
theorem isReadable_integer (negative : Bool) {n : Nat} (h : n ≤ maxSignificand) :
    isReadable ⟨negative, n, [], none⟩ = true := by
  have hdigits : ((Nat.toDigits 10 n).map fun c => c.toNat - 48).foldl (fun n d => 10 * n + d) 0 =
      n := digitValue_decimal n
  have hgather := gatherWhole_eq (e := 0) (hdigits.le.trans h)
  have hround := roundToDouble_le n
  have hlimit : 2 * maxSignificand < doubleLimit := by decide
  have hone : roundToDouble (Nat.pow 10 (0 : Int).toNat) = 1 := by decide
  have hscientific : scientific ⟨negative, n, [], none⟩ = (n, 0) := by
    simp [scientific, gatherFraction, hgather, hdigits]
  rw [isReadable, hscientific]
  simp only [hone, Nat.mul_one]
  have hbelow : roundToDouble n < doubleLimit := by omega
  simp [hbelow]

end Number

theorem readableItems_iff {js : List Json} {depth : Nat} :
    isReadable.readableItems depth js = true ↔ ∀ j ∈ js, isReadable depth j = true := by
  induction js with
  | nil => simp [isReadable.readableItems]
  | cons j js ih => rw [isReadable.readableItems, Bool.and_eq_true, ih, List.forall_mem_cons]

theorem readableMembers_iff {ms : List (Option String × Json)} {depth : Nat} :
    isReadable.readableMembers depth ms = true ↔
      ∀ m ∈ ms, m.1.isSome = true ∧ isReadable depth m.2 = true := by
  induction ms with
  | nil => simp [isReadable.readableMembers]
  | cons m ms ih =>
    rw [isReadable.readableMembers, Bool.and_eq_true, Bool.and_eq_true, ih, List.forall_mem_cons]

/-- A plain value can be taken up where there is room for its levels. -/
theorem isReadable_of_isPlain {j : Json} (h : j.IsPlain) {depth : Nat}
    (hdepth : j.nesting ≤ depth) : isReadable depth j = true := by
  induction h generalizing depth with
  | null | bool b | text s => cases depth <;> rfl
  | integer negative h => cases depth <;> exact Number.isReadable_integer negative h
  | @array js h ih =>
    obtain ⟨inner, rfl, hjs⟩ := nesting_array_le hdepth
    exact readableItems_iff.2 fun j hj => ih j hj (hjs j hj)
  | @record ms h ih =>
    obtain ⟨inner, rfl, hms⟩ := nesting_record_le hdepth
    exact readableMembers_iff.2 (List.forall_mem_map.2 fun m hm => ⟨rfl, ih m hm (hms m hm)⟩)

end Installer.Json
