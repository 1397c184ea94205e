import Installer.Manifest.Decode
import Installer.Proofs.Json.Nesting

/-!
# Taking records back

A record is written as an object of those of its fields that are there, and a decoder looks them up
by name. So each field is taken back by itself: it is found under its name or missing where it had no
value.
-/
namespace Installer

open Schema

/-- Words that tell the values of their type apart. -/
class Text.LawfulWorded (α : Type) [Text.Worded α] : Prop where
  ofWord?_word : ∀ a : α, Text.ofWord? (Text.Worded.word a) = some a

attribute [simp] Text.LawfulWorded.ofWord?_word

namespace Schema

theorem Attributes.eq_of_entries {as bs : Attributes} (h : as.entries = bs.entries) : as = bs := by
  cases as
  cases bs
  simpa using h

theorem insertEntry_of_lt {name value : String} {as : List (String × String)}
    (h : ∀ a ∈ as, a.1 < name) : insertEntry name value as = as ++ [(name, value)] := by
  induction as with
  | nil => rfl
  | cons a as ih =>
    have ha : a.1 < name := h a (by simp)
    have has := ih fun b hb => h b (by simp [hb])
    rw [insertEntry, if_neg (String.lt_asymm ha), if_neg (String.ne_of_lt ha).symm, has]
    rfl

/-- Attributes that are listed in order are put together again. -/
theorem Attributes.ofList_entries (as : Attributes) : Attributes.ofList as.entries = as := by
  have hfold : ∀ (rest : List (String × String)) (start : Attributes),
      (start.entries ++ rest).Pairwise (fun a b => a.1 < b.1) →
        (start.insertAll rest).entries = start.entries ++ rest := by
    intro rest
    induction rest with
    | nil => exact fun start _ => (List.append_nil _).symm
    | cons a rest ih =>
      intro start h
      have hbefore : ∀ b ∈ start.entries, b.1 < a.1 := fun b hb =>
        (List.pairwise_append.1 h).2.2 b hb a (by simp)
      have hinsert : (start.insert a.1 a.2).entries = start.entries ++ [a] :=
        insertEntry_of_lt hbefore
      change ((start.insert a.1 a.2).insertAll rest).entries = _
      rw [ih _ (by rwa [hinsert, List.append_assoc]), hinsert, List.append_assoc]
      rfl
  exact eq_of_entries (hfold as.entries .empty as.sorted)

end Schema

namespace Json

/-- What is written item by item and taken back item by item is taken back. -/
theorem mapM_map_eq_some {α β : Type} {encode : α → β} {decode : β → Option α} {xs : List α}
    (h : ∀ x ∈ xs, decode (encode x) = some x) : (xs.map encode).mapM decode = some xs := by
  induction xs with
  | nil => rfl
  | cons x xs ih =>
    have hx := h x (by simp)
    have hxs := ih fun y hy => h y (by simp [hy])
    rw [List.map_cons, List.mapM_cons, hx, hxs]
    rfl

/-- What was taken item by item was taken from some item. -/
theorem exists_of_mem_of_mapM {α β : Type} {f : α → Option β} {xs : List α} {ys : List β}
    (h : xs.mapM f = some ys) {y : β} (hy : y ∈ ys) : ∃ x ∈ xs, f x = some y := by
  induction xs generalizing ys with
  | nil =>
    obtain rfl : [] = ys := Option.some.inj h
    simp at hy
  | cons x xs ih =>
    rw [List.mapM_cons] at h
    obtain ⟨z, hz, h⟩ := Option.bind_eq_some_iff.1 h
    obtain ⟨zs, hzs, h⟩ := Option.bind_eq_some_iff.1 h
    obtain rfl := Option.some.inj h
    rcases List.mem_cons.1 hy with rfl | hy
    · exact ⟨x, by simp, hz⟩
    · obtain ⟨w, hw, hwy⟩ := ih hzs hy
      exact ⟨w, by simp [hw], hwy⟩

/-- The fields of a record that are there. -/
def presentFields (ms : List (String × Option Json)) : Fields :=
  ms.filterMap fun m => m.2.map (m.1, ·)

theorem present_eq_record (ms : List (String × Option Json)) :
    present ms = record (presentFields ms) :=
  rfl

theorem present_ne_null (ms : List (String × Option Json)) : present ms ≠ .null := by
  simp [present, record]

/-- A property of all fields of a record that are there. -/
def EachField (P : Json → Prop) (ms : List (String × Option Json)) : Prop :=
  ∀ m ∈ ms, ∀ j ∈ m.2, P j

@[simp] theorem eachField_nil (P : Json → Prop) : EachField P [] := by
  simp [EachField]

@[simp] theorem eachField_cons (P : Json → Prop) (name : String) (j : Option Json)
    (ms : List (String × Option Json)) :
    EachField P ((name, j) :: ms) ↔ (∀ k ∈ j, P k) ∧ EachField P ms :=
  List.forall_mem_cons

theorem forall_mem_presentFields {P : Json → Prop} {ms : List (String × Option Json)} :
    (∀ m ∈ presentFields ms, P m.2) ↔ EachField P ms := by
  simp only [presentFields, List.mem_filterMap, Option.map_eq_some_iff, EachField, Option.mem_def]
  constructor
  · exact fun h m hm j hj => h (m.1, j) ⟨m, hm, j, hj, rfl⟩
  · rintro h _ ⟨m, hm, j, hj, rfl⟩
    exact h m hm j hj

theorem isPlain_present {ms : List (String × Option Json)} (h : EachField IsPlain ms) :
    (present ms).IsPlain :=
  .record (forall_mem_presentFields.2 h)

theorem eachField_of_isPlain {ms : List (String × Option Json)} (h : (present ms).IsPlain) :
    EachField IsPlain ms := by
  rw [← forall_mem_presentFields]
  generalize hj : present ms = j at h
  cases h with
  | @record fs hfs =>
    have hinjective : Function.Injective fun m : String × Json => (some m.1, m.2) := by
      intro m n hmn
      simpa [Prod.ext_iff] using hmn
    have hfields : presentFields ms = fs :=
      List.map_injective_iff.2 hinjective (Json.object.inj hj)
    rwa [hfields]
  | _ => cases hj

theorem nesting_present_le {ms : List (String × Option Json)} {depth : Nat}
    (h : (present ms).nesting ≤ depth) :
    ∃ inner, depth = inner + 1 ∧ EachField (·.nesting ≤ inner) ms := by
  obtain ⟨inner, rfl, hms⟩ := nesting_record_le h
  exact ⟨inner, rfl, forall_mem_presentFields.1 hms⟩

theorem nesting_present_le_of {ms : List (String × Option Json)} {depth : Nat}
    (h : EachField (·.nesting ≤ depth) ms) : (present ms).nesting ≤ depth + 1 := by
  have hmembers : nesting.memberNesting ((presentFields ms).map fun m => (some m.1, m.2)) ≤ depth :=
    memberNesting_le.2 (List.forall_mem_map.2 (forall_mem_presentFields.2 h))
  rw [present_eq_record, record, nesting]
  omega

theorem sublist_map_presentFields (ms : List (String × Option Json)) :
    ((presentFields ms).map (·.1)).Sublist (ms.map (·.1)) := by
  induction ms with
  | nil => exact .slnil
  | cons m ms ih =>
    obtain ⟨name, j⟩ := m
    cases j with
    | none => exact ih.cons name
    | some j => exact ih.cons_cons name

/-- The known fields of a record that has no others are all its fields. -/
theorem fields?_present {names : List String} {ms : List (String × Option Json)}
    (hnames : ms.map (·.1) = names) (hnodup : names.Nodup) :
    fields? names (present ms) = some (presentFields ms) := by
  have hmem : ∀ m ∈ presentFields ms, m.1 ∈ names := by
    intro m hm
    obtain ⟨k, hk, hkm⟩ := List.mem_filterMap.1 hm
    obtain ⟨j, _, rfl⟩ := Option.map_eq_some_iff.1 hkm
    exact hnames ▸ List.mem_map_of_mem hk
  have hall : ∀ fs : Fields, (fs.map fun m => (some m.1, m.2)).mapM
      (fun m : Option String × Json => m.1.map (·, m.2)) = some fs :=
    fun fs => mapM_map_eq_some fun m _ => rfl
  have hdistinct : ((presentFields ms).map (·.1)).Nodup :=
    (hnames ▸ hnodup).sublist (sublist_map_presentFields ms)
  rw [present_eq_record, record, fields?, knownMembers?, hall]
  have hknown : (presentFields ms).filter (fun m => m.1 ∈ names) = presentFields ms :=
    List.filter_eq_self.2 fun m hm => by simpa using hmem m hm
  simp [hknown, hdistinct]

@[simp] theorem get?_presentFields_nil (key : String) :
    Fields.get? (presentFields []) key = none := rfl

/-- A field is found under its name, if it is there. -/
@[simp] theorem get?_presentFields_cons (name key : String) (j : Option Json)
    (ms : List (String × Option Json)) :
    Fields.get? (presentFields ((name, j) :: ms)) key =
      if name = key then j.or (Fields.get? (presentFields ms) key)
      else Fields.get? (presentFields ms) key := by
  cases j with
  | none =>
    change Fields.get? (presentFields ms) key = _
    simp
  | some j =>
    change (((name, j) :: presentFields ms).find? (·.1 == key)).map (·.2) = _
    by_cases h : name = key
    · simp [h]
    · simp [h, Fields.get?]

/-- A decoder takes a value back from its encoding, wherever there is room for it. -/
structure TakesBack {α : Type} (decode : Nat → Decoder α) (encode : α → Json) (x : α) : Prop where
  plain : (encode x).IsPlain
  take : ∀ depth, (encode x).nesting ≤ depth → decode depth (encode x) = some x

/-- A decoder takes a value from somewhere. -/
def Yields {α : Type} (d : Decoder α) (x : α) : Prop :=
  ∃ j, d j = some x

section fields

variable {α : Type} {fs : Fields} {name : String}

@[simp] theorem Fields.required_eq_bind (d : Decoder α) :
    fs.required name d = (fs.get? name).bind d := rfl

@[simp] theorem Fields.withDefault_eq_elim (d : Decoder α) (absent : α) :
    fs.withDefault name d absent = (fs.get? name).elim (some absent) d := by
  rw [Fields.withDefault]
  cases fs.get? name <;> rfl

@[simp] theorem Fields.optional_eq_elim (d : Decoder α) :
    fs.optional name d = (fs.get? name).elim (some none) d.nullable :=
  Fields.withDefault_eq_elim _ _

end fields

/-- A record is taken back where its fields are. -/
theorem takesBack_record {α : Type} {names : List String} {build : Nat → Fields → Option α}
    {encode : α → Json} {x : α} {ms : List (String × Option Json)} (hencode : encode x = present ms)
    (hnames : ms.map (·.1) = names) (hnodup : names.Nodup) (hplain : EachField IsPlain ms)
    (hbuild : ∀ depth, EachField (·.nesting ≤ depth) ms →
      build depth (presentFields ms) = some x) :
    TakesBack (Decoder.record names build) encode x := by
  constructor
  · rw [hencode]
    exact isPlain_present hplain
  · intro depth hdepth
    rw [hencode] at hdepth ⊢
    obtain ⟨inner, rfl, hfields⟩ := nesting_present_le hdepth
    rw [Decoder.record, fields?_present hnames hnodup, Option.bind_some, hbuild inner hfields]

@[simp] theorem isPlain_text (s : String) : (text s).IsPlain := .text s

@[simp] theorem isPlain_bool (b : Bool) : (bool b).IsPlain := .bool b

@[simp] theorem isPlain_word {α : Type} [Text.Worded α] (a : α) : (word a).IsPlain := .text _

@[simp] theorem nesting_word {α : Type} [Text.Worded α] (a : α) : (word a).nesting = 0 := rfl

@[simp] theorem isPlain_optionalText (s : Option String) : (optionalText s).IsPlain := by
  cases s with
  | none => exact .null
  | some s => exact .text s

@[simp] theorem nesting_optionalText (s : Option String) : (optionalText s).nesting = 0 := by
  cases s <;> rfl

@[simp] theorem isPlain_mapping (as : Attributes) : (mapping as).IsPlain :=
  .record (List.forall_mem_map.2 fun a _ => isPlain_text a.2)

@[simp] theorem nesting_mapping (as : Attributes) : (mapping as).nesting = 1 := by
  have hmembers : nesting.memberNesting ((as.entries.map fun a => (a.1, text a.2)).map
      fun m => (some m.1, m.2)) ≤ 0 :=
    memberNesting_le.2 (List.forall_mem_map.2 (List.forall_mem_map.2 fun _ _ => Nat.le_refl 0))
  rw [mapping, record, nesting]
  omega

@[simp] theorem isPlain_texts (ss : List String) : (texts ss).IsPlain :=
  .array (List.forall_mem_map.2 fun s _ => isPlain_text s)

@[simp] theorem nesting_texts (ss : List String) : (texts ss).nesting = 1 := by
  have hitems : nesting.itemNesting (ss.map text) ≤ 0 :=
    itemNesting_le.2 (List.forall_mem_map.2 fun _ _ => Nat.le_refl 0)
  rw [texts, nesting]
  omega

@[simp] theorem nesting_int (n : Int) : (int n).nesting = 0 := rfl

@[simp] theorem nesting_nat (n : Nat) : (nat n).nesting = 0 := rfl

namespace Decoder

@[simp] theorem text_text (s : String) : Decoder.text (Json.text s) = some s := rfl

@[simp] theorem bool_bool (b : Bool) : Decoder.bool (Json.bool b) = some b := rfl

@[simp] theorem nullable_optionalText (s : Option String) :
    Decoder.text.nullable (optionalText s) = some s := by
  cases s <;> rfl

@[simp] theorem word_word {α : Type} [Text.Worded α] [Text.LawfulWorded α] (emptyObject : Bool)
    (depth : Nat) (a : α) : Decoder.word emptyObject depth (Json.word a) = some a := by
  have hword := Text.LawfulWorded.ofWord?_word a
  cases depth <;> exact hword

theorem mapping_mapping {depth : Nat} (h : 1 ≤ depth) (as : Attributes) :
    Decoder.mapping depth (Json.mapping as) = some as := by
  obtain ⟨depth, rfl⟩ := Nat.exists_eq_add_one.2 h
  have hmembers : ((as.entries.map fun a => (a.1, Json.text a.2)).map
      fun m => (some m.1, m.2)).mapM textMember = some as.entries := by
    rw [List.map_map]
    exact mapM_map_eq_some fun a _ => rfl
  rw [Json.mapping, Json.record, mapping, hmembers, Option.map_some, Attributes.ofList_entries]

theorem texts_texts {depth : Nat} (h : 1 ≤ depth) (ss : List String) :
    Decoder.texts depth (Json.texts ss) = some ss := by
  obtain ⟨depth, rfl⟩ := Nat.exists_eq_add_one.2 h
  exact mapM_map_eq_some fun s _ => rfl

theorem between_int {lo hi n : Int} (hlo : lo ≤ n) (hhi : n ≤ hi) :
    Decoder.between lo hi (int n) = some n := by
  have hinteger : Number.integer? ⟨n < 0, n.natAbs, [], none⟩ = some n := by
    cases n with
    | ofNat m => rfl
    | negSucc m =>
      rw [decide_eq_true (Int.negSucc_lt_zero m)]
      rfl
  rw [int, between, hinteger, Option.filter_some_pos]
  simp [hlo, hhi]

theorem bounds_of_between {lo hi n : Int} {j : Json} (h : Decoder.between lo hi j = some n) :
    lo ≤ n ∧ n ≤ hi := by
  cases j with
  | number m => simpa using (Option.filter_eq_some_iff.1 h).2
  | _ => cases h

theorem isPlain_int {n : Int} (h : n.natAbs ≤ Number.maxSignificand) : (int n).IsPlain :=
  .integer _ h

theorem nat_eq_int (n : Nat) : nat n = int n := by
  simp [nat, int]

/-- An integer that was taken fits into sixty-four bits, so it is taken back. -/
theorem takesBack_int64 {n : Int} (h : Yields int64 n) : TakesBack (fun _ => int64) int n := by
  obtain ⟨j, h⟩ := h
  obtain ⟨hlo, hhi⟩ := bounds_of_between h
  refine ⟨isPlain_int ?_, fun _ _ => between_int hlo hhi⟩
  rw [Number.maxSignificand]
  omega

theorem takesBack_nat32 {n : Nat} (h : Yields nat32 n) : TakesBack (fun _ => nat32) nat n := by
  obtain ⟨j, h⟩ := h
  obtain ⟨m, hm, rfl⟩ := Option.map_eq_some_iff.1 h
  obtain ⟨hlo, hhi⟩ := bounds_of_between hm
  have hcast : ((m.toNat : Nat) : Int) = m := Int.toNat_of_nonneg hlo
  refine ⟨?_, fun _ _ => ?_⟩
  · rw [nat_eq_int, hcast]
    refine isPlain_int ?_
    rw [Number.maxSignificand]
    omega
  · rw [nat_eq_int, nat32, hcast, between_int hlo hhi, Option.map_some]

@[simp] theorem elim_optText (s : Option String) :
    (Manifest.optText s).elim (some none) Decoder.text.nullable = some s := by
  cases s <;> rfl

@[simp] theorem elim_optBool (b : Option Bool) :
    (Manifest.optBool b).elim (some none) Decoder.bool.nullable = some b := by
  cases b <;> rfl

@[simp] theorem elim_word {α : Type} [Text.Worded α] [Text.LawfulWorded α] (emptyObject : Bool)
    (depth : Nat) (a : Option α) :
    a.elim (some none) ((Decoder.word emptyObject depth).nullable ∘ Json.word) = some a := by
  cases a with
  | none => rfl
  | some a =>
    change (Decoder.word emptyObject depth (Json.word a)).map some = _
    rw [word_word, Option.map_some]

/-- A value that may be missing is taken back where it is there. -/
theorem elim_takesBack {α : Type} {decode : Nat → Decoder α} {encode : α → Json} {x : Option α}
    (h : ∀ y, x = some y → TakesBack decode encode y) (hnull : ∀ y, encode y ≠ .null) {depth : Nat}
    (hdepth : ∀ y, x = some y → (encode y).nesting ≤ depth) :
    x.elim (some none) ((decode depth).nullable ∘ encode) = some x := by
  cases x with
  | none => rfl
  | some y =>
    have htake := (h y rfl).take depth (hdepth y rfl)
    rw [Option.elim_some, Function.comp_apply, nullable, htake, Option.map_some]
    exact hnull y

theorem elim_int64 {x : Option Int} (h : ∀ n, x = some n → TakesBack (fun _ => int64) int n) :
    x.elim (some none) (int64.nullable ∘ int) = some x :=
  elim_takesBack h (by simp [int]) fun _ _ => Nat.le_refl 0

theorem elim_nat32 {x : Option Nat} (h : ∀ n, x = some n → TakesBack (fun _ => nat32) nat n) :
    x.elim (some none) (nat32.nullable ∘ nat) = some x :=
  elim_takesBack h (by simp [nat]) fun _ _ => Nat.le_refl 0

/-- A row is taken back item by item. -/
theorem list_map {α : Type} {decode : Nat → Decoder α} {encode : α → Json} {xs : List α}
    (h : ∀ x ∈ xs, TakesBack decode encode x) {depth : Nat}
    (hdepth : (Json.array (xs.map encode)).nesting ≤ depth) :
    Decoder.list decode depth (.array (xs.map encode)) = some xs := by
  obtain ⟨inner, rfl, hxs⟩ := nesting_array_le hdepth
  exact mapM_map_eq_some fun x hx => (h x hx).take inner (List.forall_mem_map.1 hxs x hx)

end Decoder

theorem isPlain_array_map {α : Type} {decode : Nat → Decoder α} {encode : α → Json} {xs : List α}
    (h : ∀ x ∈ xs, TakesBack decode encode x) : (Json.array (xs.map encode)).IsPlain :=
  .array (List.forall_mem_map.2 fun x hx => (h x hx).plain)

@[simp] theorem forall_optText {P : Json → Prop} (s : Option String) :
    (∀ j, Manifest.optText s = some j → P j) ↔ ∀ t, s = some t → P (text t) := by
  simp [Manifest.optText]

@[simp] theorem forall_optBool {P : Json → Prop} (b : Option Bool) :
    (∀ j, Manifest.optBool b = some j → P j) ↔ ∀ c, b = some c → P (bool c) := by
  cases b <;> simp [Manifest.optBool]

section taken

variable {α : Type} {d : Decoder α} {fs : Fields} {name : String} {depth : Nat}

theorem Decoder.bind_eq_some {β : Type} {x : Option α} {f : α → Option β} {y : β} :
    (x >>= f) = some y ↔ ∃ a, x = some a ∧ f a = some y :=
  Option.bind_eq_some_iff

theorem exists_of_yields_record {names : List String} {build : Nat → Fields → Option α} {x : α}
    (h : Yields (Decoder.record names build depth) x) :
    ∃ inner fs, build inner fs = some x := by
  obtain ⟨j, h⟩ := h
  cases depth with
  | zero => cases h
  | succ inner =>
    obtain ⟨fs, _, hbuild⟩ := Option.bind_eq_some_iff.1 h
    exact ⟨inner, fs, hbuild⟩

theorem yields_of_required {x : α} (h : fs.required name d = some x) : Yields d x := by
  obtain ⟨j, _, hj⟩ := Option.bind_eq_some_iff.1 h
  exact ⟨j, hj⟩

theorem eq_or_yields_of_withDefault {absent x : α} (h : fs.withDefault name d absent = some x) :
    x = absent ∨ Yields d x := by
  rw [Fields.withDefault] at h
  split at h
  · exact Or.inl (Option.some.inj h).symm
  · exact Or.inr ⟨_, h⟩

theorem yields_of_withDefault {absent x : α} (habsent : Yields d absent)
    (h : fs.withDefault name d absent = some x) : Yields d x := by
  rcases eq_or_yields_of_withDefault h with rfl | h
  · exact habsent
  · exact h

theorem yields_of_optional {x : Option α} (h : fs.optional name d = some x) :
    ∀ y, x = some y → Yields d y := by
  rintro y rfl
  rcases eq_or_yields_of_withDefault h with habsent | ⟨j, hj⟩
  · cases habsent
  · unfold Decoder.nullable at hj
    split at hj
    · cases hj
    · obtain ⟨z, hz, hzy⟩ := Option.map_eq_some_iff.1 hj
      obtain rfl := Option.some.inj hzy
      exact ⟨j, hz⟩

theorem yields_of_yields_list {decode : Nat → Decoder α} {xs : List α}
    (h : Yields (Decoder.list decode depth) xs) : ∀ x ∈ xs, ∃ inner, Yields (decode inner) x := by
  intro x hx
  obtain ⟨j, h⟩ := h
  unfold Decoder.list at h
  split at h
  case h_1 inner js =>
    obtain ⟨k, _, hk⟩ := exists_of_mem_of_mapM h hx
    exact ⟨inner, k, hk⟩
  case h_2 => cases h

/-- The items of a row that may be missing. -/
theorem yields_of_withDefault_list {decode : Nat → Decoder α} {xs : List α}
    (h : fs.withDefault name (Decoder.list decode depth) [] = some xs) :
    ∀ x ∈ xs, ∃ inner, Yields (decode inner) x := by
  rcases eq_or_yields_of_withDefault h with rfl | h
  · simp
  · exact yields_of_yields_list h

/-- A row that was taken is taken back item by item where each item that was taken is. -/
theorem takesBack_of_withDefault_list {decode : Nat → Decoder α} {encode : α → Json} {xs : List α}
    (h : fs.withDefault name (Decoder.list decode depth) [] = some xs)
    (htake : ∀ {x inner}, Yields (decode inner) x → TakesBack decode encode x) :
    ∀ x ∈ xs, TakesBack decode encode x := by
  intro x hx
  obtain ⟨_, hyields⟩ := yields_of_withDefault_list h x hx
  exact htake hyields

end taken

end Json

end Installer
