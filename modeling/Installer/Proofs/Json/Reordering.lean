import Installer.Proofs.Json.Nesting
import Mathlib.Data.List.Forall2

/-!
# Values up to the order of members

The order of members means nothing where no name comes twice. Decoders take a value apart by the
names in its objects, so two values that differ in this order only are taken or refused together,
and with the same result.
-/
namespace Installer

open Schema

namespace Schema

theorem perm_insertEntry {name value : String} {as : List (String × String)}
    (h : ∀ a ∈ as, a.1 ≠ name) : (insertEntry name value as).Perm ((name, value) :: as) := by
  induction as with
  | nil => exact .refl _
  | cons a as ih =>
    obtain ⟨ha, has⟩ := List.forall_mem_cons.1 h
    rw [insertEntry]
    split
    · exact .refl _
    · rw [if_neg (Ne.symm ha)]
      exact ((ih has).cons a).trans (.swap ..)

/-- Attributes with distinct names are all kept. -/
theorem Attributes.perm_ofList {as : List (String × String)} (h : (as.map (·.1)).Nodup) :
    (ofList as).entries.Perm as := by
  have hfold : ∀ (rest : List (String × String)) (start : Attributes),
      ((start.entries ++ rest).map (·.1)).Nodup →
        (start.insertAll rest).entries.Perm (start.entries ++ rest) := by
    intro rest
    induction rest with
    | nil => exact fun start _ => by simp [insertAll]
    | cons a rest ih =>
      intro start h
      have hbefore : ∀ b ∈ start.entries, b.1 ≠ a.1 := by
        rw [List.map_append, List.map_cons, List.nodup_middle, List.nodup_cons] at h
        intro b hb heq
        exact h.1 (List.mem_append_left _ (heq ▸ List.mem_map_of_mem hb))
      have hinsert : ((start.insert a.1 a.2).entries ++ rest).Perm (start.entries ++ a :: rest) :=
        ((perm_insertEntry hbefore).append_right rest).trans List.perm_middle.symm
      exact (ih _ ((hinsert.map (·.1)).nodup_iff.2 h)).trans hinsert
  exact hfold as .empty h

/-- The order of attributes with distinct names does not count. -/
theorem Attributes.ofList_perm {as bs : List (String × String)} (h : as.Perm bs)
    (hdistinct : (bs.map (·.1)).Nodup) : ofList as = ofList bs := by
  have hentries : (ofList as).entries.Perm (ofList bs).entries :=
    (perm_ofList ((h.map _).nodup_iff.2 hdistinct)).trans (h.trans (perm_ofList hdistinct).symm)
  have hentries : (ofList as).entries = (ofList bs).entries :=
    hentries.eq_of_pairwise (fun _ _ _ _ hab hba => absurd hba (String.lt_asymm hab))
      (ofList as).sorted (ofList bs).sorted
  cases has : ofList as
  cases hbs : ofList bs
  simpa [has, hbs] using hentries

end Schema

namespace Json

theorem rel_cases {α β : Type} {R : α → β → Prop} {x : Option α} {y : Option β}
    (h : Option.Rel R x y) : (x = none ∧ y = none) ∨ ∃ a b, x = some a ∧ y = some b ∧ R a b := by
  cases h with
  | none => exact Or.inl ⟨rfl, rfl⟩
  | some h => exact Or.inr ⟨_, _, rfl, rfl, h⟩

theorem rel_trans {α β γ : Type} {R : α → β → Prop} {S : β → γ → Prop} {x : Option α}
    {y : Option β} {z : Option γ} (hxy : Option.Rel R x y) (hyz : Option.Rel S y z) :
    Option.Rel (fun a c => ∃ b, R a b ∧ S b c) x z := by
  cases hxy with
  | none =>
    cases hyz
    exact .none
  | some hab =>
    cases hyz with
    | some hbc => exact .some ⟨_, hab, hbc⟩

/-- What is made of alike rows one by one is alike. -/
theorem mapM_rel {α β γ δ : Type} {R : α → β → Prop} {S : γ → δ → Prop} {f : α → Option γ}
    {g : β → Option δ} (hfg : ∀ x y, R x y → Option.Rel S (f x) (g y)) {xs : List α} {ys : List β}
    (h : List.Forall₂ R xs ys) : Option.Rel (List.Forall₂ S) (xs.mapM f) (ys.mapM g) := by
  induction h with
  | nil => exact .some .nil
  | @cons x y xs ys hxy _ ih =>
    rw [List.mapM_cons, List.mapM_cons]
    obtain ⟨hx, hy⟩ | ⟨z, w, hx, hy, hzw⟩ := rel_cases (hfg x y hxy) <;> rw [hx, hy]
    · exact .none
    · obtain ⟨hxs, hys⟩ | ⟨zs, ws, hxs, hys, hzws⟩ := rel_cases ih <;> rw [hxs, hys]
      · exact .none
      · exact .some (.cons hzw hzws)

theorem mapM_congr {α β γ : Type} {R : α → β → Prop} {f : α → Option γ} {g : β → Option γ}
    (hfg : ∀ x y, R x y → f x = g y) {xs : List α} {ys : List β} (h : List.Forall₂ R xs ys) :
    xs.mapM f = ys.mapM g := by
  induction h with
  | nil => rfl
  | cons hxy _ ih => rw [List.mapM_cons, List.mapM_cons, hfg _ _ hxy, ih]

/-- What is made of a row one by one stands in another order when the row does. -/
theorem mapM_perm {α β : Type} (f : α → Option β) {xs ys : List α} (h : xs.Perm ys) :
    Option.Rel List.Perm (xs.mapM f) (ys.mapM f) := by
  induction h with
  | nil => exact .some .nil
  | @cons x xs ys _ ih =>
    rw [List.mapM_cons, List.mapM_cons]
    cases f x with
    | none => exact .none
    | some z =>
      obtain ⟨hxs, hys⟩ | ⟨zs, ws, hxs, hys, hzws⟩ := rel_cases ih <;> rw [hxs, hys]
      · exact .none
      · exact .some (hzws.cons z)
  | swap x y xs =>
    simp only [List.mapM_cons]
    cases f x <;> cases f y <;> cases xs.mapM f <;> first | exact .none | exact .some (.swap ..)
  | trans _ _ ih₁ ih₂ =>
    obtain ⟨hxs, hzs⟩ | ⟨_, _, hxs, hzs, _, h₁, h₂⟩ := rel_cases (rel_trans ih₁ ih₂) <;>
      rw [hxs, hzs]
    · exact .none
    · exact .some (h₁.trans h₂)

/-- Values that differ in the order of members inside objects only, at any depth. No name comes
twice in an object around what differs. -/
inductive Reordered : Json → Json → Prop
  | same (j : Json) : Reordered j j
  | array {js ks : List Json} (hitems : List.Forall₂ Reordered js ks) :
      Reordered (.array js) (.array ks)
  | object {ms ns os : List (Option String × Json)} (hnames : ms.map (·.1) = ns.map (·.1))
      (hvalues : List.Forall₂ Reordered (ms.map (·.2)) (ns.map (·.2))) (horder : ns.Perm os)
      (hdistinct : (os.filterMap (·.1)).Nodup) : Reordered (.object ms) (.object os)

/-- Members of one name with reordered values. -/
def MembersAlike {ι : Type} (m n : ι × Json) : Prop :=
  m.1 = n.1 ∧ Reordered m.2 n.2

theorem forall₂_membersAlike {ι : Type} {ms ns : List (ι × Json)}
    (hnames : ms.map (·.1) = ns.map (·.1))
    (hvalues : List.Forall₂ Reordered (ms.map (·.2)) (ns.map (·.2))) :
    List.Forall₂ MembersAlike ms ns := by
  induction ms generalizing ns with
  | nil =>
    obtain rfl := List.map_eq_nil_iff.1 hnames.symm
    exact .nil
  | cons m ms ih =>
    cases ns with
    | nil => simp at hnames
    | cons n ns =>
      obtain ⟨hname, hnames⟩ := List.cons.inj hnames
      cases hvalues with
      | cons hvalue hvalues => exact .cons ⟨hname, hvalue⟩ (ih hnames hvalues)

theorem values_of_membersAlike {ι : Type} {ms ns : List (ι × Json)}
    (h : List.Forall₂ MembersAlike ms ns) :
    List.Forall₂ Reordered (ms.map (·.2)) (ns.map (·.2)) := by
  rw [List.forall₂_map_left_iff, List.forall₂_map_right_iff]
  exact h.imp fun _ _ hmn => hmn.2

theorem filter_membersAlike {ι : Type} (p : ι → Bool) {ms ns : List (ι × Json)}
    (h : List.Forall₂ MembersAlike ms ns) :
    List.Forall₂ MembersAlike (ms.filter (p ·.1)) (ns.filter (p ·.1)) :=
  List.rel_filter (fun m n hmn => by simp only [hmn.1]) h

theorem names_eq_of_membersAlike {ι : Type} {ms ns : List (ι × Json)}
    (h : List.Forall₂ MembersAlike ms ns) : ms.map (·.1) = ns.map (·.1) := by
  induction h with
  | nil => rfl
  | cons hmn _ ih => rw [List.map_cons, List.map_cons, hmn.1, ih]

theorem membersAlike_refl {ι : Type} (ms : List (ι × Json)) : List.Forall₂ MembersAlike ms ms :=
  List.forall₂_same.2 fun m _ => ⟨rfl, .same m.2⟩

/-- Records whose fields are reordered, each in itself and all of them. -/
theorem Reordered.record {ms ns os : List (String × Json)}
    (hfields : List.Forall₂ MembersAlike ms ns) (horder : ns.Perm os) (hdistinct : (os.map (·.1)).Nodup) :
    Reordered (Json.record ms) (Json.record os) := by
  have hnames : ∀ fs : List (String × Json),
      (fs.map fun m => (some m.1, m.2)).map (·.1) = (fs.map (·.1)).map some := fun fs => by
    rw [List.map_map, List.map_map]
    rfl
  have hkeys : (os.map fun m => (some m.1, m.2)).filterMap (·.1) = os.map (·.1) := by
    simp [List.filterMap_map]
  refine .object ?_ ?_ (horder.map _) (hkeys ▸ hdistinct)
  · rw [hnames, hnames, names_eq_of_membersAlike hfields]
  · simpa [Function.comp_def] using values_of_membersAlike hfields

/-- A function does not tell reordered values apart. -/
def Insensitive {β : Type} (f : Json → β) : Prop :=
  ∀ j k, Reordered j k → f j = f k

/-- Arrays are told apart by their items, objects by the values in them and by their order. -/
theorem Insensitive.of_parts {β : Type} {f : Json → β}
    (harray : ∀ js ks, List.Forall₂ Reordered js ks → f (.array js) = f (.array ks))
    (hvalues : ∀ ms ns, List.Forall₂ MembersAlike ms ns → f (.object ms) = f (.object ns))
    (horder : ∀ ms ns, ms.Perm ns → (ns.filterMap (·.1)).Nodup → f (.object ms) = f (.object ns)) :
    Insensitive f := by
  intro j k h
  cases h with
  | same => rfl
  | array hitems => exact harray _ _ hitems
  | object hnames hvals hperm hdistinct =>
    exact (hvalues _ _ (forall₂_membersAlike hnames hvals)).trans (horder _ _ hperm hdistinct)

/-- What is the same for all arrays and objects is not told apart by their order. -/
theorem Insensitive.of_constant {β : Type} {f : Json → β} {b : β} (harray : ∀ js, f (.array js) = b)
    (hobject : ∀ ms, f (.object ms) = b) : Insensitive f :=
  .of_parts (fun js ks _ => (harray js).trans (harray ks).symm)
    (fun ms ns _ => (hobject ms).trans (hobject ns).symm)
    (fun ms ns _ _ => (hobject ms).trans (hobject ns).symm)

namespace Decoder

theorem insensitive_text : Insensitive text :=
  .of_constant (fun _ => rfl) (fun _ => rfl)

theorem insensitive_bool : Insensitive bool :=
  .of_constant (fun _ => rfl) (fun _ => rfl)

theorem insensitive_between (lo hi : Int) : Insensitive (between lo hi) :=
  .of_constant (fun _ => rfl) (fun _ => rfl)

theorem insensitive_int64 : Insensitive int64 :=
  insensitive_between _ _

theorem insensitive_nat32 : Insensitive nat32 := fun j k h => by
  rw [nat32, nat32, insensitive_between _ _ j k h]

section

variable {α : Type}

theorem insensitive_nullable {d : Decoder α} (hd : Insensitive d) : Insensitive d.nullable := by
  intro j k h
  have hjk := hd j k h
  cases h with
  | same => rfl
  | array => exact congrArg (Option.map some) hjk
  | object => exact congrArg (Option.map some) hjk

/-- A list needs its items at lesser depths only. -/
theorem insensitive_list_of_lt {item : Nat → Decoder α} {depth : Nat}
    (hitem : ∀ inner < depth, Insensitive (item inner)) : Insensitive (list item depth) := by
  cases depth with
  | zero => exact fun _ _ _ => rfl
  | succ depth =>
    exact .of_parts (fun _ _ h => mapM_congr (hitem depth (Nat.lt_succ_self depth)) h)
      (fun _ _ _ => rfl) (fun _ _ _ _ => rfl)

theorem insensitive_list {item : Nat → Decoder α} (hitem : ∀ depth, Insensitive (item depth))
    (depth : Nat) : Insensitive (list item depth) :=
  insensitive_list_of_lt fun inner _ => hitem inner

theorem insensitive_texts (depth : Nat) : Insensitive (texts depth) :=
  insensitive_list (fun _ => insensitive_text) depth

theorem textMember_eq {m n : Option String × Json} (h : MembersAlike m n) :
    textMember m = textMember n := by
  rw [textMember, textMember, h.1, insensitive_text _ _ h.2]

theorem names_of_mapM_textMember {ms : List (Option String × Json)} {as : List (String × String)}
    (h : ms.mapM textMember = some as) : ms.filterMap (·.1) = as.map (·.1) := by
  induction ms generalizing as with
  | nil =>
    obtain rfl : [] = as := Option.some.inj h
    rfl
  | cons m ms ih =>
    rw [List.mapM_cons] at h
    obtain ⟨a, ha, h⟩ := Option.bind_eq_some_iff.1 h
    obtain ⟨as, has, h⟩ := Option.bind_eq_some_iff.1 h
    obtain rfl := Option.some.inj h
    obtain ⟨name, hname, ha⟩ := Option.bind_eq_some_iff.1 ha
    obtain ⟨value, _, ha⟩ := Option.bind_eq_some_iff.1 ha
    obtain rfl := Option.some.inj ha
    rw [List.filterMap_cons_some hname, ih has, List.map_cons]

theorem insensitive_mapping (depth : Nat) : Insensitive (mapping depth) := by
  cases depth with
  | zero => exact fun _ _ _ => rfl
  | succ depth =>
    refine .of_parts (fun _ _ _ => rfl) (fun ms ns h => ?_) (fun ms ns h hdistinct => ?_)
    · exact congrArg (Option.map _) (mapM_congr (fun _ _ hmn => textMember_eq hmn) h)
    · rw [mapping, mapping]
      obtain ⟨hms, hns⟩ | ⟨as, bs, hms, hns, hperm⟩ := rel_cases (mapM_perm textMember h) <;>
        rw [hms, hns]
      rw [names_of_mapM_textMember hns] at hdistinct
      rw [Option.map_some, Option.map_some, Attributes.ofList_perm hperm hdistinct]

/-- Only an object with one member stands for a word, and only with `null` or nothing under it. -/
theorem word_object_eq_none [Text.Worded α] (emptyObject : Bool) (depth : Nat)
    {ms : List (Option String × Json)}
    (h : ∀ name, ms ≠ [(some name, .null)] ∧ ms ≠ [(some name, .object [])]) :
    word (α := α) emptyObject depth (.object ms) = none := by
  unfold word
  split <;> simp_all

theorem insensitive_word [Text.Worded α] (emptyObject : Bool) (depth : Nat) :
    Insensitive (word (α := α) emptyObject depth) := by
  have hmany : ∀ {ms : List (Option String × Json)}, ms.length ≠ 1 →
      word (α := α) emptyObject depth (.object ms) = none := fun hlength =>
    word_object_eq_none _ _ fun name => ⟨by rintro rfl; exact hlength rfl,
      by rintro rfl; exact hlength rfl⟩
  refine .of_parts (fun _ _ _ => rfl) (fun ms ns h => ?_) (fun ms ns h hdistinct => ?_)
  · by_cases hone : ms.length = 1
    · obtain ⟨m, rfl⟩ := List.length_eq_one_iff.1 hone
      obtain ⟨⟨_, k⟩, rest, ⟨rfl, hjk⟩, hrest, rfl⟩ := List.forall₂_cons_left_iff.1 h
      obtain rfl := List.forall₂_nil_left_iff.1 hrest
      obtain ⟨name, j⟩ := m
      cases hjk with
      | same => rfl
      | array => rw [word_object_eq_none _ _ (by simp), word_object_eq_none _ _ (by simp)]
      | @object ms ns os hnames _ horder _ =>
        -- An empty object stays empty.
        by_cases hempty : os = []
        · obtain rfl := hempty
          obtain rfl := horder.eq_nil
          obtain rfl := List.map_eq_nil_iff.1 hnames
          rfl
        · have hne : ms ≠ [] := by
            rintro rfl
            obtain rfl := List.map_eq_nil_iff.1 hnames.symm
            exact hempty horder.symm.eq_nil
          rw [word_object_eq_none _ _ (by simp [hne]), word_object_eq_none _ _ (by simp [hempty])]
    · rw [hmany hone, hmany (h.length_eq ▸ hone)]
  · by_cases hone : ms.length = 1
    · obtain ⟨m, rfl⟩ := List.length_eq_one_iff.1 hone
      rw [List.singleton_perm.1 h]
    · rw [hmany hone, hmany (h.length_eq ▸ hone)]

end

end Decoder

theorem rel_reordered_refl (x : Option Json) : Option.Rel Reordered x x := by
  cases x with
  | none => exact .none
  | some j => exact .some (.same j)

namespace Fields

/-- Fields that have reordered values under each name, or none. -/
def Alike (fs gs : Fields) : Prop :=
  ∀ name, Option.Rel Reordered (fs.get? name) (gs.get? name)

theorem get?_cons (name key : String) (j : Json) (fs : Fields) :
    get? ((key, j) :: fs) name = if key = name then some j else fs.get? name := by
  by_cases h : key = name <;> simp [get?, h]

theorem get?_eq_some_iff {fs : Fields} (h : (fs.map (·.1)).Nodup) {name : String} {j : Json} :
    fs.get? name = some j ↔ (name, j) ∈ fs := by
  induction fs with
  | nil => simp [get?]
  | cons f fs ih =>
    obtain ⟨key, k⟩ := f
    obtain ⟨hkey, hfs⟩ := List.nodup_cons.1 h
    rw [get?_cons, List.mem_cons]
    split
    case isTrue heq =>
      subst heq
      have hnot : (key, j) ∉ fs := fun hmem => hkey (List.mem_map_of_mem (f := (·.1)) hmem)
      simp [hnot, eq_comm]
    case isFalse hne => rw [ih hfs, Prod.mk.injEq, or_iff_right fun hkey => hne hkey.1.symm]

/-- The order of fields with distinct names does not count. -/
theorem get?_perm {fs gs : Fields} (h : fs.Perm gs) (hdistinct : (gs.map (·.1)).Nodup)
    (name : String) : fs.get? name = gs.get? name := by
  have hdistinct' : (fs.map (·.1)).Nodup := (h.map _).nodup_iff.2 hdistinct
  ext j
  rw [get?_eq_some_iff hdistinct', get?_eq_some_iff hdistinct, h.mem_iff]

theorem alike_of_forall₂ {fs gs : Fields} (h : List.Forall₂ MembersAlike fs gs) : Alike fs gs := by
  intro name
  induction h with
  | nil => exact .none
  | @cons f g fs gs hfg _ ih =>
    obtain ⟨key, j⟩ := f
    obtain ⟨_, k⟩ := g
    obtain ⟨rfl, hjk⟩ := hfg
    rw [get?_cons, get?_cons]
    split
    · exact .some hjk
    · exact ih

section

variable {α : Type} {fs gs : Fields}

theorem Alike.withDefault (h : Alike fs gs) {d : Decoder α} (hd : Insensitive d) (name : String)
    (absent : α) : fs.withDefault name d absent = gs.withDefault name d absent := by
  unfold Fields.withDefault
  obtain ⟨hfs, hgs⟩ | ⟨j, k, hfs, hgs, hjk⟩ := rel_cases (h name) <;> rw [hfs, hgs]
  exact hd j k hjk

theorem Alike.required (h : Alike fs gs) {d : Decoder α} (hd : Insensitive d) (name : String) :
    fs.required name d = gs.required name d := by
  unfold Fields.required
  obtain ⟨hfs, hgs⟩ | ⟨j, k, hfs, hgs, hjk⟩ := rel_cases (h name) <;> rw [hfs, hgs]
  exact hd j k hjk

theorem Alike.optional (h : Alike fs gs) {d : Decoder α} (hd : Insensitive d) (name : String) :
    fs.optional name d = gs.optional name d :=
  h.withDefault (Decoder.insensitive_nullable hd) name none

end

end Fields

theorem forall₂_zip (names : List String) {js ks : List Json} (h : List.Forall₂ Reordered js ks) :
    List.Forall₂ MembersAlike (names.zip js) (names.zip ks) := by
  induction h generalizing names with
  | nil => simp
  | cons hjk _ ih =>
    cases names with
    | nil => exact .nil
    | cons name names => exact .cons ⟨rfl, hjk⟩ (ih names)

/-- The known members of an object whose values are reordered and whose members are in another order
have the same names, and reordered values under them. -/
theorem knownMembers?_rel (names : List String) {ms ns os : List (Option String × Json)}
    (hmembers : List.Forall₂ MembersAlike ms ns) (horder : ns.Perm os) :
    Option.Rel Fields.Alike (knownMembers? names ms) (knownMembers? names os) := by
  have hname : ∀ m n : Option String × Json, MembersAlike m n →
      Option.Rel MembersAlike (m.1.map (·, m.2)) (n.1.map (·, n.2)) := by
    rintro ⟨name, j⟩ ⟨_, k⟩ ⟨rfl, hjk⟩
    cases name with
    | none => exact .none
    | some name => exact .some ⟨rfl, hjk⟩
  obtain ⟨hms, hos⟩ | ⟨as, cs, hms, hos, bs, hab, hbc⟩ :=
    rel_cases (rel_trans (mapM_rel hname hmembers) (mapM_perm _ horder)) <;>
    rw [knownMembers?, knownMembers?, hms, hos]
  · exact .none
  · have hknown := filter_membersAlike (· ∈ names) hab
    have hperm := hbc.filter fun m => decide (m.1 ∈ names)
    have hdistinct : ((as.filter (·.1 ∈ names)).map (·.1)).Nodup ↔
        ((cs.filter (·.1 ∈ names)).map (·.1)).Nodup := by
      rw [names_eq_of_membersAlike hknown, (hperm.map _).nodup_iff]
    simp only [Option.bind_eq_bind, Option.bind_some, hdistinct]
    split
    case isTrue h =>
      refine .some fun name => ?_
      rw [← Fields.get?_perm hperm h name]
      exact Fields.alike_of_forall₂ hknown name
    case isFalse => exact .none

/-- Reordered values have the same fields, with reordered values in them. -/
theorem fields?_rel (names : List String) {j k : Json} (h : Reordered j k) :
    Option.Rel Fields.Alike (fields? names j) (fields? names k) := by
  cases h with
  | same =>
    cases fields? names j with
    | none => exact .none
    | some fs => exact .some fun name => rel_reordered_refl _
  | array hitems =>
    rw [fields?, fields?, hitems.length_eq]
    split
    · exact .some (Fields.alike_of_forall₂ (forall₂_zip names hitems))
    · exact .none
  | object hnames hvalues horder _ =>
    exact knownMembers?_rel names (forall₂_membersAlike hnames hvalues) horder

/-- A record is read by its fields, which nest one level deeper. -/
theorem Decoder.insensitive_record_of_lt {α : Type} {names : List String}
    {build : Nat → Fields → Option α} {depth : Nat}
    (hbuild : ∀ inner < depth, ∀ fs gs, Fields.Alike fs gs → build inner fs = build inner gs) :
    Insensitive (record names build depth) := by
  intro j k h
  cases depth with
  | zero => rfl
  | succ depth =>
    rw [record, record]
    obtain ⟨hj, hk⟩ | ⟨fs, gs, hj, hk, hfg⟩ := rel_cases (fields?_rel names h) <;> rw [hj, hk]
    exact hbuild depth (Nat.lt_succ_self depth) fs gs hfg

theorem Decoder.insensitive_record {α : Type} {names : List String}
    {build : Nat → Fields → Option α}
    (hbuild : ∀ depth fs gs, Fields.Alike fs gs → build depth fs = build depth gs) (depth : Nat) :
    Insensitive (record names build depth) :=
  insensitive_record_of_lt fun inner _ => hbuild inner

theorem insensitive_isReadable (depth : Nat) : Insensitive (isReadable depth) := by
  induction depth with
  | zero => exact .of_constant (fun _ => rfl) (fun _ => rfl)
  | succ depth ih =>
    have hitems : ∀ js ks, List.Forall₂ Reordered js ks →
        isReadable.readableItems depth js = isReadable.readableItems depth ks := by
      intro js ks h
      induction h with
      | nil => rfl
      | cons hjk _ ihs => rw [isReadable.readableItems, isReadable.readableItems, ih _ _ hjk, ihs]
    have hmembers : ∀ ms ns, List.Forall₂ MembersAlike ms ns →
        isReadable.readableMembers depth ms = isReadable.readableMembers depth ns := by
      intro ms ns h
      induction h with
      | nil => rfl
      | cons hmn _ ihs =>
        rw [isReadable.readableMembers, isReadable.readableMembers, hmn.1, ih _ _ hmn.2, ihs]
    refine .of_parts hitems hmembers fun ms ns h _ => ?_
    rw [isReadable, isReadable, Bool.eq_iff_iff, readableMembers_iff, readableMembers_iff]
    simp only [h.mem_iff]

end Json

end Installer
