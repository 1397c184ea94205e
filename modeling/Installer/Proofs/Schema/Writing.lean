import Installer.Proofs.Markup.Within
import Installer.Schema.Basic
import Mathlib.Data.List.Basic
import Mathlib.Tactic.Common

/-!
# What writing an entity gives

An entity without missing values becomes the element that its schema completes around an identifier.
The identifier comes from the author or from the allocator; nothing else touches the allocator.
-/
namespace Installer.Schema
open Identifier Markup

namespace Emit

variable {α β : Type}

theorem pure_eq_ok {x y : α} {a b : Allocator} :
    (pure x : Emit α) a = .ok (y, b) ↔ x = y ∧ a = b := by
  change Except.ok (x, a) = .ok (y, b) ↔ _
  simp

theorem bind_eq_ok {x : Emit α} {f : α → Emit β} {y : β} {a b : Allocator} :
    (x >>= f) a = .ok (y, b) ↔ ∃ z c, x a = .ok (z, c) ∧ f z c = .ok (y, b) := by
  change (x a >>= fun r => f r.1 r.2) = .ok (y, b) ↔ _
  cases x a with
  | error e => simp [bind, Except.bind]
  | ok r =>
    obtain ⟨z, c⟩ := r
    simp only [bind, Except.bind, Except.ok.injEq, Prod.mk.injEq]
    constructor
    · exact fun h => ⟨z, c, ⟨rfl, rfl⟩, h⟩
    · rintro ⟨_, _, ⟨rfl, rfl⟩, h⟩
      exact h

theorem bind_of_ok {x : Emit α} {y : α} {a b : Allocator} (h : x a = .ok (y, b))
    (f : α → Emit β) : (x >>= f) a = f y b := by
  change (x a >>= fun r => f r.1 r.2) = _
  rw [h]
  rfl

theorem bind_of_error {x : Emit α} {e : MissingValue} {a : Allocator} (h : x a = .error e)
    (f : α → Emit β) : (x >>= f) a = .error e := by
  change (x a >>= fun r => f r.1 r.2) = _
  rw [h]
  rfl

/-- Where one step does what another does, but for a map of the results, and so do the steps behind
them, the whole does what the other whole does, but for a map of its results. -/
theorem bind_eq_map {γ δ : Type} {x : Emit α} {y : Emit β} {f : α → Emit γ} {g : β → Emit δ}
    (φ : β → α) (ψ : δ → γ) {a : Allocator} (hxy : x a = (y a).map fun r => (φ r.1, r.2))
    (hfg : ∀ z b, y a = .ok (z, b) → f (φ z) b = (g z b).map fun r => (ψ r.1, r.2)) :
    (x >>= f) a = ((y >>= g) a).map fun r => (ψ r.1, r.2) := by
  cases hy : y a with
  | error e =>
    rw [hy] at hxy
    rw [bind_of_error hxy, bind_of_error hy]
    rfl
  | ok r =>
    obtain ⟨z, b⟩ := r
    rw [hy] at hxy
    rw [bind_of_ok hxy, bind_of_ok hy]
    exact hfg z b hy

/-- What a row of steps gives, some step gives. -/
theorem mem_of_mapM_eq_ok {f : α → Emit β} {xs : List α} {ys : List β} {a b : Allocator}
    (h : xs.mapM f a = .ok (ys, b)) {y : β} (hy : y ∈ ys) :
    ∃ x ∈ xs, ∃ c d, f x c = .ok (y, d) := by
  induction xs generalizing a ys with
  | nil =>
    obtain ⟨rfl, _⟩ := pure_eq_ok.1 h
    simp at hy
  | cons x xs ih =>
    rw [List.mapM_cons, bind_eq_ok] at h
    obtain ⟨z, c, hz, h⟩ := h
    obtain ⟨zs, d, hzs, h⟩ := bind_eq_ok.1 h
    obtain ⟨rfl, rfl⟩ := pure_eq_ok.1 h
    rcases List.mem_cons.1 hy with rfl | hy
    · exact ⟨x, by simp, a, c, hz⟩
    · obtain ⟨w, hw, hstep⟩ := ih hzs hy
      exact ⟨w, by simp [hw], hstep⟩

/-- Some result of a row of steps has a property where some step has one that its result shares. -/
theorem exists_mem_iff_of_mapM {f : α → Emit β} {P : β → Prop} {Q : α → Prop} {xs : List α}
    {ys : List β} {a b : Allocator} (h : xs.mapM f a = .ok (ys, b))
    (hstep : ∀ x ∈ xs, ∀ y c d, f x c = .ok (y, d) → (P y ↔ Q x)) :
    (∃ y ∈ ys, P y) ↔ ∃ x ∈ xs, Q x := by
  induction xs generalizing a ys with
  | nil =>
    obtain ⟨rfl, _⟩ := pure_eq_ok.1 h
    simp
  | cons x xs ih =>
    rw [List.mapM_cons, bind_eq_ok] at h
    obtain ⟨z, c, hz, h⟩ := h
    obtain ⟨zs, d, hzs, h⟩ := bind_eq_ok.1 h
    obtain ⟨rfl, rfl⟩ := pure_eq_ok.1 h
    have hhead := hstep x (by simp) z a c hz
    have htail := ih hzs fun y hy => hstep y (by simp [hy])
    simp only [List.mem_cons, exists_eq_or_imp, hhead, htail]

/-- Steps that use up no identifier use up none one after the other. -/
theorem allocator_eq_of_mapM {f : α → Emit β} (hf : ∀ x y c d, f x c = .ok (y, d) → c = d)
    {xs : List α} {ys : List β} {a b : Allocator} (h : xs.mapM f a = .ok (ys, b)) : a = b := by
  induction xs generalizing a ys with
  | nil => exact (pure_eq_ok.1 h).2
  | cons x xs ih =>
    rw [List.mapM_cons, bind_eq_ok] at h
    obtain ⟨y, c, hy, h⟩ := h
    obtain ⟨zs, d, hzs, h⟩ := bind_eq_ok.1 h
    obtain ⟨_, rfl⟩ := pure_eq_ok.1 h
    exact (hf x y a c hy).trans (ih hzs)

end Emit

variable {α : Type}

/-- The identifier of an entity, the author's or a new one, and the allocator behind it. -/
def Identity.take (i : Identity) (a : Allocator) : String × Allocator :=
  match i.explicit with
  | some id => (id, a)
  | none => a.allocate i.kind i.source

/-- The identifier that an entity comes by, if it has one at all, and the allocator behind it. -/
def identify (s : Schema α) (x : α) (a : Allocator) : Option String × Allocator :=
  match s.identity x with
  | none => (none, a)
  | some i => (some (i.take a).1, (i.take a).2)

theorem identify_eq_resolve (s : Schema α) (x : α) (a : Allocator) :
    s.identify x a = ((s.resolve x (s.slot x) a).1, (s.resolve x (s.slot x) a).2.2) := by
  unfold identify resolve
  cases hi : s.identity x with
  | none => rfl
  | some i =>
    obtain ⟨kind, source, explicit⟩ := i
    cases explicit with
    | none =>
      have hslot : s.slot x = ⟨none, none⟩ := by simp [slot, hi, Slot.ofExplicit]
      simp [hslot, Slot.resolve, Slot.cached, Identity.take]
    | some id =>
      have hslot : s.slot x = ⟨some id, none⟩ := by simp [slot, hi, Slot.ofExplicit]
      simp [hslot, Slot.resolve, Identity.take]

/-- Without missing values the element is completed around the identifier that the slot gives. -/
theorem write_of_complete {s : Schema α} {x : α} (h : s.missing? x = none) (slot : Slot)
    (ids : Allocator) : s.write x slot ids =
      (.ok (s.complete x (s.resolve x slot ids).1), (s.resolve x slot ids).2) := by
  unfold write
  rw [h]

/-- Where a value is missing, nobody asks for an identifier. -/
theorem write_of_missing {s : Schema α} {x : α} {e : MissingValue} (h : s.missing? x = some e)
    (slot : Slot) (ids : Allocator) : s.write x slot ids = (.error e, slot, ids) := by
  unfold write
  rw [h]

/-- Writing succeeds where no required field lacks its value, and completes the element around the
identifier. -/
theorem emit_eq_ok {s : Schema α} {x : α} {a b : Allocator} {w : Written} :
    s.emit x a = .ok (w, b) ↔
      s.missing? x = none ∧ s.complete x (s.identify x a).1 = w ∧ (s.identify x a).2 = b := by
  rw [identify_eq_resolve]
  unfold emit write
  cases hm : s.missing? x with
  | some e => simp
  | none => simp

/-- An entity that has no identifier uses up none. -/
theorem allocator_eq_of_emit {s : Schema α} {x : α} {a b : Allocator} {w : Written}
    (hx : s.identity x = none) (h : s.emit x a = .ok (w, b)) : a = b := by
  obtain ⟨_, _, hb⟩ := emit_eq_ok.1 h
  rw [identify, hx] at hb
  exact hb

section idle

variable {β : Type}

/-- A step that takes no identifiers and does not look at those that are taken. -/
def Idle (x : Emit α) : Prop :=
  ∃ r : Except MissingValue α, ∀ a, x a = r.map (·, a)

namespace Idle

theorem pure (y : α) : Idle (Pure.pure y : Emit α) :=
  ⟨.ok y, fun _ => rfl⟩

theorem bind {x : Emit α} {f : α → Emit β} (hx : Idle x) (hf : ∀ y, Idle (f y)) :
    Idle (x >>= f) := by
  obtain ⟨r, hr⟩ := hx
  cases r with
  | error e => exact ⟨.error e, fun a => Emit.bind_of_error (hr a) f⟩
  | ok y =>
    obtain ⟨s, hs⟩ := hf y
    exact ⟨s, fun a => (Emit.bind_of_ok (hr a) f).trans (hs a)⟩

theorem mapM {step : α → Emit β} (h : ∀ x, Idle (step x)) (xs : List α) :
    Idle (xs.mapM step) := by
  induction xs with
  | nil => exact pure []
  | cons x xs ih =>
    rw [List.mapM_cons]
    exact (h x).bind fun _ => ih.bind fun _ => pure _

/-- An entity without an identifier. -/
theorem emit {s : Schema α} {x : α} (h : s.identity x = none) : Idle (s.emit x) := by
  cases hmissing : s.missing? x with
  | some e =>
    refine ⟨.error e, fun a => ?_⟩
    rw [Schema.emit, write, hmissing]
    rfl
  | none =>
    refine ⟨.ok (s.complete x none), fun a => emit_eq_ok.2 ⟨hmissing, ?_, ?_⟩⟩ <;>
      rw [identify, h]

/-- Behind other identifiers an idle step does what it did. -/
theorem run {x : Emit α} (h : Idle x) {y : α} {a b : Allocator} (hrun : x a = .ok (y, b))
    (c : Allocator) : x c = .ok (y, c) := by
  obtain ⟨r, hr⟩ := h
  rw [hr] at hrun
  cases r with
  | error e => cases hrun
  | ok z =>
    cases hrun
    exact hr c

end Idle

end idle

/-- The elements that a field becomes. -/
def Field.children (f : Field α) (x : α) : List Element :=
  match f.value? x with
  | some (.elements es) => es
  | _ => []

/-- The elements that the fields of an entity become. -/
def fieldChildren (s : Schema α) (x : α) : List Element :=
  s.fields.flatMap (·.children x)

theorem write_name (f : Field α) (x : α) (e : Element) : (f.write x e).name = e.name := by
  unfold Field.write
  split
  · rfl
  · rfl
  · split
    · rfl
    · split <;> rfl

theorem elements_write (f : Field α) (x : α) (e : Element) :
    (f.write x e).elements = e.elements ++ f.children x := by
  unfold Field.write Field.children
  cases f.value? x with
  | none => simp
  | some v =>
    cases v with
    | elements es => simp
    | text s | flag b | number n | version v | word s =>
      simp only [List.append_nil]
      split
      · rfl
      · split <;> simp

theorem fieldsElement_spec (s : Schema α) (x : α) :
    (s.fieldsElement x).name = s.element ∧ (s.fieldsElement x).elements = s.fieldChildren x := by
  have hfold : ∀ (fs : List (Field α)) (e : Element),
      (fs.foldl (fun e f => f.write x e) e).name = e.name ∧
      (fs.foldl (fun e f => f.write x e) e).elements =
        e.elements ++ fs.flatMap (·.children x) := by
    intro fs
    induction fs with
    | nil => intro e; simp
    | cons f fs ih =>
      intro e
      obtain ⟨hname, helements⟩ := ih (f.write x e)
      refine ⟨by rw [List.foldl_cons, hname, write_name], ?_⟩
      rw [List.foldl_cons, helements, elements_write, List.flatMap_cons, List.append_assoc]
  simpa [fieldsElement, fieldChildren] using hfold s.fields (Element.named s.element)

@[simp] theorem complete_name (s : Schema α) (x : α) (id : Option String) :
    (s.complete x id).element.name = s.element := by
  cases id <;> simp [complete, (s.fieldsElement_spec x).1]

@[simp] theorem elements_complete (s : Schema α) (x : α) (id : Option String) :
    (s.complete x id).element.elements = s.fieldChildren x := by
  cases id <;> simp [complete, (s.fieldsElement_spec x).2]

theorem name_of_mapM_emit {α : Type} {s : Schema α} {xs : List α} {ws : List Written}
    {a b : Allocator} (h : xs.mapM s.emit a = .ok (ws, b)) :
    ∀ e ∈ ws.map (·.element), e.name = s.element := by
  refine List.forall_mem_map.2 fun w hw => ?_
  obtain ⟨x, _, _, _, hemit⟩ := Emit.mem_of_mapM_eq_ok h hw
  obtain ⟨-, rfl, -⟩ := emit_eq_ok.1 hemit
  exact complete_name _ _ _

theorem mem_fieldChildren {s : Schema α} {x : α} {e : Element} (h : e ∈ s.fieldChildren x) :
    ∃ f ∈ s.fields, ∃ es, f.value x = some (.elements es) ∧ e ∈ es := by
  obtain ⟨f, hf, he⟩ := List.mem_flatMap.1 h
  unfold Field.children at he
  cases hv : f.value? x with
  | none => simp [hv] at he
  | some v =>
    cases v with
    | elements es =>
      rw [hv] at he
      exact ⟨f, hf, es, (Option.filter_eq_some_iff.1 hv).1, he⟩
    | text s | flag b | number n | version v | word s => simp [hv] at he

theorem fieldChildren_eq_nil {s : Schema α} {x : α}
    (h : ∀ f ∈ s.fields, ∀ es, f.value x ≠ some (.elements es)) : s.fieldChildren x = [] := by
  rw [List.eq_nil_iff_forall_not_mem]
  intro e he
  obtain ⟨f, hf, es, hv, _⟩ := mem_fieldChildren he
  exact h f hf es hv

/-- The value of a name among the attributes of the entity's own element. -/
def Attributes.own? (as : Attributes) (key : String) : Option String :=
  (as.own.find? (·.1 == key)).map (·.2)

theorem own?_eq (as : Attributes) (key : String) :
    as.own? key = if (Attributes.componentName? key).isNone then as.get? key else none := by
  have hfind : as.own.find? (·.1 == key) = as.entries.find? fun a =>
      (Attributes.componentName? key).isNone && a.1 == key := by
    rw [Attributes.own, List.find?_filter]
    congr 1
    funext a
    by_cases h : a.1 = key
    · cases hname : Attributes.componentName? key <;> simp [h, hname]
    · simp [h]
  rw [Attributes.own?, hfind, Attributes.get?]
  cases (Attributes.componentName? key).isNone <;> simp

theorem get?_setAll_own? (e : Element) (as : Attributes) (key : String) :
    (e.setAll as.own).get? key = (as.own? key).or (e.get? key) := by
  have hdistinct : as.own.Pairwise fun a b => a.1 ≠ b.1 :=
    (as.sorted.filter _).imp fun {a b} hlt => String.ne_of_lt hlt
  rw [Element.get?_setAll hdistinct, Attributes.own?]

theorem get?_setAll_own (e : Element) (as : Attributes) {key : String}
    (hkey : Attributes.componentName? key = none) :
    (e.setAll as.own).get? key = (as.get? key).or (e.get? key) := by
  rw [get?_setAll_own?, own?_eq, hkey]
  rfl

theorem get?_insert (as : Attributes) (name value key : String) :
    (as.insert name value).get? key = if name = key then some value else as.get? key := by
  change ((insertEntry name value as.entries).find? (·.1 == key)).map (·.2) = _
  rw [Attributes.get?]
  induction as.entries with
  | nil => by_cases h : name = key <;> simp [insertEntry, h]
  | cons a entries ih =>
    rw [insertEntry]
    by_cases hlt : name < a.1
    · rw [if_pos hlt]
      by_cases h : name = key <;> simp [h]
    · rw [if_neg hlt]
      by_cases heq : name = a.1
      · rw [if_pos heq]
        by_cases h : name = key
        · simp [h]
        · simp [h, show a.1 ≠ key from heq ▸ h]
      · rw [if_neg heq, List.find?_cons, List.find?_cons]
        by_cases h : a.1 = key
        · simp [h, show name ≠ key from fun hkey => heq (hkey.trans h.symm)]
        · simpa only [beq_eq_false_iff_ne.2 h] using ih

/-- Attributes set over others win over them. -/
theorem get?_extend (as bs : Attributes) (key : String) :
    (as.extend bs).get? key = (bs.get? key).or (as.get? key) := by
  have hfold : ∀ (others : List (String × String)) (as : Attributes),
      others.Pairwise (fun a b => a.1 < b.1) → (as.insertAll others).get? key =
        ((others.find? (·.1 == key)).map (·.2)).or (as.get? key) := by
    intro others
    induction others with
    | nil => exact fun _ _ => rfl
    | cons b others ih =>
      intro as h
      obtain ⟨hhead, htail⟩ := List.pairwise_cons.1 h
      change ((as.insert b.1 b.2).insertAll others).get? key = _
      rw [ih _ htail, get?_insert]
      by_cases hb : b.1 = key
      · have hnone : others.find? (·.1 == key) = none := by
          rw [List.find?_eq_none]
          intro c hc hck
          exact String.ne_of_lt (hhead c hc) (by rw [hb, eq_of_beq hck])
        simp [hnone, hb]
      · simp [hb]
  exact hfold bs.entries as bs.sorted

theorem own?_extend (as bs : Attributes) (key : String) :
    (as.extend bs).own? key = (bs.own? key).or (as.own? key) := by
  rw [own?_eq, own?_eq, own?_eq, get?_extend]
  split <;> rfl

@[simp] theorem own?_empty (key : String) : Attributes.empty.own? key = none := rfl

theorem componentName?_eq_some {name key : String} :
    Attributes.componentName? name = some key ↔ name = "Component:" ++ key := by
  have hmark : ("Component:" ++ key).toList = Attributes.componentMark ++ key.toList :=
    String.toList_append
  rw [Attributes.componentName?, Option.map_eq_some_iff, ← String.toList_inj, hmark]
  generalize Attributes.componentMark = mark
  constructor
  · rintro ⟨cs, hcs, rfl⟩
    rw [String.toList_ofList, List.isPrefixOf?_eq_some_iff_append_eq.1 hcs]
  · intro h
    exact ⟨key.toList, List.isPrefixOf?_eq_some_iff_append_eq.2 h.symm, String.ofList_toList⟩

/-- A wish for the component stands among the attributes behind `Component:`. -/
theorem find?_component (as : Attributes) (key : String) :
    (as.component.find? (·.1 == key)).map (·.2) = as.get? ("Component:" ++ key) := by
  rw [Attributes.component, Attributes.get?]
  induction as.entries with
  | nil => rfl
  | cons a entries ih =>
    rw [List.filterMap_cons, List.find?_cons]
    cases hname : Attributes.componentName? a.1 with
    | none =>
      have hne : (a.1 == "Component:" ++ key) = false := by
        rw [beq_eq_false_iff_ne]
        intro h
        rw [componentName?_eq_some.2 h] at hname
        cases hname
      simpa [hne] using ih
    | some k =>
      have ha := componentName?_eq_some.1 hname
      by_cases hk : k = key
      · simp [ha, hk]
      · have hne : (a.1 == "Component:" ++ key) = false := by
          rw [beq_eq_false_iff_ne, ha]
          intro h
          exact hk (String.toList_inj.1 (by simpa using congrArg String.toList h))
        simpa [hk, hne] using ih

theorem pairwise_component (as : Attributes) :
    as.component.Pairwise fun a b => a.1 ≠ b.1 := by
  rw [Attributes.component]
  refine List.Pairwise.filterMap _ (fun a b hlt x hx y hy heq => ?_) as.sorted
  obtain ⟨k, hk, rfl⟩ := Option.map_eq_some_iff.1 hx
  obtain ⟨l, hl, rfl⟩ := Option.map_eq_some_iff.1 hy
  have hab : a.1 = b.1 := by
    rw [componentName?_eq_some.1 hk, componentName?_eq_some.1 hl]
    exact congrArg _ heq
  exact String.ne_of_lt hlt hab

/-- An identified entity has an `Id`: the author's verbatim one, or else its identifier. -/
theorem get?_complete_id (s : Schema α) (x : α) (id : String) :
    (s.complete x (some id)).element.get? "Id" = some (((s.attributes x).get? "Id").getD id) := by
  change (((s.fieldsElement x).setFirst "Id" id).setAll (s.attributes x).own).get? "Id" = _
  rw [get?_setAll_own _ _ (by decide), Element.get?_setFirst, if_pos rfl]
  cases (s.attributes x).get? "Id" <;> rfl

end Installer.Schema
