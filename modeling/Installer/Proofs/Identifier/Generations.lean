import Installer.Identifier.Session
import Mathlib.Data.List.Find
import Mathlib.Data.List.Nodup

/-!
# Generations

Every operation of a session that makes or resets an allocator takes a generation that was not used
before. So no two allocators share one, none comes back, and whatever a slot remembers comes from a
generation that has been used already.
-/
namespace Installer.Identifier

theorem Allocator.generation_reserve (a : Allocator) (id : String) :
    (a.reserve id).generation = a.generation := by
  unfold reserve
  split <;> rfl

namespace Slot

theorem resolve_of_some {x : Slot} {a : Allocator} {id : String}
    (h : x.explicit.or (x.cached a) = some id) (kind : Kind) (raw : String) :
    x.resolve kind raw a = (id, x, a) := by
  unfold resolve
  rw [h]

theorem resolve_of_none {x : Slot} {a : Allocator} (h : x.explicit.or (x.cached a) = none)
    (kind : Kind) (raw : String) : x.resolve kind raw a = ((a.allocate kind raw).1,
      { x with generated := some ⟨a.generation, (a.allocate kind raw).1⟩ },
      (a.allocate kind raw).2) := by
  unfold resolve
  rw [h]

theorem generation_resolve (x : Slot) (kind : Kind) (raw : String) (a : Allocator) :
    (x.resolve kind raw a).2.2.generation = a.generation := by
  cases h : x.explicit.or (x.cached a) with
  | some id => rw [resolve_of_some h]
  | none => rw [resolve_of_none h]; rfl

/-- What a slot remembers behind a resolve it remembered before, or it comes from the generation of
the allocator. -/
theorem generated_resolve {x : Slot} {kind : Kind} {raw : String} {a : Allocator} {g : Generated}
    (h : (x.resolve kind raw a).2.1.generated = some g) :
    x.generated = some g ∨ g.generation = a.generation := by
  cases hknown : x.explicit.or (x.cached a) with
  | some id =>
    rw [resolve_of_some hknown] at h
    exact Or.inl h
  | none =>
    rw [resolve_of_none hknown] at h
    exact Or.inr (by rw [← Option.some.inj h])

end Slot

namespace Session

def generations (s : Session) : List Nat :=
  s.allocators.map (·.generation)

variable {s : Session} {i : Nat} {a b : Allocator}

theorem slot?_putSlot (s : Session) (name key : String) (x : Slot) :
    (s.putSlot name x).slot? key = if name = key then some x else s.slot? key := by
  unfold slot? putSlot
  by_cases h : name = key
  · simp [h]
  · have hfilter : (s.slots.filter (·.1 != name)).find? (·.1 == key) =
        s.slots.find? (·.1 == key) := by
      rw [List.find?_filter]
      refine List.find?_congr fun p _ => ?_
      by_cases hp : p.1 = key
      · simp [hp, Ne.symm h]
      · simp [hp]
    rw [List.find?_cons, beq_eq_false_iff_ne.2 h, hfilter, if_neg h]

@[simp] theorem slot?_putAllocator (s : Session) (i : Nat) (a : Allocator) (key : String) :
    (s.putAllocator i a).slot? key = s.slot? key := rfl

@[simp] theorem generations_putSlot (s : Session) (name : String) (x : Slot) :
    (s.putSlot name x).generations = s.generations := rfl

theorem generations_putAllocator (s : Session) (i : Nat) (a : Allocator) :
    (s.putAllocator i a).generations = s.generations.set i a.generation :=
  List.map_set

theorem getElem?_generations (h : s.allocators[i]? = some a) :
    s.generations[i]? = some a.generation := by
  rw [generations, List.getElem?_map, h]
  rfl

/-- An allocator of the same generation leaves the generations alone. -/
theorem generations_putAllocator_of_eq (h : s.allocators[i]? = some a)
    (hb : b.generation = a.generation) : (s.putAllocator i b).generations = s.generations := by
  obtain ⟨hi, hget⟩ := List.getElem?_eq_some_iff.1 (getElem?_generations h)
  rw [generations_putAllocator, hb, ← hget, List.set_getElem_self]

/-- The number of the allocator that an operation makes or resets. -/
def started? (s : Session) : Operation → Option Nat
  | .make => some s.allocators.length
  | .reset i => if i < s.allocators.length then some i else none
  | _ => none

/-- The slot that an operation puts under a name. -/
def written? (s : Session) : Operation → Option (String × Slot)
  | .declare name id => some (name, .ofExplicit id)
  | .copy name source i =>
      match s.slot? source, s.allocators[i]? with
      | some x, some _ => some (name, x)
      | _, _ => none
  | .assign name id => (s.slot? name).map fun x => (name, x.set id)
  | .resolve name i kind raw =>
      match s.slot? name, s.allocators[i]? with
      | some x, some a => some (name, (x.resolve kind raw a).2.1)
      | _, _ => none
  | _ => none

/-- What an operation does to generations and slots: it gives the next generation to the allocator
that it makes or resets, and it puts a slot in the place of another one. -/
structure Follows (s : Session) (op : Operation) (t : Session) : Prop where
  generations : ∀ k, t.generations[k]? =
    if s.started? op = some k then some s.nextGeneration else s.generations[k]?
  next : t.nextGeneration = s.nextGeneration + (s.started? op).toList.length
  slots : ∀ key, t.slot? key =
    match s.written? op with
    | some w => if w.1 = key then some w.2 else s.slot? key
    | none => s.slot? key

section effects

variable {op : Operation}

theorem Follows.idle (hstart : s.started? op = none) (hwrite : s.written? op = none) :
    Follows s op s where
  generations := by simp [hstart]
  next := by simp [hstart]
  slots := by simp [hwrite]

/-- An allocator that goes on within its generation adds nothing to what else is done. -/
theorem Follows.putAllocator {t : Session} (h : Follows s op t) (ht : t.allocators[i]? = some a)
    (hb : b.generation = a.generation) : Follows s op (t.putAllocator i b) where
  generations := by
    rw [generations_putAllocator_of_eq ht hb]
    exact h.generations
  next := h.next
  slots := h.slots

theorem Follows.putSlot {name : String} {x : Slot} (hstart : s.started? op = none)
    (hwrite : s.written? op = some (name, x)) : Follows s op (s.putSlot name x) where
  generations := by simp [hstart]
  next := by
    rw [hstart]
    rfl
  slots := by
    intro key
    rw [slot?_putSlot, hwrite]

end effects

theorem follows_make (s : Session) : Follows s .make (s.step .make).2 where
  generations := by
    intro k
    have hgenerations : (s.step .make).2.generations = s.generations ++ [s.nextGeneration] :=
      List.map_append
    have hlength : s.generations.length = s.allocators.length := List.length_map _
    rw [hgenerations, started?, ← hlength, List.getElem?_append, List.getElem?_singleton]
    by_cases hlt : k < s.generations.length
    · have hne : s.generations.length ≠ k := by omega
      simp [hlt, hne]
    · by_cases heq : s.generations.length = k
      · simp [heq]
      · have hne : k - s.generations.length ≠ 0 := by omega
        simp [hlt, heq, hne]
  next := rfl
  slots _ := rfl

theorem follows_reset (s : Session) (i : Nat) : Follows s (.reset i) (s.step (.reset i)).2 := by
  rw [step]
  cases h : s.allocators[i]? with
  | none =>
    have hlength : s.allocators.length ≤ i := List.getElem?_eq_none_iff.1 h
    exact .idle (if_neg (Nat.not_lt.2 hlength)) rfl
  | some a =>
    obtain ⟨hi, _⟩ := List.getElem?_eq_some_iff.1 h
    have hstart : s.started? (.reset i) = some i := if_pos hi
    constructor
    · intro k
      have hlength : s.generations.length = s.allocators.length := List.length_map _
      change (s.putAllocator i _).generations[k]? = _
      rw [generations_putAllocator, List.getElem?_set, hstart, hlength]
      simp [hi, Allocator.empty]
    · rw [hstart]
      rfl
    · exact fun key => rfl

/-- Every operation does what is said of it, and nothing else. -/
theorem follows_step (s : Session) (op : Operation) : Follows s op (s.step op).2 := by
  cases op with
  | make => exact follows_make s
  | reset i => exact follows_reset s i
  | allocate i kind raw =>
    rw [step]
    cases h : s.allocators[i]? with
    | none => exact .idle rfl rfl
    | some a => exact Follows.putAllocator (.idle rfl rfl) h rfl
  | reserve i id =>
    rw [step]
    cases h : s.allocators[i]? with
    | none => exact .idle rfl rfl
    | some a => exact Follows.putAllocator (.idle rfl rfl) h (a.generation_reserve id)
  | resolve name i kind raw =>
    rw [step]
    cases hx : s.slot? name with
    | none => exact .idle rfl (by simp [written?, hx])
    | some x =>
      cases ha : s.allocators[i]? with
      | none => exact .idle rfl (by simp [written?, hx, ha])
      | some a =>
        exact Follows.putAllocator (.putSlot rfl (by simp [written?, hx, ha])) ha
          (x.generation_resolve kind raw a)
  | declare name id => exact .putSlot rfl rfl
  | assign name id =>
    rw [step]
    cases hx : s.slot? name with
    | none => exact .idle rfl (by simp [written?, hx])
    | some x => exact .putSlot rfl (by simp [written?, hx])
  | copy name source i =>
    rw [step]
    cases hx : s.slot? source with
    | none => exact .idle rfl (by simp [written?, hx])
    | some x =>
      cases ha : s.allocators[i]? with
      | none => exact .idle rfl (by simp [written?, hx, ha])
      | some a => exact .putSlot rfl (by simp [written?, hx, ha])
  | askEmpty i =>
    rw [step]
    cases s.allocators[i]? <;> exact .idle rfl rfl
  | look name i =>
    rw [step]
    cases s.slot? name <;> cases s.allocators[i]? <;> exact .idle rfl rfl
  | compare name other =>
    rw [step]
    cases s.slot? name <;> cases s.slot? other <;> exact .idle rfl rfl

theorem Follows.next_le {op : Operation} {t : Session} (h : Follows s op t) :
    s.nextGeneration ≤ t.nextGeneration ∧ t.nextGeneration ≤ s.nextGeneration + 1 := by
  rw [h.next]
  cases s.started? op <;> simp

theorem lt_length_of_generations {g : Nat} (h : s.generations[i]? = some g) :
    i < s.allocators.length := by
  obtain ⟨hi, _⟩ := List.getElem?_eq_some_iff.1 h
  rwa [generations, List.length_map] at hi

/-- An allocator that is there already starts anew where it is reset, and only there. -/
theorem started?_eq_some_iff {op : Operation} (hi : i < s.allocators.length) :
    s.started? op = some i ↔ op = .reset i := by
  constructor
  · intro h
    unfold started? at h
    split at h
    · have := Option.some.inj h
      omega
    · split at h
      · rw [Option.some.inj h]
      · simp at h
    · simp at h
  · rintro rfl
    exact if_pos hi

/-- What is known of generations at any time: those of the allocators are distinct, and they and
those that slots remember have been used already. -/
structure Fresh (s : Session) : Prop where
  below : ∀ {i g : Nat}, s.generations[i]? = some g → g < s.nextGeneration
  distinct : ∀ {i j g : Nat}, s.generations[i]? = some g → s.generations[j]? = some g → i = j
  remembered : ∀ {name : String} {x : Slot} {g : Generated}, s.slot? name = some x →
    x.generated = some g → g.generation < s.nextGeneration

theorem fresh_initial : initial.Fresh := by
  have hgenerations : ∀ {i g : Nat}, initial.generations[i]? = some g → i = 0 ∧ g = 0 := by
    intro i g h
    cases i with
    | zero => exact ⟨rfl, (Option.some.inj h).symm⟩
    | succ i => simp [initial, generations] at h
  constructor
  · intro i g h
    rw [(hgenerations h).2]
    decide
  · intro i j g hi hj
    rw [(hgenerations hi).1, (hgenerations hj).1]
  · intro name x g h
    simp [initial, slot?] at h

namespace Fresh

/-- A slot that an operation writes remembers what another slot remembered, or what an allocator
gave it in its present generation. -/
theorem generation_written (h : s.Fresh) {op : Operation} {name : String} {x : Slot}
    {g : Generated} (hwrite : s.written? op = some (name, x)) (hg : x.generated = some g) :
    g.generation < s.nextGeneration := by
  unfold written? at hwrite
  split at hwrite
  · obtain ⟨rfl, rfl⟩ := Prod.mk.inj (Option.some.inj hwrite)
    simp [Slot.ofExplicit] at hg
  · split at hwrite
    · next hsource _ =>
      obtain ⟨rfl, rfl⟩ := Prod.mk.inj (Option.some.inj hwrite)
      exact h.remembered hsource hg
    · simp at hwrite
  · obtain ⟨y, hy, hx⟩ := Option.map_eq_some_iff.1 hwrite
    obtain ⟨rfl, rfl⟩ := Prod.mk.inj hx
    exact h.remembered hy hg
  · split at hwrite
    · next hslot ha =>
      obtain ⟨rfl, rfl⟩ := Prod.mk.inj (Option.some.inj hwrite)
      rcases Slot.generated_resolve hg with hg | hg
      · exact h.remembered hslot hg
      · rw [hg]
        exact h.below (getElem?_generations ha)
    · simp at hwrite
  · simp at hwrite

theorem follow (h : s.Fresh) {op : Operation} {t : Session} (ht : Follows s op t) : t.Fresh where
  below {k g} hk := by
    rw [ht.generations] at hk
    split at hk
    · next hstart =>
      rw [ht.next, hstart, ← Option.some.inj hk]
      exact Nat.lt_succ_self _
    · exact Nat.lt_of_lt_of_le (h.below hk) ht.next_le.1
  distinct {j k g} hj hk := by
    rw [ht.generations] at hj hk
    split at hj <;> split at hk
    · next hstart hstart' => exact Option.some.inj (hstart.symm.trans hstart')
    · rw [← Option.some.inj hj] at hk
      exact absurd (h.below hk) (Nat.lt_irrefl _)
    · rw [← Option.some.inj hk] at hj
      exact absurd (h.below hj) (Nat.lt_irrefl _)
    · exact h.distinct hj hk
  remembered {key x g} hx hg := by
    refine Nat.lt_of_lt_of_le ?_ ht.next_le.1
    rw [ht.slots] at hx
    split at hx
    · next w hwrite =>
      split at hx
      · exact h.generation_written hwrite (Option.some.inj hx ▸ hg)
      · exact h.remembered hx hg
    · exact h.remembered hx hg

theorem step (h : s.Fresh) (op : Operation) : (s.step op).2.Fresh :=
  h.follow (follows_step s op)

theorem run (h : s.Fresh) (ops : List Operation) : (s.run ops).2.Fresh := by
  induction ops generalizing s with
  | nil => exact h
  | cons op ops ih => exact ih (h.step op)

end Fresh

theorem nextGeneration_run_le (s : Session) (ops : List Operation) :
    (s.run ops).2.nextGeneration ≤ s.nextGeneration + ops.length := by
  induction ops generalizing s with
  | nil => exact Nat.le_refl _
  | cons op ops ih =>
    have hstep := (follows_step s op).next_le.2
    have hrun := ih (s.step op).2
    rw [List.length_cons]
    change ((s.step op).2.run ops).2.nextGeneration ≤ _
    omega

/-- A generation that was used and that no allocator has any more does not come back. -/
theorem generation_ne_of_spent {g : Nat} (hused : g < s.nextGeneration)
    (hspent : ∀ i : Nat, s.generations[i]? ≠ some g) (ops : List Operation) (j : Nat) :
    (s.run ops).2.generations[j]? ≠ some g := by
  induction ops generalizing s with
  | nil => exact hspent j
  | cons op ops ih =>
    have hstep := follows_step s op
    refine ih (s := (s.step op).2) (Nat.lt_of_lt_of_le hused hstep.next_le.1) fun i hi => ?_
    rw [hstep.generations] at hi
    split at hi
    · have := Option.some.inj hi
      omega
    · exact hspent i hi

/-- Two allocators have one generation where they are the same and it was not reset in between. -/
theorem generation_eq_iff (h : s.Fresh) {i j g k : Nat} (hi : s.generations[i]? = some g)
    (ops : List Operation) (hj : (s.run ops).2.generations[j]? = some k) :
    g = k ↔ i = j ∧ Operation.reset i ∉ ops := by
  induction ops generalizing s with
  | nil =>
    constructor
    · rintro rfl
      exact ⟨h.distinct hi hj, by simp⟩
    · rintro ⟨rfl, _⟩
      exact Option.some.inj (hi.symm.trans hj)
  | cons op ops ih =>
    have hstep := follows_step s op
    have hstarts : s.started? op = some i ↔ op = .reset i :=
      started?_eq_some_iff (lt_length_of_generations hi)
    by_cases hreset : op = .reset i
    · have hspent : ∀ m : Nat, (s.step op).2.generations[m]? ≠ some g := by
        intro m hm
        rw [hstep.generations] at hm
        split at hm
        · exact absurd (h.below hi) (by rw [Option.some.inj hm]; exact Nat.lt_irrefl _)
        · next hne =>
          obtain rfl := h.distinct hi hm
          exact hne (hstarts.2 hreset)
      have hused := Nat.lt_of_lt_of_le (h.below hi) hstep.next_le.1
      constructor
      · rintro rfl
        exact absurd hj (generation_ne_of_spent hused hspent ops j)
      · rintro ⟨_, hnone⟩
        exact absurd (hreset ▸ List.mem_cons_self) hnone
    · have hkept : (s.step op).2.generations[i]? = some g := by
        rw [hstep.generations, if_neg (mt hstarts.1 hreset)]
        exact hi
      rw [ih (h.step op) hkept hj, List.mem_cons, not_or]
      exact ⟨fun ⟨hij, hops⟩ => ⟨hij, Ne.symm hreset, hops⟩, fun ⟨hij, _, hops⟩ => ⟨hij, hops⟩⟩

end Session

end Installer.Identifier
