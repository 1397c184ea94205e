import Installer.Proofs.Identifier.Views

/-!
# Stale identifiers in slots

A slot remembers the identifier that it was last given, whatever allocator gave it. What is stale of
it never shows: an allocator that was made or reset answers as if all slots had forgotten what they
remember. And as long as an allocator is not reset and nothing is done to a slot but resolving it
through that allocator, the slot resolves to one identifier.
-/
namespace Installer.Identifier

/-- An operation that may make a slot resolve to another identifier: it resets the allocator, gives
the slot an identifier, puts another slot in its place, or resolves it through another allocator. -/
def Operation.disturbs (slot : String) (i : Nat) : Operation → Bool
  | .reset j => j == i
  | .declare name _ => name == slot
  | .copy name _ _ => name == slot
  | .assign name _ => name == slot
  | .resolve name j _ _ => name == slot && j != i
  | _ => false

namespace Session

variable {s : Session} {i : Nat}

theorem slots_of_started? {op : Operation} (h : s.started? op = some i) :
    (s.step op).2.slots = s.slots := by
  cases op with
  | make => rfl
  | reset j =>
    rw [step]
    cases s.allocators[j]? <;> rfl
  | _ => simp [started?] at h

/-- An allocator at its start cannot tell whether all slots forgot what they remember. -/
theorem agree_forget (h : s.Fresh) {op : Operation} (hstart : s.started? op = some i) :
    ∃ a, Agree i a (s.step op).2 (s.step op).2.forget := by
  have hgeneration : (s.step op).2.generations[i]? = some s.nextGeneration := by
    rw [(follows_step s op).generations, if_pos hstart]
  obtain ⟨a, ha, hgen⟩ := Option.map_eq_some_iff.1
    (List.getElem?_map (f := Allocator.generation) ▸ hgeneration)
  refine ⟨a, rfl, rfl, ha, ha, fun name => ?_⟩
  rw [slot?_forget, Option.map_map]
  have hslots : (s.step op).2.slot? name = s.slot? name := by
    unfold slot?
    rw [slots_of_started? hstart]
  cases hx : s.slot? name with
  | none => simp [hslots, hx]
  | some x =>
    rw [hslots, hx, Option.map_some, Option.map_some, h.seenBy_unused hx (Nat.le_of_eq hgen.symm)]
    rfl

/-- The slot and the allocator are there, and the slot has an identifier for the allocator. -/
def Knows (s : Session) (slot : String) (i : Nat) (id : String) : Prop :=
  ∃ x a, s.slot? slot = some x ∧ s.allocators[i]? = some a ∧ x.explicit.or (x.cached a) = some id

variable {slot id : String}

/-- What a slot resolves to it has from then on. -/
theorem knows_of_answer {kind : Kind} {raw : String}
    (h : (s.step (.resolve slot i kind raw)).1 = .id id) :
    (s.step (.resolve slot i kind raw)).2.Knows slot i id := by
  rw [step] at h ⊢
  cases hx : s.slot? slot with
  | none => simp [hx] at h
  | some x =>
    cases ha : s.allocators[i]? with
    | none => simp [hx, ha] at h
    | some a =>
      simp only [hx, ha, Answer.id.injEq] at h ⊢
      refine ⟨(x.resolve kind raw a).2.1, (x.resolve kind raw a).2.2, ?_, ?_, ?_⟩
      · rw [slot?_putAllocator, slot?_putSlot, if_pos rfl]
      · exact List.getElem?_set_self (List.getElem?_eq_some_iff.1 ha).1
      · rw [← h]
        exact x.known_resolve kind raw a

/-- A slot that has an identifier for an allocator resolves to it, and nothing changes. -/
theorem Knows.resolve (h : s.Knows slot i id) (kind : Kind) (raw : String) :
    (s.step (.resolve slot i kind raw)).1 = .id id ∧
      (s.step (.resolve slot i kind raw)).2.Knows slot i id := by
  obtain ⟨x, a, hx, ha, hid⟩ := h
  have hanswer : (s.step (.resolve slot i kind raw)).1 = .id id := by
    simp only [step, hx, ha, Slot.resolve_of_some hid]
  exact ⟨hanswer, knows_of_answer hanswer⟩

/-- An operation writes the slot that it names. -/
theorem fst_of_written? {op : Operation} {w : String × Slot} (h : s.written? op = some w) :
    (∃ id, op = .declare w.1 id) ∨ (∃ source i, op = .copy w.1 source i) ∨
      (∃ id, op = .assign w.1 id) ∨ ∃ i kind raw, op = .resolve w.1 i kind raw := by
  unfold written? at h
  split at h
  · next name id =>
    obtain rfl := Option.some.inj h
    exact Or.inl ⟨id, rfl⟩
  · next name source i =>
    split at h
    · obtain rfl := Option.some.inj h
      exact Or.inr (Or.inl ⟨source, i, rfl⟩)
    · simp at h
  · next name id =>
    obtain ⟨x, _, rfl⟩ := Option.map_eq_some_iff.1 h
    exact Or.inr (Or.inr (Or.inl ⟨id, rfl⟩))
  · next name i kind raw =>
    split at h
    · obtain rfl := Option.some.inj h
      exact Or.inr (Or.inr (Or.inr ⟨i, kind, raw, rfl⟩))
    · simp at h
  · simp at h

/-- What does not disturb a slot writes another one, or it resolves the slot through the allocator
at hand. -/
theorem written?_of_not_disturbs {op : Operation} {w : String × Slot}
    (h : s.written? op = some w) (hop : op.disturbs slot i = false) :
    w.1 ≠ slot ∨ ∃ kind raw, op = .resolve slot i kind raw := by
  by_cases hw : w.1 = slot
  · obtain ⟨id, rfl⟩ | ⟨source, j, rfl⟩ | ⟨id, rfl⟩ | ⟨j, kind, raw, rfl⟩ := fst_of_written? h
    · simp [Operation.disturbs, hw] at hop
    · simp [Operation.disturbs, hw] at hop
    · simp [Operation.disturbs, hw] at hop
    · obtain rfl : j = i := by simpa [Operation.disturbs, hw] using hop
      exact Or.inr ⟨kind, raw, by rw [hw]⟩
  · exact Or.inl hw

theorem Knows.step (h : s.Knows slot i id) {op : Operation}
    (hop : op.disturbs slot i = false) : (s.step op).2.Knows slot i id := by
  by_cases hresolve : ∃ kind raw, op = .resolve slot i kind raw
  · obtain ⟨kind, raw, rfl⟩ := hresolve
    exact (h.resolve kind raw).2
  · obtain ⟨x, a, hx, ha, hid⟩ := h
    have hstep := follows_step s op
    have hslot : (s.step op).2.slot? slot = some x := by
      rw [hstep.slots]
      split
      · next w hw =>
        rw [if_neg ((written?_of_not_disturbs hw hop).resolve_right hresolve)]
        exact hx
      · exact hx
    have hi := (List.getElem?_eq_some_iff.1 ha).1
    have hreset : op ≠ .reset i := by
      rintro rfl
      simp [Operation.disturbs] at hop
    have hgeneration : (s.step op).2.generations[i]? = some a.generation := by
      rw [hstep.generations, if_neg (mt (started?_eq_some_iff hi).1 hreset)]
      exact getElem?_generations ha
    obtain ⟨b, hb, hgen⟩ := Option.map_eq_some_iff.1
      (List.getElem?_map (f := Allocator.generation) ▸ hgeneration)
    exact ⟨x, b, hslot, hb, by rw [x.cached_congr hgen, hid]⟩

theorem Knows.run (h : s.Knows slot i id) {ops : List Operation}
    (hops : ∀ op ∈ ops, op.disturbs slot i = false) : (s.run ops).2.Knows slot i id := by
  induction ops generalizing s with
  | nil => exact h
  | cons op ops ih =>
    obtain ⟨hop, hops⟩ := List.forall_mem_cons.1 hops
    exact ih (h.step hop) hops

/-- Over every history of a session, what slots remember from other generations never shows. No two
allocators have one generation and none comes back, and there are not more generations than
operations. An allocator that is made or reset gives the answers that it would give if all slots
forgot what they remember. And a slot resolves to one identifier through one allocator until
something disturbs it. -/
theorem stale_caches_unobservable (past : List Operation) :
    let s := (initial.run past).2
    (s.nextGeneration ≤ past.length + 1 ∧
      ∀ (later : List Operation) (i j : Nat) (a b : Allocator), s.allocators[i]? = some a →
        (s.run later).2.allocators[j]? = some b →
        (a.generation = b.generation ↔ i = j ∧ Operation.reset i ∉ later)) ∧
    (∀ (op : Operation) (i : Nat), s.started? op = some i →
      ∀ (later : List Operation) (k : Nat) (next : Operation), later[k]? = some next →
        next.Concerns i →
        ((s.step op).2.run later).1[k]? = ((s.step op).2.forget.run later).1[k]?) ∧
    ∀ (slot : String) (i : Nat) (kind : Kind) (raw id : String),
      (s.step (.resolve slot i kind raw)).1 = .id id →
      ∀ later : List Operation, (∀ op ∈ later, op.disturbs slot i = false) →
        ∀ (kind' : Kind) (raw' : String),
          (((s.step (.resolve slot i kind raw)).2.run later).2.step
            (.resolve slot i kind' raw')).1 = .id id := by
  intro s
  have hs : s.Fresh := fresh_initial.run past
  refine ⟨⟨?_, ?_⟩, ?_, ?_⟩
  · have hnext := nextGeneration_run_le initial past
    rwa [Nat.add_comm] at hnext
  · intro later i j a b ha hb
    exact generation_eq_iff hs (getElem?_generations ha) later (getElem?_generations hb)
  · intro op i hstart later k next hk hnext
    obtain ⟨a, hagree⟩ := agree_forget hs hstart
    exact answers_of_agree hagree (hs.step op) (hs.step op).forget later hk hnext
  · intro slot i kind raw id hid later hlater kind' raw'
    exact (((knows_of_answer hid).run hlater).resolve kind' raw').1

/-- A slot that one allocator resolved, its copy, and a second allocator that resolved it since. -/
def sharedSlot : List Operation :=
  [.declare "a" none, .resolve "a" 0 .file "x", .copy "b" "a" 0, .make, .resolve "a" 1 .file "x"]

/-- Behind a reset of the first allocator the copy does not resolve to what it remembers, and the
slot goes on resolving to one identifier through the second allocator. -/
theorem stale_caches_unobservable_shared :
    let s := (initial.run sharedSlot).2
    let later := [Operation.allocate 0 .file "x", .resolve "b" 0 .file "x"]
    s.started? (.reset 0) = some 0 ∧
      ((s.step (.reset 0)).2.run later).1 = [.id "x", .id "x.1"] ∧
      ((s.step (.reset 0)).2.run later).1[1]? = ((s.step (.reset 0)).2.forget.run later).1[1]? ∧
      (s.step (.resolve "a" 1 .file "x")).1 = .id "x" ∧
      (((s.step (.resolve "a" 1 .file "x")).2.run later).2.step
        (.resolve "a" 1 .file "y")).1 = .id "x" := by
  intro s later
  have hstart : s.started? (.reset 0) = some 0 := by decide +kernel
  have hid : (s.step (.resolve "a" 1 .file "x")).1 = .id "x" := by decide +kernel
  obtain ⟨_, hforget, hkeeps⟩ := stale_caches_unobservable sharedSlot
  refine ⟨hstart, by decide +kernel, ?_, hid, ?_⟩
  · exact hforget (.reset 0) 0 hstart later 1 (.resolve "b" 0 .file "x") rfl fun j hj =>
      (Option.some.inj hj).symm
  · exact hkeeps "a" 1 .file "x" "x" hid later (by decide) .file "y"

end Session

end Installer.Identifier
