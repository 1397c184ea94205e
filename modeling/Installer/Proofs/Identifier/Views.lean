import Installer.Proofs.Identifier.Generations

/-!
# What an allocator sees

Of a slot an allocator sees what the author gave and what the slot remembers from the allocator's
own generation. It cannot tell sessions apart in which it sees the same, and no operation makes a
difference between them that it could see.
-/
namespace Installer.Identifier

/-- The number of the allocator that an operation names. -/
def Operation.allocator? : Operation → Option Nat
  | .allocate i _ _ => some i
  | .reserve i _ => some i
  | .reset i => some i
  | .askEmpty i => some i
  | .copy _ _ i => some i
  | .look _ i => some i
  | .resolve _ i _ _ => some i
  | _ => none

/-- An operation that names no other allocator. -/
def Operation.Concerns (i : Nat) (op : Operation) : Prop :=
  ∀ j ∈ op.allocator?, j = i

namespace Slot

/-- What an allocator sees of a slot: what the author gave, and what the slot remembers from the
allocator's generation. -/
def seenBy (x : Slot) (a : Allocator) : Option String × Option String :=
  (x.explicit, x.cached a)

/-- The slot without what it remembers. -/
def forget (x : Slot) : Slot :=
  { x with generated := none }

theorem cached_congr (x : Slot) {a b : Allocator} (h : b.generation = a.generation) :
    x.cached b = x.cached a := by
  rw [cached, cached, h]

theorem seenBy_congr (x : Slot) {a b : Allocator} (h : b.generation = a.generation) :
    x.seenBy b = x.seenBy a := by
  rw [seenBy, seenBy, x.cached_congr h]

theorem cached_eq_none {x : Slot} {a : Allocator}
    (h : ∀ g, x.generated = some g → g.generation ≠ a.generation) : x.cached a = none := by
  unfold cached
  cases hg : x.generated with
  | none => rfl
  | some g => simp [h g hg]

theorem cached_remembered (explicit : Option String) (a b : Allocator) (id : String) :
    (⟨explicit, some ⟨b.generation, id⟩⟩ : Slot).cached a =
      if b.generation = a.generation then some id else none := by
  unfold cached
  by_cases h : b.generation = a.generation <;> simp [h]

/-- Behind a resolve the slot has the identifier that it resolved to. -/
theorem known_resolve (x : Slot) (kind : Kind) (raw : String) (a : Allocator) :
    let r := x.resolve kind raw a
    r.2.1.explicit.or (r.2.1.cached r.2.2) = some r.1 := by
  intro r
  cases h : x.explicit.or (x.cached a) with
  | some id =>
    have hr : r = (id, x, a) := resolve_of_some h kind raw
    rw [hr]
    exact h
  | none =>
    have hr : r = _ := resolve_of_none h kind raw
    obtain ⟨hexplicit, _⟩ := Option.or_eq_none_iff.1 h
    have hgeneration : (a.allocate kind raw).2.generation = a.generation := rfl
    rw [hr]
    dsimp only
    rw [hexplicit, Option.none_or, cached_congr _ hgeneration, cached_remembered, if_pos rfl]

/-- What an allocator makes of a slot depends on what it sees of the slot. -/
theorem resolve_congr {x y : Slot} {a : Allocator} (h : x.seenBy a = y.seenBy a) (kind : Kind)
    (raw : String) : (x.resolve kind raw a).1 = (y.resolve kind raw a).1 ∧
      (x.resolve kind raw a).2.2 = (y.resolve kind raw a).2.2 ∧
      (x.resolve kind raw a).2.1.seenBy a = (y.resolve kind raw a).2.1.seenBy a := by
  obtain ⟨hexplicit, hcached⟩ := Prod.mk.inj h
  cases hx : x.explicit.or (x.cached a) with
  | some id =>
    have hy : y.explicit.or (y.cached a) = some id := by rw [← hexplicit, ← hcached, hx]
    rw [resolve_of_some hx, resolve_of_some hy]
    exact ⟨rfl, rfl, h⟩
  | none =>
    have hy : y.explicit.or (y.cached a) = none := by rw [← hexplicit, ← hcached, hx]
    rw [resolve_of_none hx, resolve_of_none hy]
    refine ⟨rfl, rfl, ?_⟩
    rw [seenBy, seenBy, cached_remembered, cached_remembered, hexplicit]

/-- Behind a resolve through another allocator, an allocator sees nothing remembered, unless the
author gave the identifier. -/
theorem seenBy_resolve_other (x : Slot) (kind : Kind) (raw : String) {a b : Allocator}
    (hne : b.generation ≠ a.generation) : (x.resolve kind raw b).2.1.seenBy a =
      (x.explicit, if x.explicit.isSome then x.cached a else none) := by
  cases hexplicit : x.explicit with
  | some id =>
    have hknown : x.explicit.or (x.cached b) = some id := by simp [hexplicit]
    rw [resolve_of_some hknown, seenBy, hexplicit]
    rfl
  | none =>
    cases hcached : x.cached b with
    | some id =>
      have hknown : x.explicit.or (x.cached b) = some id := by simp [hexplicit, hcached]
      have hother : x.cached a = none := by
        refine cached_eq_none fun g hg h => ?_
        have hgb : g.generation ≠ b.generation := fun hb => hne (hb.symm.trans h)
        simp [cached, hg, hgb] at hcached
      rw [resolve_of_some hknown, seenBy, hexplicit, hother]
      rfl
    | none =>
      have hunknown : x.explicit.or (x.cached b) = none := by simp [hexplicit, hcached]
      rw [resolve_of_none hunknown, seenBy, cached_remembered, if_neg hne, hexplicit]
      rfl

end Slot

namespace Session

variable {s t : Session} {i : Nat} {a : Allocator}

/-- The session with nothing remembered in any slot. -/
def forget (s : Session) : Session :=
  { s with slots := s.slots.map fun (name, x) => (name, x.forget) }

theorem slot?_forget (s : Session) (name : String) :
    s.forget.slot? name = (s.slot? name).map Slot.forget := by
  unfold slot? forget
  rw [List.find?_map, Option.map_map, Option.map_map]
  rfl

theorem Fresh.forget (h : s.Fresh) : s.forget.Fresh where
  below := h.below
  distinct := h.distinct
  remembered {name x g} hx hg := by
    rw [slot?_forget] at hx
    obtain ⟨y, _, rfl⟩ := Option.map_eq_some_iff.1 hx
    simp [Slot.forget] at hg

/-- Of a generation that was not used yet no slot remembers anything. -/
theorem Fresh.seenBy_unused (h : s.Fresh) {name : String} {x : Slot} (hx : s.slot? name = some x)
    (ha : s.nextGeneration ≤ a.generation) : x.seenBy a = (x.explicit, none) := by
  have hnone : x.cached a = none := by
    refine Slot.cached_eq_none fun g hg hsame => ?_
    have := h.remembered hx hg
    omega
  rw [Slot.seenBy, hnone]

/-- An allocator cannot tell two sessions apart: it is the same in both, it sees the same of every
slot, and the generations are the same. Of the other allocators nothing else is said. -/
structure Agree (i : Nat) (a : Allocator) (s t : Session) : Prop where
  next : s.nextGeneration = t.nextGeneration
  generations : s.generations = t.generations
  left : s.allocators[i]? = some a
  right : t.allocators[i]? = some a
  slots : ∀ name, (s.slot? name).map (·.seenBy a) = (t.slot? name).map (·.seenBy a)

namespace Agree

variable (h : Agree i a s t)
include h

theorem slot_cases (name : String) : (s.slot? name = none ∧ t.slot? name = none) ∨
    ∃ x y, s.slot? name = some x ∧ t.slot? name = some y ∧ x.seenBy a = y.seenBy a := by
  have hname := h.slots name
  cases hx : s.slot? name with
  | none =>
    cases hy : t.slot? name with
    | none => exact Or.inl ⟨rfl, rfl⟩
    | some y => simp [hx, hy] at hname
  | some x =>
    cases hy : t.slot? name with
    | none => simp [hx, hy] at hname
    | some y => exact Or.inr ⟨x, y, rfl, rfl, by simpa [hx, hy] using hname⟩

theorem allocator_cases (j : Nat) : (s.allocators[j]? = none ∧ t.allocators[j]? = none) ∨
    ∃ c d, s.allocators[j]? = some c ∧ t.allocators[j]? = some d ∧
      c.generation = d.generation ∧ (j = i → c = a ∧ d = a) := by
  have hj : (s.allocators[j]?).map (·.generation) = (t.allocators[j]?).map (·.generation) := by
    rw [← List.getElem?_map, ← List.getElem?_map]
    exact congrArg (·[j]?) h.generations
  cases hc : s.allocators[j]? with
  | none =>
    cases hd : t.allocators[j]? with
    | none => exact Or.inl ⟨rfl, rfl⟩
    | some d => simp [hc, hd] at hj
  | some c =>
    cases hd : t.allocators[j]? with
    | none => simp [hc, hd] at hj
    | some d =>
      refine Or.inr ⟨c, d, rfl, rfl, by simpa [hc, hd] using hj, ?_⟩
      rintro rfl
      exact ⟨Option.some.inj (hc.symm.trans h.left), Option.some.inj (hd.symm.trans h.right)⟩

theorem putSlot (name : String) {x y : Slot} (hxy : x.seenBy a = y.seenBy a) :
    Agree i a (s.putSlot name x) (t.putSlot name y) where
  next := h.next
  generations := h.generations
  left := h.left
  right := h.right
  slots key := by
    rw [slot?_putSlot, slot?_putSlot]
    split
    · simp [hxy]
    · exact h.slots key

/-- Allocators of one number that go on within their generations, the one at hand in the same way in
both sessions. -/
theorem putAllocator {j : Nat} {c c' d d' : Allocator} (hc : s.allocators[j]? = some c)
    (hd : t.allocators[j]? = some d) (hc' : c'.generation = c.generation)
    (hd' : d'.generation = d.generation) (hown : j = i → c' = d') :
    ∃ b, Agree i b (s.putAllocator j c') (t.putAllocator j d') := by
  have hgenerations : (s.putAllocator j c').generations = (t.putAllocator j d').generations := by
    rw [generations_putAllocator_of_eq hc hc', generations_putAllocator_of_eq hd hd',
      h.generations]
  by_cases hj : j = i
  · subst hj
    obtain rfl := hown rfl
    obtain rfl := Option.some.inj (hc.symm.trans h.left)
    have hs := (List.getElem?_eq_some_iff.1 hc).1
    have ht := (List.getElem?_eq_some_iff.1 hd).1
    refine ⟨c', h.next, hgenerations, List.getElem?_set_self hs, List.getElem?_set_self ht, ?_⟩
    intro name
    simp only [slot?_putAllocator, Slot.seenBy_congr _ hc']
    exact h.slots name
  · exact ⟨a, h.next, hgenerations, (List.getElem?_set_ne hj).trans h.left,
      (List.getElem?_set_ne hj).trans h.right, h.slots⟩

theorem make : Agree i a (s.step .make).2 (t.step .make).2 where
  next := congrArg (· + 1) h.next
  generations := by
    change (s.allocators ++ _).map _ = (t.allocators ++ _).map _
    rw [List.map_append, List.map_append, h.next]
    exact congrArg (· ++ _) h.generations
  left := by
    obtain ⟨hi, _⟩ := List.getElem?_eq_some_iff.1 h.left
    exact (List.getElem?_append_left hi).trans h.left
  right := by
    obtain ⟨hi, _⟩ := List.getElem?_eq_some_iff.1 h.right
    exact (List.getElem?_append_left hi).trans h.right
  slots := h.slots

/-- Allocators of one number that start with the next generation. -/
theorem renew (hs : s.Fresh) (ht : t.Fresh) {j : Nat} {c d : Allocator}
    (hc : s.allocators[j]? = some c) (hd : t.allocators[j]? = some d) :
    let u : Session :=
      { s.putAllocator j (.empty s.nextGeneration) with nextGeneration := s.nextGeneration + 1 }
    let v : Session :=
      { t.putAllocator j (.empty t.nextGeneration) with nextGeneration := t.nextGeneration + 1 }
    ∃ b, Agree i b u v := by
  intro u v
  have hnext := congrArg (· + 1) h.next
  have hgenerations : (s.putAllocator j (.empty s.nextGeneration)).generations =
      (t.putAllocator j (.empty t.nextGeneration)).generations := by
    rw [generations_putAllocator, generations_putAllocator, h.generations, h.next]
  by_cases hj : j = i
  · subst hj
    have hleft := (List.getElem?_eq_some_iff.1 hc).1
    have hright := (List.getElem?_eq_some_iff.1 hd).1
    refine ⟨.empty s.nextGeneration, hnext, hgenerations, List.getElem?_set_self hleft, ?_, ?_⟩
    · rw [h.next]
      exact List.getElem?_set_self hright
    · intro name
      change (s.slot? name).map _ = (t.slot? name).map _
      obtain ⟨hx, hy⟩ | ⟨x, y, hx, hy, hxy⟩ := h.slot_cases name
      · rw [hx, hy]
      · rw [hx, hy, Option.map_some, Option.map_some, hs.seenBy_unused hx (Nat.le_refl _),
          ht.seenBy_unused hy (Nat.le_of_eq h.next.symm), (Prod.mk.inj hxy).1]
  · exact ⟨a, hnext, hgenerations, (List.getElem?_set_ne hj).trans h.left,
      (List.getElem?_set_ne hj).trans h.right, h.slots⟩

/-- What one allocator does for itself. -/
theorem act {f : Allocator → Answer × Allocator} (hf : ∀ c, (f c).2.generation = c.generation)
    (j : Nat) :
    let outcome : Session → Answer × Session := fun u =>
      match u.allocators[j]? with
      | some c => ((f c).1, u.putAllocator j (f c).2)
      | none => (.unknown, u)
    (∃ b, Agree i b (outcome s).2 (outcome t).2) ∧ (j = i → (outcome s).1 = (outcome t).1) := by
  intro outcome
  obtain ⟨hc, hd⟩ | ⟨c, d, hc, hd, _, hown⟩ := h.allocator_cases j
  · simp only [outcome, hc, hd]
    exact ⟨⟨a, h⟩, fun _ => trivial⟩
  · simp only [outcome, hc, hd]
    have hsame : j = i → c = d := fun hj => (hown hj).1.trans (hown hj).2.symm
    exact ⟨h.putAllocator hc hd (hf c) (hf d) fun hj => by rw [hsame hj],
      fun hj => by rw [hsame hj]⟩

/-- A slot resolved through an allocator. -/
theorem resolve (hs : s.Fresh) (name : String) (j : Nat) (kind : Kind) (raw : String) :
    (∃ b, Agree i b (s.step (.resolve name j kind raw)).2 (t.step (.resolve name j kind raw)).2) ∧
      (j = i → (s.step (.resolve name j kind raw)).1 = (t.step (.resolve name j kind raw)).1) := by
  obtain ⟨hx, hy⟩ | ⟨x, y, hx, hy, hxy⟩ := h.slot_cases name
  · simp only [Session.step, hx, hy]
    exact ⟨⟨a, h⟩, fun _ => trivial⟩
  obtain ⟨hc, hd⟩ | ⟨c, d, hc, hd, hgeneration, hown⟩ := h.allocator_cases j
  · simp only [Session.step, hx, hy, hc, hd]
    exact ⟨⟨a, h⟩, fun _ => trivial⟩
  simp only [Session.step, hx, hy, hc, hd]
  have hc' := x.generation_resolve kind raw c
  have hd' := y.generation_resolve kind raw d
  by_cases hj : j = i
  · obtain ⟨rfl, rfl⟩ := hown hj
    obtain ⟨hid, hallocator, hslot⟩ := Slot.resolve_congr hxy kind raw
    exact ⟨(h.putSlot name hslot).putAllocator hc hd hc' hd' fun _ => hallocator,
      fun _ => congrArg Answer.id hid⟩
  · -- The other allocator has another generation, whatever it answers in each session.
    have hne : c.generation ≠ a.generation := fun hsame =>
      hj (hs.distinct (getElem?_generations hc) (hsame ▸ getElem?_generations h.left))
    have hslot : (x.resolve kind raw c).2.1.seenBy a = (y.resolve kind raw d).2.1.seenBy a := by
      obtain ⟨hexplicit, hcached⟩ := Prod.mk.inj hxy
      rw [x.seenBy_resolve_other kind raw hne,
        y.seenBy_resolve_other kind raw (hgeneration ▸ hne), hexplicit, hcached]
    exact ⟨(h.putSlot name hslot).putAllocator hc hd hc' hd' fun h => absurd h hj,
      fun h => absurd h hj⟩

/-- What is read off a slot through an allocator, and done to the slots alone. -/
theorem consult (answer : Slot → Allocator → Answer) (next : Slot → Session → Session)
    (hanswer : ∀ x y, x.seenBy a = y.seenBy a → answer x a = answer y a)
    (hnext : ∀ x y, x.seenBy a = y.seenBy a → Agree i a (next x s) (next y t))
    (name : String) (j : Nat) :
    let outcome : Session → Answer × Session := fun u =>
      match u.slot? name, u.allocators[j]? with
      | some x, some c => (answer x c, next x u)
      | _, _ => (.unknown, u)
    (∃ b, Agree i b (outcome s).2 (outcome t).2) ∧ (j = i → (outcome s).1 = (outcome t).1) := by
  intro outcome
  obtain ⟨hx, hy⟩ | ⟨x, y, hx, hy, hxy⟩ := h.slot_cases name
  · simp only [outcome, hx, hy]
    exact ⟨⟨a, h⟩, fun _ => trivial⟩
  obtain ⟨hc, hd⟩ | ⟨c, d, hc, hd, _, hown⟩ := h.allocator_cases j
  · simp only [outcome, hx, hy, hc, hd]
    exact ⟨⟨a, h⟩, fun _ => trivial⟩
  simp only [outcome, hx, hy, hc, hd]
  refine ⟨⟨a, hnext x y hxy⟩, fun hj => ?_⟩
  rw [(hown hj).1, (hown hj).2]
  exact hanswer x y hxy

/-- An allocator that starts with the next generation. -/
theorem reset (hs : s.Fresh) (ht : t.Fresh) (j : Nat) :
    (∃ b, Agree i b (s.step (.reset j)).2 (t.step (.reset j)).2) ∧
      (s.step (.reset j)).1 = (t.step (.reset j)).1 := by
  obtain ⟨hc, hd⟩ | ⟨c, d, hc, hd, hgeneration, _⟩ := h.allocator_cases j
  · simp only [Session.step, hc, hd]
    exact ⟨⟨a, h⟩, trivial⟩
  · have hrenew := h.renew hs ht hc hd
    simp only [Session.step, hc, hd]
    exact ⟨hrenew, by rw [h.next, hgeneration]⟩

theorem askEmpty (j : Nat) :
    (∃ b, Agree i b (s.step (.askEmpty j)).2 (t.step (.askEmpty j)).2) ∧
      (j = i → (s.step (.askEmpty j)).1 = (t.step (.askEmpty j)).1) := by
  obtain ⟨hc, hd⟩ | ⟨c, d, hc, hd, _, hown⟩ := h.allocator_cases j
  · simp only [Session.step, hc, hd]
    exact ⟨⟨a, h⟩, fun _ => trivial⟩
  · simp only [Session.step, hc, hd]
    exact ⟨⟨a, h⟩, fun hj => by rw [(hown hj).1, (hown hj).2]⟩

theorem assign (name id : String) :
    (∃ b, Agree i b (s.step (.assign name id)).2 (t.step (.assign name id)).2) ∧
      (s.step (.assign name id)).1 = (t.step (.assign name id)).1 := by
  obtain ⟨hx, hy⟩ | ⟨x, y, hx, hy, hxy⟩ := h.slot_cases name
  · simp only [Session.step, hx, hy]
    exact ⟨⟨a, h⟩, trivial⟩
  · simp only [Session.step, hx, hy]
    have hset : (x.set id).seenBy a = (y.set id).seenBy a :=
      congrArg (some id, ·) (Prod.mk.inj hxy).2
    exact ⟨⟨a, h.putSlot name hset⟩, trivial⟩

/-- Slots are compared by what an author gave, which the allocator sees. -/
theorem compare (name other : String) :
    (∃ b, Agree i b (s.step (.compare name other)).2 (t.step (.compare name other)).2) ∧
      (s.step (.compare name other)).1 = (t.step (.compare name other)).1 := by
  obtain ⟨hx, hy⟩ | ⟨x, y, hx, hy, hxy⟩ := h.slot_cases name
  · simp only [Session.step, hx, hy]
    exact ⟨⟨a, h⟩, trivial⟩
  obtain ⟨hu, hv⟩ | ⟨u, v, hu, hv, huv⟩ := h.slot_cases other
  · simp only [Session.step, hx, hy, hu, hv]
    exact ⟨⟨a, h⟩, trivial⟩
  simp only [Session.step, hx, hy, hu, hv]
  refine ⟨⟨a, h⟩, ?_⟩
  rw [Slot.same, Slot.same, (Prod.mk.inj hxy).1, (Prod.mk.inj huv).1]

/-- No operation makes a difference that the allocator could see, and where the operation names no
other allocator its answer does not differ either. -/
theorem step (hs : s.Fresh) (ht : t.Fresh) (op : Operation) :
    (∃ b, Agree i b (s.step op).2 (t.step op).2) ∧
      (op.Concerns i → (s.step op).1 = (t.step op).1) := by
  cases op with
  | make =>
    have hlength : s.allocators.length = t.allocators.length := by
      simpa [Session.generations] using congrArg List.length h.generations
    exact ⟨⟨a, h.make⟩, fun _ => congrArg Answer.number hlength⟩
  | allocate j kind raw =>
    obtain ⟨hagree, hanswer⟩ := h.act (f := fun c =>
      (.id (c.allocate kind raw).1, (c.allocate kind raw).2)) (fun _ => rfl) j
    exact ⟨hagree, fun hj => hanswer (hj j rfl)⟩
  | reserve j id =>
    obtain ⟨hagree, hanswer⟩ := h.act (f := fun c =>
      (.flag (c.reserve id).isEmpty, c.reserve id)) (fun c => c.generation_reserve id) j
    exact ⟨hagree, fun hj => hanswer (hj j rfl)⟩
  | reset j =>
    obtain ⟨hagree, hanswer⟩ := h.reset hs ht j
    exact ⟨hagree, fun _ => hanswer⟩
  | askEmpty j =>
    obtain ⟨hagree, hanswer⟩ := h.askEmpty j
    exact ⟨hagree, fun hj => hanswer (hj j rfl)⟩
  | declare name id => exact ⟨⟨a, h.putSlot name rfl⟩, fun _ => rfl⟩
  | copy name source j =>
    obtain ⟨hagree, hanswer⟩ := h.consult (fun x c => .optionalId (x.cached c))
      (fun x u => u.putSlot name x) (fun _ _ hxy => congrArg Answer.optionalId (Prod.mk.inj hxy).2)
      (fun _ _ => h.putSlot name) source j
    exact ⟨hagree, fun hj => hanswer (hj j rfl)⟩
  | assign name id =>
    obtain ⟨hagree, hanswer⟩ := h.assign name id
    exact ⟨hagree, fun _ => hanswer⟩
  | look name j =>
    have hlook : ∀ x y : Slot, x.seenBy a = y.seenBy a →
        Answer.slot x.isSet x.explicit (x.cached a) = .slot y.isSet y.explicit (y.cached a) := by
      intro x y hxy
      obtain ⟨hexplicit, hcached⟩ := Prod.mk.inj hxy
      rw [Slot.isSet, Slot.isSet, hexplicit, hcached]
    obtain ⟨hagree, hanswer⟩ := h.consult (fun x c => .slot x.isSet x.explicit (x.cached c))
      (fun _ u => u) hlook (fun _ _ _ => h) name j
    exact ⟨hagree, fun hj => hanswer (hj j rfl)⟩
  | resolve name j kind raw =>
    obtain ⟨hagree, hanswer⟩ := h.resolve hs name j kind raw
    exact ⟨hagree, fun hj => hanswer (hj j rfl)⟩
  | compare name other =>
    obtain ⟨hagree, hanswer⟩ := h.compare name other
    exact ⟨hagree, fun _ => hanswer⟩

end Agree

/-- The answers to operations that name no other allocator are the same in sessions that the
allocator cannot tell apart, whatever is done in between. -/
theorem answers_of_agree (h : Agree i a s t) (hs : s.Fresh) (ht : t.Fresh)
    (ops : List Operation) {k : Nat} {op : Operation} (hk : ops[k]? = some op)
    (hop : op.Concerns i) : (s.run ops).1[k]? = (t.run ops).1[k]? := by
  induction ops generalizing s t a k with
  | nil => simp at hk
  | cons first ops ih =>
    obtain ⟨⟨b, hb⟩, hanswer⟩ := h.step hs ht first
    cases k with
    | zero =>
      obtain rfl : first = op := by simpa using hk
      exact congrArg some (hanswer hop)
    | succ k => exact ih hb (hs.step first) (ht.step first) (by simpa using hk)

end Session

end Installer.Identifier
