import Installer.Proofs.Dialog.Calls

/-!
# Registered dialogs

A sequence collects the definitions that come with the calls on it, whether a definition is
registered, is the dialog that actions are published for, or comes with an action that leads to it.
Of the definitions of one dialog it keeps the first, and it never gives one up.
-/
namespace Installer.Dialog.Sequence

/-- The definitions that come with a call: that of the dialog itself, and behind it those that come
with the actions, in their order. -/
def Call.introduced : Call → List Definition
  | .on dialog _ ps => dialog.definition?.toList ++ ps.filterMap (·.definition)
  | .register d => [d]
  | .clear _ _ => []

/-- The definitions that come with a row of calls. -/
def introduced (calls : List Call) : List Definition :=
  calls.flatMap Call.introduced

/-- Of definitions in the order of their mention, the first of every dialog, in that order. -/
structure FirstOfEach (mentioned ds : List Definition) : Prop where
  nodup : (ds.map (·.id)).Nodup
  first : ∀ d, d ∈ ds ↔ mentioned.find? (·.id == d.id) = some d
  ordered : ds.Pairwise fun d e =>
    mentioned.findIdx (·.id == d.id) < mentioned.findIdx (·.id == e.id)

namespace FirstOfEach

variable {mentioned ds : List Definition}

/-- A dialog was mentioned exactly if one of the definitions kept is its own. -/
theorem mem_ids_iff (h : FirstOfEach mentioned ds) {id : String} :
    id ∈ ds.map (·.id) ↔ ∃ d ∈ mentioned, d.id = id := by
  constructor
  · intro hid
    obtain ⟨d, hd, rfl⟩ := List.mem_map.1 hid
    exact ⟨d, List.mem_of_find?_eq_some ((h.first d).1 hd), rfl⟩
  · rintro ⟨d, hd, rfl⟩
    have hsome : (mentioned.find? (·.id == d.id)).isSome = true :=
      List.find?_isSome.2 ⟨d, hd, beq_self_eq_true d.id⟩
    obtain ⟨e, he⟩ := Option.isSome_iff_exists.1 hsome
    have hid : e.id = d.id := by simpa using List.find?_some he
    refine List.mem_map.2 ⟨e, (h.first e).2 ?_, hid⟩
    rwa [hid]

/-- What was mentioned before keeps the place of its first mention. -/
theorem findIdx_concat (h : FirstOfEach mentioned ds) {e : Definition} (he : e ∈ ds)
    (d : Definition) : (mentioned ++ [d]).findIdx (·.id == e.id) =
      mentioned.findIdx (·.id == e.id) ∧
        mentioned.findIdx (·.id == e.id) < mentioned.length := by
  have hlt : mentioned.findIdx (·.id == e.id) < mentioned.length :=
    List.findIdx_lt_length_of_exists
      ⟨e, List.mem_of_find?_eq_some ((h.first e).1 he), beq_self_eq_true e.id⟩
  rw [List.findIdx_append, if_pos hlt]
  exact ⟨rfl, hlt⟩

theorem ordered_concat (h : FirstOfEach mentioned ds) (d : Definition) :
    ds.Pairwise fun e f => (mentioned ++ [d]).findIdx (·.id == e.id) <
      (mentioned ++ [d]).findIdx (·.id == f.id) :=
  h.ordered.imp_of_mem fun he hf hlt => by
    rwa [(h.findIdx_concat he d).1, (h.findIdx_concat hf d).1]

/-- Registering a definition keeps the first of every dialog. -/
theorem register {s : Sequence} (h : FirstOfEach mentioned s.definitions) (d : Definition) :
    FirstOfEach (mentioned ++ [d]) (s.register d).definitions := by
  have hany : s.definitions.any (·.id == d.id) = true ↔ d.id ∈ s.definitions.map (·.id) := by
    simp
  rw [Sequence.register]
  by_cases hknown : d.id ∈ s.definitions.map (·.id)
  · -- The dialog was mentioned before, so its first mention is not the new one.
    rw [if_pos (hany.2 hknown)]
    refine ⟨h.nodup, fun e => ?_, h.ordered_concat d⟩
    rw [h.first, List.find?_append]
    by_cases hid : d.id = e.id
    · obtain ⟨f, hf, hfid⟩ := h.mem_ids_iff.1 hknown
      have hsome : (mentioned.find? (·.id == e.id)).isSome = true :=
        List.find?_isSome.2 ⟨f, hf, by simp [hfid, hid]⟩
      obtain ⟨g, hg⟩ := Option.isSome_iff_exists.1 hsome
      rw [hg, Option.some_or]
    · rw [List.find?_cons_of_neg (by simpa using hid), List.find?_nil, Option.or_none]
  · rw [if_neg (mt hany.1 hknown)]
    have hnew : ∀ f ∈ mentioned, f.id ≠ d.id := fun f hf hid =>
      hknown (h.mem_ids_iff.2 ⟨f, hf, hid⟩)
    have hnone : mentioned.find? (·.id == d.id) = none :=
      List.find?_eq_none.2 fun f hf => by simpa using hnew f hf
    refine ⟨?_, fun e => ?_, ?_⟩
    · rw [List.map_append, List.map_singleton]
      exact List.nodup_append.2 ⟨h.nodup, by simp, by
        rintro id hid _ hd rfl
        exact hknown (List.mem_singleton.1 hd ▸ hid)⟩
    · rw [List.mem_append, h.first, List.mem_singleton, List.find?_append]
      by_cases hid : d.id = e.id
      · rw [← hid, hnone, List.find?_cons_of_pos (by simp), Option.none_or, Option.some_inj]
        simp [eq_comm]
      · rw [List.find?_cons_of_neg (by simpa using hid), List.find?_nil, Option.or_none]
        exact or_iff_left fun heq => hid (heq ▸ rfl)
    · refine List.pairwise_append.2 ⟨h.ordered_concat d, List.pairwise_singleton _ _, ?_⟩
      intro e he f hf
      obtain rfl := List.mem_singleton.1 hf
      obtain ⟨hplace, hlt⟩ := h.findIdx_concat he f
      have hlast : mentioned.findIdx (·.id == f.id) = mentioned.length :=
        List.findIdx_eq_length_of_false (by simpa using hnew)
      rw [hplace, List.findIdx_append, hlast, if_neg (lt_irrefl _)]
      omega

theorem registerAny {s : Sequence} (h : FirstOfEach mentioned s.definitions)
    (d : Option Definition) :
    FirstOfEach (mentioned ++ d.toList) (s.registerAny d).definitions := by
  cases d with
  | none =>
    rw [Option.toList_none, List.append_nil]
    exact h
  | some d => exact h.register d

/-- Publishing registers the dialog's own definition first, then those of the actions in turn. -/
theorem on {s : Sequence} (h : FirstOfEach mentioned s.definitions) (dialog : Target)
    (control : String) (ps : List Publication) :
    FirstOfEach (mentioned ++ (Call.on dialog control ps).introduced)
      (s.on dialog control ps).definitions := by
  have hfold : ∀ (before : List Definition) (t : Sequence), FirstOfEach before t.definitions →
      FirstOfEach (before ++ ps.filterMap (·.definition))
        (ps.foldl (fun t p => t.registerAny p.definition) t).definitions := by
    induction ps with
    | nil => simp
    | cons p ps ih =>
      intro before t ht
      have hstep := ih _ _ (ht.registerAny p.definition)
      rw [List.foldl_cons, List.filterMap_cons]
      cases hp : p.definition with
      | none => simpa [hp] using hstep
      | some d => simpa [hp] using hstep
  have hall := hfold _ _ (h.registerAny dialog.definition?)
  rw [List.append_assoc] at hall
  exact hall

theorem perform {s : Sequence} (h : FirstOfEach mentioned s.definitions) (c : Call) :
    FirstOfEach (mentioned ++ c.introduced) (s.perform c).definitions := by
  cases c with
  | on dialog control ps => exact h.on dialog control ps
  | register d => exact h.register d
  | clear dialog control =>
    rw [Call.introduced, List.append_nil]
    exact h

end FirstOfEach

/-- A sequence that starts empty keeps the first definition of every dialog that came with a call. -/
theorem firstOfEach_performAll (strict : Bool) (calls : List Call) :
    FirstOfEach (introduced calls) (({ strict } : Sequence).performAll calls).definitions := by
  induction calls using List.reverseRecOn with
  | nil => exact ⟨by simp [performAll], by simp [performAll, introduced], .nil⟩
  | append_singleton calls c ih =>
    rw [performAll_concat, introduced, List.flatMap_append, List.flatMap_singleton]
    exact ih.perform c

theorem definitions_prefix_registerAny (s : Sequence) (d : Option Definition) :
    s.definitions <+: (s.registerAny d).definitions := by
  cases d with
  | none => exact List.prefix_rfl
  | some d =>
    rw [registerAny, register]
    split
    · exact List.prefix_rfl
    · exact List.prefix_append _ _

/-- No call gives up a definition or moves it. -/
theorem definitions_prefix_perform (s : Sequence) (c : Call) :
    s.definitions <+: (s.perform c).definitions := by
  cases c with
  | on dialog control ps =>
    have hfold : ∀ t : Sequence, s.definitions <+: t.definitions →
        s.definitions <+: (ps.foldl (fun t p => t.registerAny p.definition) t).definitions := by
      induction ps with
      | nil => exact fun t ht => ht
      | cons p ps ih => exact fun t ht => ih _ (ht.trans (definitions_prefix_registerAny t _))
    exact hfold _ (definitions_prefix_registerAny s _)
  | register d => exact definitions_prefix_registerAny s (some d)
  | clear dialog control => exact List.prefix_rfl

theorem definitions_prefix_performAll (s : Sequence) (calls : List Call) :
    s.definitions <+: (s.performAll calls).definitions := by
  induction calls generalizing s with
  | nil => exact List.prefix_rfl
  | cons c calls ih => exact (definitions_prefix_perform s c).trans (ih _)

/-- After every row of calls a sequence has the first definition of every dialog that came with one
of them, in the order of these first mentions, and resolving keeps them. Further calls leave them as
they are and in front, and clearing adds nothing. -/
theorem definitions_of_calls (strict : Bool) (calls : List Call) :
    FirstOfEach (introduced calls) (({ strict } : Sequence).performAll calls).definitions ∧
    (({ strict } : Sequence).performAll calls).resolve.definitions =
      (({ strict } : Sequence).performAll calls).definitions ∧
    (∀ more, (({ strict } : Sequence).performAll calls).definitions <+:
      (({ strict } : Sequence).performAll (calls ++ more)).definitions) ∧
    ∀ dialog control,
      (({ strict } : Sequence).performAll (calls ++ [.clear dialog control])).definitions =
        (({ strict } : Sequence).performAll calls).definitions := by
  refine ⟨firstOfEach_performAll strict calls, rfl, fun more => ?_, fun dialog control => ?_⟩
  · rw [performAll, performAll, List.foldl_append]
    exact definitions_prefix_performAll _ more
  · rw [performAll_concat]
    rfl

end Installer.Dialog.Sequence
