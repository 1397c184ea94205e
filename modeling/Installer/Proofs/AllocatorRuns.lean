import Installer.Proofs.Identifier.Requests
import Installer.Proofs.Identifier.Suffixes

/-!
# Identifiers of one generation

Whatever an allocator was asked since it was made or reset, the search for a free form ends, and the
identifier that it gives is new. Where all requests are for entities of one kind there is nothing to
search for: numbers alone keep the identifiers apart, even letter case aside.
-/
namespace Installer.Identifier.Allocator

/-- Since an allocator was made or reset, every search for a free form of an identifier ends, and it
ends with one that no earlier request brought into use, by being given or by being reserved. The
counters stay below the number of requests, so none of them overflows before the requests do. -/
theorem allocate_unused (generation : Nat) (before : List Request) (kind : Kind) (raw : String) :
    let a := ((empty generation).serveAll before).2
    Settles a.taken
        (numbered (candidate kind raw) (a.repeats? kind (Text.fold (candidate kind raw))))
        (a.allocate kind raw).1 ∧
      (a.allocate kind raw).1 ∉ ((empty generation).serveAll before).1 ∧
      ∀ c ∈ (a.allocate kind raw).2.counters, c.repeats < before.length + 1 := by
  intro a
  refine ⟨settles_freshen _ _, ?_, ?_⟩
  · rw [← mem_taken_serveAll_empty]
    exact a.allocate_not_mem kind raw
  · have hcounters := repeats_lt_length generation (before ++ [.allocate kind raw])
    rwa [serveAll_concat, List.length_append, List.length_singleton] at hcounters

example : ((empty 0).serveAll
    [.allocate .feature "Docs", .reserve "Docs_", .allocate .shortcut "Docs"]).1 =
      ["Docs", "Docs_", "Docs__"] := by decide +kernel

/-- Requests for entities of one kind, from an empty allocator. -/
def ofKind (generation : Nat) (kind : Kind) (raws : List String) : List String × Allocator :=
  (empty generation).serveAll (raws.map (.allocate kind))

/-- How many names have the candidate of a name, letter case aside. -/
def asked (kind : Kind) (raws : List String) (raw : String) : Nat :=
  raws.countP fun r => Text.sameText (candidate kind r) (candidate kind raw)

theorem asked_congr {kind : Kind} {r raw : String}
    (h : Text.fold (candidate kind r) = Text.fold (candidate kind raw)) (raws : List String) :
    asked kind raws r = asked kind raws raw := by
  simp only [asked, Text.sameText, h]

theorem repeats?_ofKind (generation : Nat) (kind : Kind) (raws : List String) (raw : String) :
    (ofKind generation kind raws).2.repeats? kind (Text.fold (candidate kind raw)) =
      (asked kind raws raw).ppred := by
  have hsame : (fun q : Request => q.asksFor kind (Text.fold (candidate kind raw))) ∘
      Request.allocate kind = fun r => Text.sameText (candidate kind r) (candidate kind raw) := by
    funext r
    rw [Bool.eq_iff_iff]
    simp [Request.asksFor, Text.sameText]
  rw [ofKind, repeats?_serveAll, List.countP_map, hsame, asked]

/-- A name that comes behind another one does not get the other's identifier. -/
theorem fold_suffixed_ne (kind : Kind) (front rest : List String) (r raw : String) :
    Text.fold (suffixed (candidate kind r) (asked kind front r)) ≠
      Text.fold (suffixed (candidate kind raw) (asked kind (front ++ r :: rest) raw)) := by
  intro h
  obtain ⟨hclass, hnumber⟩ :=
    fold_suffixed_inj (getLast?_candidate kind r) (getLast?_candidate kind raw) h
  -- The later request counts the earlier one of its class, and all that this one counts.
  have hcount : asked kind (front ++ r :: rest) raw =
      asked kind front raw + (asked kind rest raw + 1) := by
    simp [asked, Text.sameText, hclass]
  rw [asked_congr hclass, hcount] at hnumber
  omega

/-- The identifiers for names of one kind: each is its candidate with the number of earlier names
that have the candidate, and they are distinct even letter case aside. -/
structure Numbers (kind : Kind) (raws ids : List String) : Prop where
  forms : ∀ id ∈ ids, ∃ front r rest, raws = front ++ r :: rest ∧
    id = suffixed (candidate kind r) (asked kind front r)
  nodup : (ids.map Text.fold).Nodup

namespace Numbers

variable {kind : Kind} {raws ids : List String}

/-- The next name has an identifier of its own, letter case aside. -/
theorem fold_not_mem (h : Numbers kind raws ids) (raw : String) :
    Text.fold (suffixed (candidate kind raw) (asked kind raws raw)) ∉ ids.map Text.fold := by
  intro hmem
  obtain ⟨id, hid, hfold⟩ := List.mem_map.1 hmem
  obtain ⟨front, r, rest, rfl, rfl⟩ := h.forms id hid
  exact fold_suffixed_ne kind front rest r raw hfold

theorem concat (h : Numbers kind raws ids) (raw : String) :
    Numbers kind (raws ++ [raw])
      (ids ++ [suffixed (candidate kind raw) (asked kind raws raw)]) where
  forms := by
    intro id hid
    rcases List.mem_append.1 hid with hid | hid
    · obtain ⟨front, r, rest, rfl, rfl⟩ := h.forms id hid
      exact ⟨front, r, rest ++ [raw], by simp, rfl⟩
    · exact ⟨raws, raw, [], rfl, List.mem_singleton.1 hid⟩
  nodup := by
    rw [List.map_append, List.nodup_append']
    refine ⟨h.nodup, List.nodup_singleton _, ?_⟩
    rw [List.map_singleton, List.disjoint_singleton]
    exact h.fold_not_mem raw

end Numbers

/-- The next name gets its candidate with the number of earlier names that have it, as it is: the
form is not in use. -/
theorem allocate_of_numbers {generation : Nat} {kind : Kind} {raws : List String}
    (h : Numbers kind raws (ofKind generation kind raws).1) (raw : String) :
    let a := (ofKind generation kind raws).2
    let wanted := suffixed (candidate kind raw) (asked kind raws raw)
    numbered (candidate kind raw) (a.repeats? kind (Text.fold (candidate kind raw))) = wanted ∧
      wanted ∉ a.taken ∧ (a.allocate kind raw).1 = wanted := by
  intro a wanted
  have hnumbered : numbered (candidate kind raw)
      (a.repeats? kind (Text.fold (candidate kind raw))) = wanted := by
    rw [repeats?_ofKind, numbered_ppred]
  have hfree : wanted ∉ a.taken := by
    intro hmem
    have hid := (mem_taken_serveAll_empty generation _ wanted).1 hmem
    exact h.fold_not_mem raw (List.mem_map_of_mem hid)
  refine ⟨hnumbered, hfree, ?_⟩
  change freshen a.taken a.taken.length _ = wanted
  rw [hnumbered]
  cases a.taken.length with
  | zero => rfl
  | succ steps => rw [freshen, if_neg hfree]

theorem ofKind_concat (generation : Nat) (kind : Kind) (raws : List String) (raw : String) :
    (ofKind generation kind (raws ++ [raw])).1 = (ofKind generation kind raws).1 ++
      [((ofKind generation kind raws).2.allocate kind raw).1] := by
  rw [ofKind, List.map_append, List.map_singleton, serveAll_concat]
  rfl

theorem numbers_ofKind (generation : Nat) (kind : Kind) (raws : List String) :
    Numbers kind raws (ofKind generation kind raws).1 := by
  induction raws using List.reverseRecOn with
  | nil => exact ⟨by simp [ofKind, serveAll], by simp [ofKind, serveAll]⟩
  | append_singleton raws raw ih =>
    obtain ⟨_, _, hwanted⟩ := allocate_of_numbers ih raw
    rw [ofKind_concat, hwanted]
    exact ih.concat raw

/-- In a row of requests of one kind, every name gets its candidate with the number of earlier names
that have it, letter case aside. That form is never in use, so underscores are never put behind it,
and all identifiers are distinct even letter case aside. -/
theorem ids_of_one_kind (generation : Nat) (kind : Kind) (before : List String) (raw : String)
    (behind : List String) :
    let ids := (ofKind generation kind (before ++ raw :: behind)).1
    let a := (ofKind generation kind before).2
    let wanted := suffixed (candidate kind raw) (asked kind before raw)
    ids[before.length]? = some wanted ∧
      numbered (candidate kind raw) (a.repeats? kind (Text.fold (candidate kind raw))) = wanted ∧
      wanted ∉ a.taken ∧ (ids.map Text.fold).Nodup := by
  intro ids a wanted
  obtain ⟨hnumbered, hfree, hallocate⟩ :=
    allocate_of_numbers (numbers_ofKind generation kind before) raw
  refine ⟨?_, hnumbered, hfree, (numbers_ofKind generation kind _).nodup⟩
  have hids : ids = (ofKind generation kind before).1 ++ (a.allocate kind raw).1 ::
      ((a.allocate kind raw).2.serveAll (behind.map (.allocate kind))).1 := by
    simp only [ids, ofKind, List.map_append, serveAll_append]
    rfl
  have hlength : (ofKind generation kind before).1.length = before.length := by
    rw [ofKind, length_serveAll, List.length_map]
  rw [hids, ← hlength, List.getElem?_append_right (Nat.le_refl _), Nat.sub_self,
    List.getElem?_cons_zero, hallocate]

example : (ofKind 0 .file ["a", "x\\A", "a.1", "a"]).1 = ["a", "A.1", "a.1_", "a.2"] := by
  decide +kernel

end Installer.Identifier.Allocator
