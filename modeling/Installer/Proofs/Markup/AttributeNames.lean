import Installer.Proofs.Markup.Within

/-!
# Names and values of attributes

An attribute that is set takes the place of the one that has its name, or comes behind all others.
So the names of an element are those that were set, each once and where it was set first, and each of
them has the value that was set last.
-/
namespace Installer.Markup

/-- What holds of a row of names as soon as it holds of the rest without its first name holds of all
rows. -/
theorem names_induction {motive : List String → Prop} (nil : motive [])
    (cons : ∀ n ns, motive (ns.filter fun m => !m == n) → motive (n :: ns)) (ns : List String) :
    motive ns := by
  induction hlength : ns.length using Nat.strongRecOn generalizing ns with
  | ind k ih =>
    cases ns with
    | nil => exact nil
    | cons n ns =>
      have hshorter := List.length_filter_le (fun m => !m == n) ns
      rw [List.length_cons] at hlength
      exact cons n ns (ih _ (by omega) _ rfl)

theorem filter_eraseDups (p : String → Bool) (ns : List String) :
    ns.eraseDups.filter p = (ns.filter p).eraseDups := by
  induction ns using names_induction with
  | nil => rfl
  | cons n ns ih =>
    rw [List.eraseDups_cons, List.filter_cons, ih, List.filter_cons]
    split
    · rw [List.eraseDups_cons, List.filter_filter, List.filter_filter]
      simp only [Bool.and_comm]
    · next hn =>
      -- The name that is left out is left out with all its repetitions.
      have hothers : ((ns.filter fun m => !m == n).filter p) = ns.filter p := by
        rw [List.filter_filter]
        refine List.filter_congr fun m _ => ?_
        by_cases hm : m = n
        · simp [hm, hn]
        · simp [hm]
      rw [hothers]

theorem nodup_eraseDups (ns : List String) : ns.eraseDups.Nodup := by
  induction ns using names_induction with
  | nil => exact .nil
  | cons n ns ih =>
    rw [List.eraseDups_cons, List.nodup_cons, List.mem_eraseDups]
    exact ⟨by simp, ih⟩

theorem eraseDups_of_nodup {ns : List String} (h : ns.Nodup) : ns.eraseDups = ns := by
  induction ns with
  | nil => rfl
  | cons n ns ih =>
    obtain ⟨hn, hns⟩ := List.nodup_cons.1 h
    have hothers : (ns.filter fun m => !m == n) = ns :=
      List.filter_eq_self.2 fun m hm => by
        simpa using fun heq : m = n => hn (heq ▸ hm)
    rw [List.eraseDups_cons, hothers, ih hns]

theorem map_fst_setAttribute (name value : String) (as : List (String × String)) :
    (setAttribute name value as).map (·.1) =
      if name ∈ as.map (·.1) then as.map (·.1) else as.map (·.1) ++ [name] := by
  induction as with
  | nil => rfl
  | cons a as ih =>
    rw [setAttribute]
    by_cases ha : a.1 = name
    · simp [ha]
    · rw [if_neg ha, List.map_cons, ih]
      by_cases hname : name ∈ as.map (·.1)
      · rw [if_pos hname, List.map_cons, if_pos (List.mem_cons_of_mem _ hname)]
      · have hboth : name ∉ (a :: as).map (·.1) := by
          rw [List.map_cons, List.mem_cons, not_or]
          exact ⟨Ne.symm ha, hname⟩
        rw [if_neg hname, if_neg hboth, List.map_cons, List.cons_append]

namespace Element

def attributeNames (e : Element) : List String :=
  e.attributes.map (·.1)

variable {e : Element} {ns : List String}

theorem attributeNames_set (h : e.attributeNames = ns.eraseDups) (name value : String) :
    (e.set name value).attributeNames = (ns ++ [name]).eraseDups := by
  rw [attributeNames, set, map_fst_setAttribute]
  change (if name ∈ e.attributeNames then e.attributeNames else e.attributeNames ++ [name]) = _
  simp only [h, List.mem_eraseDups, List.eraseDups_append]
  by_cases hname : name ∈ ns <;> simp [hname, List.cons_removeAll, List.eraseDups_cons]

theorem attributeNames_setAll (h : e.attributeNames = ns.eraseDups)
    (as : List (String × String)) :
    (e.setAll as).attributeNames = (ns ++ as.map (·.1)).eraseDups := by
  induction as generalizing e ns with
  | nil => rw [List.map_nil, List.append_nil, setAll_nil, h]
  | cons a as ih =>
    rw [setAll_cons, ih (attributeNames_set h a.1 a.2), List.map_cons, List.append_assoc]
    rfl

theorem attributeNames_setFirst (h : e.attributeNames = ns.eraseDups) (name value : String) :
    (e.setFirst name value).attributeNames = (name :: ns).eraseDups := by
  have hothers : (e.attributes.filter (·.1 != name)).map (·.1) =
      e.attributeNames.filter (· != name) := by
    rw [attributeNames, List.filter_map]
    rfl
  rw [attributeNames, setFirst, List.map_cons, hothers, h, filter_eraseDups, List.eraseDups_cons]
  rfl

/-- Of the values that were set for a name the last one stands. -/
theorem get?_setAll_last (e : Element) (as : List (String × String)) (key : String) :
    (e.setAll as).get? key = ((as.findRev? (·.1 == key)).map (·.2)).or (e.get? key) := by
  induction as generalizing e with
  | nil => rfl
  | cons a as ih =>
    rw [setAll_cons, ih, get?_set, List.findRev?]
    cases as.findRev? (·.1 == key) with
    | some b => rfl
    | none => by_cases ha : a.1 = key <;> simp [ha]

end Element

end Installer.Markup
