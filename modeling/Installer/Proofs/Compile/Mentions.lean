import Installer.Compile.Features
import Mathlib.Data.List.Induction
import Mathlib.Tactic.Common

/-!
# Mentions of features

Each component mentions features, and the uses of a document collect these mentions by name. Features
that take their uses one after the other, each from what those before it left, share the mentions
out: every mention goes to the first feature of its name.
-/
namespace Installer

namespace Text

theorem sameText_congr_left {a b : String} (h : sameText a b = true) (c : String) :
    sameText a c = sameText b c := by
  rw [sameText, sameText, sameText_iff.1 h]

theorem sameText_comm (a b : String) : sameText a b = sameText b a := by
  rw [Bool.eq_iff_iff, sameText_iff, sameText_iff, eq_comm]

end Text

namespace Compile

/-- A component with one of the features that it is for. -/
structure Mention where
  feature : String
  component : String
deriving DecidableEq

/-- The mentions of components, in the order in which they were made. A component without a feature
mentions the default one. -/
def mentions (defaultFeature : String) (refs : List ComponentRef) : List Mention :=
  refs.flatMap fun r =>
    (if r.features.isEmpty then [defaultFeature] else r.features).map fun f => ⟨f, r.id⟩

def collect (ms : List Mention) : List FeatureUse :=
  ms.foldl (fun us m => addUse m.feature m.component us) []

/-- The components that mention a feature. -/
def claimed (feature : String) (ms : List Mention) : List String :=
  (ms.filter fun m => Text.sameText m.feature feature).map (·.component)

/-- The mentions of other features. -/
def others (feature : String) (ms : List Mention) : List Mention :=
  ms.filter fun m => !Text.sameText m.feature feature

theorem featureUses_eq_collect (defaultFeature : String) (refs : List ComponentRef) :
    featureUses defaultFeature refs = collect (mentions defaultFeature refs) := by
  rw [featureUses, collect, mentions, List.foldl_flatMap]
  simp only [List.foldl_map]

theorem collect_concat (ms : List Mention) (m : Mention) :
    collect (ms ++ [m]) = addUse m.feature m.component (collect ms) := by
  rw [collect, List.foldl_append]
  rfl

theorem usesOf_cons (feature : String) (u : FeatureUse) (us : List FeatureUse) :
    usesOf feature (u :: us) =
      if Text.sameText u.feature feature then u.components else usesOf feature us := by
  rw [usesOf, List.find?_cons]
  cases Text.sameText u.feature feature <;> rfl

theorem usesOf_addUse (feature added component : String) (us : List FeatureUse) :
    usesOf feature (addUse added component us) =
      usesOf feature us ++ if Text.sameText added feature then [component] else [] := by
  induction us with
  | nil =>
    rw [addUse, usesOf_cons]
    rfl
  | cons u us ih =>
    rw [addUse, usesOf_cons]
    by_cases hadded : Text.sameText u.feature added = true
    · have hsame := Text.sameText_congr_left hadded feature
      rw [if_pos hadded, usesOf_cons, ← hsame]
      by_cases hu : Text.sameText u.feature feature = true <;> simp [hu]
    · rw [if_neg hadded, usesOf_cons, ih]
      by_cases hu : Text.sameText u.feature feature = true
      · have hne : ¬ Text.sameText added feature = true := by
          rw [Text.sameText_comm, ← Text.sameText_congr_left hu]
          exact hadded
        simp [hu, hne]
      · simp [hu]

theorem dropUse_addUse (feature added component : String) (us : List FeatureUse) :
    dropUse feature (addUse added component us) =
      if Text.sameText added feature then dropUse feature us
      else addUse added component (dropUse feature us) := by
  induction us with
  | nil => simp [addUse, dropUse]
  | cons u us ih =>
    rw [addUse, dropUse]
    by_cases hadded : Text.sameText u.feature added = true
    · have hsame := Text.sameText_congr_left hadded feature
      rw [if_pos hadded, dropUse, ← hsame]
      by_cases hu : Text.sameText u.feature feature = true
      · simp [hu]
      · simp [hu, addUse, hadded]
    · rw [if_neg hadded, dropUse, ih]
      by_cases hu : Text.sameText u.feature feature = true
      · have hne : ¬ Text.sameText added feature = true := by
          rw [Text.sameText_comm, ← Text.sameText_congr_left hu]
          exact hadded
        simp [hu, hne]
      · by_cases hfeature : Text.sameText added feature = true
        · simp [hu, hfeature]
        · simp [hu, hfeature, addUse, hadded]

/-- The uses of a feature are the components that mention it. -/
theorem usesOf_collect (feature : String) (ms : List Mention) :
    usesOf feature (collect ms) = claimed feature ms := by
  induction ms using List.reverseRecOn with
  | nil => rfl
  | append_singleton ms m ih =>
    rw [collect_concat, usesOf_addUse, ih, claimed, claimed, List.filter_append, List.map_append]
    by_cases hm : Text.sameText m.feature feature = true <;> simp [hm]

/-- What is left without a feature's uses are the mentions of other features. -/
theorem dropUse_collect (feature : String) (ms : List Mention) :
    dropUse feature (collect ms) = collect (others feature ms) := by
  induction ms using List.reverseRecOn with
  | nil => rfl
  | append_singleton ms m ih =>
    rw [collect_concat, dropUse_addUse, ih, others, others, List.filter_append]
    by_cases hm : Text.sameText m.feature feature = true
    · simp [hm]
    · simp [hm, collect_concat]

theorem feature_addUse (added component : String) (us : List FeatureUse) :
    (addUse added component us).map (·.feature) =
      us.map (·.feature) ++ if us.any (Text.sameText ·.feature added) then [] else [added] := by
  induction us with
  | nil => rfl
  | cons u us ih =>
    rw [addUse, List.any_cons]
    by_cases hu : Text.sameText u.feature added = true
    · simp [hu]
    · simp [hu, ih]

theorem any_feature_congr {a b : String} (h : Text.sameText a b = true) (us : List FeatureUse) :
    us.any (Text.sameText ·.feature a) = us.any (Text.sameText ·.feature b) := by
  have hsame : (fun u : FeatureUse => Text.sameText u.feature a) =
      fun u => Text.sameText u.feature b := by
    funext u
    rw [Text.sameText_comm, Text.sameText_congr_left h, Text.sameText_comm]
  rw [hsame]

theorem any_addUse (name added component : String) (us : List FeatureUse) :
    (addUse added component us).any (Text.sameText ·.feature name) =
      (us.any (Text.sameText ·.feature name) || Text.sameText added name) := by
  have hmap : ∀ vs : List FeatureUse, vs.any (Text.sameText ·.feature name) =
      (vs.map (·.feature)).any (Text.sameText · name) := fun vs => by
    rw [List.any_map]
    rfl
  rw [hmap, feature_addUse, List.any_append, ← hmap]
  by_cases hadded : Text.sameText added name = true
  · rw [any_feature_congr hadded, hadded]
    cases us.any (Text.sameText ·.feature name) <;> simp [hadded]
  · cases us.any (Text.sameText ·.feature added) <;> simp [hadded]

/-- A feature is used if it is mentioned. -/
theorem any_collect (name : String) (ms : List Mention) :
    (collect ms).any (Text.sameText ·.feature name) =
      ms.any (Text.sameText ·.feature name) := by
  induction ms using List.reverseRecOn with
  | nil => rfl
  | append_singleton ms m ih =>
    rw [collect_concat, any_addUse, ih, List.any_append, List.any_cons, List.any_nil,
      Bool.or_false]

/-- There is one use for each name that is mentioned, in the order of first mention. -/
theorem feature_collect (ms : List Mention) :
    (collect ms).map (·.feature) = (ms.map (·.feature)).eraseDupsBy Text.sameText := by
  have hfold : ∀ us : List FeatureUse,
      (ms.foldl (fun us m => addUse m.feature m.component us) us).map (·.feature) =
        us.map (·.feature) ++ ((ms.map (·.feature)).filter fun n =>
          !us.any (Text.sameText ·.feature n)).eraseDupsBy Text.sameText := by
    induction ms with
    | nil => intro us; simp
    | cons m ms ih =>
      intro us
      simp only [List.foldl_cons, ih, feature_addUse, any_addUse, List.map_cons, List.filter_cons]
      by_cases hm : us.any (Text.sameText ·.feature m.feature) = true
      · -- The name is used already: it is passed over, and so is every name like it.
        have hrest : (ms.map (·.feature)).filter (fun n =>
              !(us.any (Text.sameText ·.feature n) || Text.sameText m.feature n)) =
            (ms.map (·.feature)).filter fun n => !us.any (Text.sameText ·.feature n) := by
          refine List.filter_congr fun n _ => ?_
          by_cases hn : Text.sameText m.feature n = true
          · rw [← any_feature_congr hn, hm]
            rfl
          · simp [hn]
        simp only [hm, hrest, Bool.not_true, Bool.false_eq_true, if_true, if_false,
          List.append_nil]
      · have hrest : (ms.map (·.feature)).filter (fun n =>
              !(us.any (Text.sameText ·.feature n) || Text.sameText m.feature n)) =
            ((ms.map (·.feature)).filter fun n =>
              !us.any (Text.sameText ·.feature n)).filter fun n =>
                decide (Text.sameText n m.feature = false) := by
          rw [List.filter_filter]
          refine List.filter_congr fun n _ => ?_
          rw [Text.sameText_comm n m.feature]
          cases us.any (Text.sameText ·.feature n) <;> cases Text.sameText m.feature n <;> rfl
        rw [Bool.not_eq_true] at hm
        simp only [hm, hrest, Bool.not_false, Bool.false_eq_true, if_true, if_false,
          List.eraseDupsBy_cons, List.append_assoc, List.singleton_append]
  have hstart := hfold []
  rwa [List.filter_eq_self.2 fun n _ => by rfl] at hstart

/-- Every mention makes a use. -/
theorem collect_eq_nil_iff {ms : List Mention} : collect ms = [] ↔ ms = [] := by
  constructor
  · intro h
    by_contra hne
    obtain ⟨m, hm⟩ := List.exists_mem_of_ne_nil ms hne
    have hused := any_collect m.feature ms
    rw [h, List.any_nil, eq_comm, List.any_eq_false] at hused
    exact hused m hm (by simp [Text.sameText])
  · rintro rfl
    rfl

/-- The components that features of these names take one after the other. -/
def shares (ms : List Mention) : List String → List (List String)
  | [] => []
  | n :: ns => claimed n ms :: shares (others n ms) ns

/-- The mentions that features of these names leave. -/
def unclaimed (ns : List String) (ms : List Mention) : List Mention :=
  ms.filter fun m => !ns.any (Text.sameText · m.feature)

theorem unclaimed_nil (ms : List Mention) : unclaimed [] ms = ms :=
  List.filter_eq_self.2 fun m _ => by rfl

theorem unclaimed_cons (n : String) (ns : List String) (ms : List Mention) :
    unclaimed (n :: ns) ms = unclaimed ns (others n ms) := by
  rw [unclaimed, unclaimed, others, List.filter_filter]
  refine List.filter_congr fun m _ => ?_
  rw [List.any_cons, Text.sameText_comm n, Bool.not_or, Bool.and_comm]

theorem unclaimed_append (ns os : List String) (ms : List Mention) :
    unclaimed (ns ++ os) ms = unclaimed os (unclaimed ns ms) := by
  induction ns generalizing ms with
  | nil => rw [unclaimed_nil, List.nil_append]
  | cons n ns ih => rw [List.cons_append, unclaimed_cons, ih, unclaimed_cons]

theorem shares_append (ms : List Mention) (ns os : List String) :
    shares ms (ns ++ os) = shares ms ns ++ shares (unclaimed ns ms) os := by
  induction ns generalizing ms with
  | nil => rw [unclaimed_nil, shares, List.nil_append, List.nil_append]
  | cons n ns ih => rw [List.cons_append, shares, ih, shares, unclaimed_cons, List.cons_append]

/-- A mention goes to the first feature of its name. -/
theorem getElem?_shares {ms : List Mention} {ns : List String} {k : Nat}
    {components : List String} (h : (shares ms ns)[k]? = some components) :
    components = (ms.filter fun m =>
      decide (ns.findIdx? (Text.sameText · m.feature) = some k)).map (·.component) := by
  induction ns generalizing ms k with
  | nil => simp [shares] at h
  | cons n ns ih =>
    cases k with
    | zero =>
      obtain rfl : claimed n ms = components := by simpa [shares] using h
      rw [claimed]
      congr 1
      refine List.filter_congr fun m _ => ?_
      rw [List.findIdx?_cons, Text.sameText_comm m.feature]
      cases Text.sameText n m.feature <;> simp
    | succ k =>
      have hrest := ih (show (shares (others n ms) ns)[k]? = some components by
        simpa [shares] using h)
      rw [hrest, others, List.filter_filter]
      congr 1
      refine List.filter_congr fun m _ => ?_
      rw [List.findIdx?_cons, Text.sameText_comm m.feature]
      cases Text.sameText n m.feature <;> simp

end Compile

end Installer
