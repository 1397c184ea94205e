import Installer.Formatted
import Installer.Identifier.Name
import Mathlib.Data.List.Induction
import Mathlib.Data.List.TakeWhile

/-!
# Formatted texts, character by character

Formatting reads a text from the left: every placeholder becomes a reference, and every other
character stays. Then separators behind references are left out, but the search for them does not
look at references, only at closing brackets, and it is made twice, first for `\` and then for `/`.
So a separator behind a bracket that closes no reference is lost as well, and of the separators `\/`
behind a reference both.
-/
namespace Installer.Formatted
open Text Identifier

/-- The text begins with a placeholder of the given name, and goes on behind it. -/
structure Placeholder (cs name rest : List Char) : Prop where
  text : cs = '%' :: name ++ '%' :: rest
  nonempty : name ≠ []
  chars : ∀ c ∈ name, isNameChar c = true

/-- A text read from the left, with a reference for every placeholder. -/
inductive Reading : List Char → List Char → Prop
  | done : Reading [] []
  | placeholder {cs name rest out : List Char} (h : Placeholder cs name rest)
      (hrest : Reading rest out) : Reading cs (reference name ++ out)
  | other {c : Char} {rest out : List Char} (h : ∀ name after, ¬Placeholder (c :: rest) name after)
      (hrest : Reading rest out) : Reading (c :: rest) (c :: out)

theorem isPrefixOf_pair {a b c d : Char} {cs : List Char} :
    [a, b].isPrefixOf (c :: d :: cs) = true ↔ c = a ∧ d = b := by
  simp only [List.isPrefixOf, Bool.and_eq_true, beq_iff_eq, and_true]
  rw [eq_comm (a := a), eq_comm (a := b)]

/-- The longest row of characters of a kind that the character behind it ends. -/
theorem takeWhile_iff {p : Char → Bool} {e : Char} (he : p e = false) (cs name : List Char) :
    cs.takeWhile p = name ∧ cs[name.length]? = some e ↔
      (∀ c ∈ name, p c = true) ∧ ∃ rest, cs = name ++ e :: rest := by
  constructor
  · rintro ⟨rfl, hend⟩
    refine ⟨fun c hc => List.mem_takeWhile_imp hc, ?_⟩
    obtain ⟨tail, hcs⟩ := List.takeWhile_prefix (l := cs) p
    generalize cs.takeWhile p = name at hend hcs ⊢
    obtain rfl := hcs
    rw [List.getElem?_append_right (Nat.le_refl _), Nat.sub_self] at hend
    cases tail with
    | nil => simp at hend
    | cons c rest => exact ⟨rest, by rw [← Option.some.inj hend]⟩
  · rintro ⟨hname, rest, rfl⟩
    rw [List.takeWhile_append_of_pos hname, List.takeWhile_cons_of_neg (by simp [he])]
    simp

theorem placeholderName?_eq_some_iff {cs name : List Char} :
    placeholderName? cs = some name ↔ ∃ rest, Placeholder ('%' :: cs) name rest := by
  have hrow := takeWhile_iff (p := isNameChar) (e := '%') (by decide) cs name
  simp only [placeholderName?, Option.ite_none_right_eq_some, Option.some.injEq,
    Bool.and_eq_true, Bool.not_eq_true', List.isEmpty_eq_false_iff, beq_iff_eq]
  constructor
  · rintro ⟨⟨hne, hend⟩, rfl⟩
    obtain ⟨hchars, rest, hcs⟩ := hrow.1 ⟨rfl, hend⟩
    exact ⟨rest, congrArg _ hcs, hne, hchars⟩
  · rintro ⟨rest, h⟩
    obtain ⟨rfl, hend⟩ := hrow.2 ⟨h.chars, rest, (List.cons.inj h.text).2⟩
    exact ⟨⟨h.nonempty, hend⟩, rfl⟩

theorem referencesFrom_drop (n : Nat) (cs : List Char) :
    referencesFrom n cs = referencesFrom 0 (cs.drop n) := by
  induction cs generalizing n with
  | nil => cases n <;> rfl
  | cons c cs ih =>
    cases n with
    | zero => rfl
    | succ n => exact ih n

theorem referencesFrom_of_placeholder {cs name rest : List Char} (h : Placeholder cs name rest) :
    referencesFrom 0 cs = reference name ++ referencesFrom 0 rest := by
  have hname : placeholderName? (name ++ '%' :: rest) = some name :=
    placeholderName?_eq_some_iff.2 ⟨rest, rfl, h.nonempty, h.chars⟩
  obtain rfl := h.text
  rw [List.cons_append, referencesFrom, if_pos (by decide), hname]
  dsimp only
  rw [referencesFrom_drop, ← List.drop_drop, List.drop_left]
  rfl

theorem referencesFrom_of_other {c : Char} {cs : List Char}
    (h : ∀ name rest, ¬Placeholder (c :: cs) name rest) :
    referencesFrom 0 (c :: cs) = c :: referencesFrom 0 cs := by
  rw [referencesFrom]
  split
  · next hc =>
    obtain rfl := eq_of_beq hc
    cases hname : placeholderName? cs with
    | none => rfl
    | some name =>
      obtain ⟨rest, hplaceholder⟩ := placeholderName?_eq_some_iff.1 hname
      exact absurd hplaceholder (h name rest)
  · rfl

/-- There is one way to read a text, and formatting begins with it. -/
theorem reading_iff {cs out : List Char} : Reading cs out ↔ out = referencesFrom 0 cs := by
  constructor
  · intro h
    induction h with
    | done => rfl
    | placeholder h _ ih => rw [referencesFrom_of_placeholder h, ih]
    | other h _ ih => rw [referencesFrom_of_other h, ih]
  · rintro rfl
    induction hn : cs.length using Nat.strongRecOn generalizing cs with
    | ind n ih =>
      by_cases h : ∃ name rest, Placeholder cs name rest
      · obtain ⟨name, rest, h⟩ := h
        have hlt : rest.length < n := by
          rw [← hn, h.text]
          simp
          omega
        rw [referencesFrom_of_placeholder h]
        exact .placeholder h (ih _ hlt rfl)
      · push Not at h
        cases cs with
        | nil => exact .done
        | cons c cs =>
          rw [referencesFrom_of_other h]
          exact .other h (ih _ (by simp [← hn]) rfl)

/-- Without placeholders a text reads as itself. -/
theorem referencesFrom_eq_self {cs : List Char}
    (h : ∀ front name rest back, cs = front ++ back → ¬Placeholder back name rest) :
    referencesFrom 0 cs = cs := by
  induction cs with
  | nil => rfl
  | cons c cs ih =>
    rw [referencesFrom_of_other fun name rest => h [] name rest _ rfl,
      ih fun front name rest back hcs => h (c :: front) name rest back (by rw [hcs]; rfl)]

/-- The text without the characters that the rule leaves out. The rule sees what stands before a
character in the text, the nearest character first. -/
def without (rule : List Char → Char → Bool) : List Char → List Char → List Char
  | _, [] => []
  | before, c :: cs =>
      if rule before c then without rule (c :: before) cs else c :: without rule (c :: before) cs

/-- What a rule leaves of the text before a character. -/
def kept (rule : List Char → Char → Bool) : List Char → List Char
  | [] => []
  | c :: before => if rule before c then kept rule before else c :: kept rule before

/-- Two rules one after the other are one rule. -/
theorem without_without (rule next : List Char → Char → Bool) (before cs : List Char) :
    without next (kept rule before) (without rule before cs) =
      without (fun front c => rule front c || next (kept rule front) c) before cs := by
  induction cs generalizing before with
  | nil => rfl
  | cons c cs ih =>
    have hkept := ih (c :: before)
    rw [kept] at hkept
    rw [without, without]
    cases hrule : rule before c with
    | true => simpa [hrule] using hkept
    | false =>
      rw [hrule, if_neg Bool.false_ne_true] at hkept
      rw [if_neg Bool.false_ne_true, without, hkept, Bool.false_or]

theorem without_never (before cs : List Char) : without (fun _ _ => false) before cs = cs := by
  induction cs generalizing before with
  | nil => rfl
  | cons c cs ih => rw [without, if_neg Bool.false_ne_true, ih]

section stricter

variable {rule sub : List Char → Char → Bool} (h : ∀ before c, sub before c → rule before c)
include h

/-- Who leaves out more keeps less. -/
theorem length_without_le (before cs : List Char) :
    (without rule before cs).length ≤ (without sub before cs).length := by
  induction cs generalizing before with
  | nil => exact Nat.le_refl _
  | cons c cs ih =>
    have hle := ih (c :: before)
    rw [without, without]
    by_cases hsub : sub before c
    · rw [if_pos hsub, if_pos (h _ _ hsub)]
      exact hle
    · rw [if_neg hsub]
      split
      · exact Nat.le_succ_of_le hle
      · exact Nat.succ_le_succ hle

/-- The outcome is the same only if the same characters are left out. -/
theorem without_eq_iff (before cs : List Char) : without rule before cs = without sub before cs ↔
    ∀ front c back, cs = front ++ c :: back → rule (front.reverse ++ before) c →
      sub (front.reverse ++ before) c := by
  induction cs generalizing before with
  | nil => simp [without]
  | cons c cs ih =>
    have hpositions : (∀ front d back, c :: cs = front ++ d :: back →
        rule (front.reverse ++ before) d → sub (front.reverse ++ before) d) ↔
        (rule before c → sub before c) ∧ without rule (c :: before) cs =
          without sub (c :: before) cs := by
      rw [ih]
      constructor
      · intro hall
        exact ⟨hall [] c cs rfl, fun front d back hcs => by
          simpa using hall (c :: front) d back (by rw [hcs]; rfl)⟩
      · rintro ⟨hhead, htail⟩ front d back hcs
        cases front with
        | nil =>
          obtain ⟨rfl, rfl⟩ := List.cons.inj hcs
          exact hhead
        | cons e front =>
          rw [List.cons_append, List.cons.injEq] at hcs
          obtain ⟨rfl, rfl⟩ := hcs
          simpa using htail front d back rfl
    have hle := length_without_le h (c :: before) cs
    rw [hpositions, without, without]
    by_cases hsub : sub before c
    · simp [hsub, h _ _ hsub]
    · by_cases hrule : rule before c
      · simp only [hsub, hrule, if_true, Bool.false_eq_true, if_false]
        refine iff_of_false (fun heq => ?_) (by simp)
        rw [heq, List.length_cons] at hle
        omega
      · simp [hsub, hrule]

end stricter

/-- A separator of one kind, right behind a closing bracket. -/
def behindBracket (d : Char) (before : List Char) (c : Char) : Bool :=
  c == d && before.head? == some ']'

theorem behindBracket_eq_false {d c : Char} {before : List Char}
    (h : c = d → before.head? ≠ some ']') : behindBracket d before c = false := by
  simp only [behindBracket, Bool.and_eq_false_imp, beq_iff_eq, beq_eq_false_iff_ne]
  exact h

/-- Replacing a bracket and a separator by the bracket leaves the separator out. -/
theorem replaceAll_eq_without {d : Char} (hd : d ≠ ']') (cs : List Char) :
    replaceAll [']', d] [']'] cs = without (behindBracket d) [] cs := by
  have hgeneral : ∀ before : List Char, (cs.head? = some d → before.head? ≠ some ']') →
      replaceFrom [']', d] [']'] 0 cs = without (behindBracket d) before cs := by
    induction cs using List.twoStepInduction with
    | nil => exact fun _ _ => rfl
    | singleton c =>
      intro before hbefore
      have hkeep := behindBracket_eq_false fun hc => hbefore (congrArg some hc)
      simp [replaceFrom, without, hkeep]
    | cons_cons c e cs ih ih' =>
      intro before hbefore
      have hkeep := behindBracket_eq_false fun hc => hbefore (congrArg some hc)
      rw [replaceFrom, without, hkeep, if_neg Bool.false_ne_true]
      by_cases hpair : c = ']' ∧ e = d
      · obtain ⟨rfl, rfl⟩ := hpair
        have hdrop : behindBracket e (']' :: before) e = true := by simp [behindBracket]
        rw [without, if_pos hdrop, ← ih (e :: ']' :: before) fun _ => by simpa using hd]
        simp [replaceFrom]
      · have hprefix : ¬[']', d].isPrefixOf (c :: e :: cs) = true := by
          rwa [isPrefixOf_pair]
        rw [if_neg hprefix, ih' e (c :: before)]
        intro he hc
        exact hpair ⟨by simpa using hc, by simpa using he⟩
  exact hgeneral [] (by simp)

/-- A character is lost: a separator right behind a closing bracket, or a slash behind such a
bracket and one backslash. -/
def lost (before : List Char) (c : Char) : Bool :=
  isSeparator c && before.head? == some ']' || c == '/' && ['\\', ']'].isPrefixOf before

theorem head?_kept_backslash (before : List Char) :
    (kept (behindBracket '\\') before).head? = some ']' ↔
      before.head? = some ']' ∨ ['\\', ']'].isPrefixOf before = true := by
  cases before with
  | nil => simp [kept]
  | cons c before =>
    cases before with
    | nil => simp [kept, behindBracket]
    | cons d before =>
      by_cases hpair : c = '\\' ∧ d = ']'
      · obtain ⟨rfl, rfl⟩ := hpair
        simp [kept, behindBracket]
      · have hkeep : behindBracket '\\' (d :: before) c = false := by
          simpa [behindBracket] using hpair
        rw [kept, hkeep, if_neg Bool.false_ne_true, isPrefixOf_pair, or_iff_left hpair]
        rfl

theorem lost_eq (before : List Char) (c : Char) : lost before c =
    (behindBracket '\\' before c ||
      behindBracket '/' (kept (behindBracket '\\') before) c) := by
  rw [Bool.eq_iff_iff]
  simp only [lost, behindBracket, isSeparator, Bool.or_eq_true, Bool.and_eq_true, beq_iff_eq,
    head?_kept_backslash]
  tauto

/-- Behind the references, formatting leaves out what is lost, and nothing else. -/
theorem normalizeChars_eq (cs : List Char) :
    normalizeChars cs = without lost [] (referencesFrom 0 cs) := by
  have hrule : lost = fun before c => behindBracket '\\' before c ||
      behindBracket '/' (kept (behindBracket '\\') before) c := by
    funext before c
    exact lost_eq before c
  rw [normalizeChars, replaceAll_eq_without (by decide), replaceAll_eq_without (by decide), hrule]
  exact without_without _ _ [] _

/-- The text ends with a reference: something without brackets between brackets. -/
def EndsInReference (front : List Char) : Prop :=
  ∃ start name, front = start ++ bracketed name ∧ name ≠ [] ∧ '[' ∉ name ∧ ']' ∉ name

/-- No bracket. -/
def isUnbracketed (c : Char) : Bool :=
  c != '[' && c != ']'

/-- A reference ends right before, the nearest character being the first. -/
def behindReference : List Char → Bool
  | ']' :: before =>
      let name := before.takeWhile isUnbracketed
      !name.isEmpty && before[name.length]? == some '['
  | _ => false

/-- A separator right behind a reference. -/
def superfluous (before : List Char) (c : Char) : Bool :=
  isSeparator c && behindReference before

theorem forall_isUnbracketed {name : List Char} :
    (∀ c ∈ name, isUnbracketed c = true) ↔ '[' ∉ name ∧ ']' ∉ name := by
  simp only [isUnbracketed, Bool.and_eq_true, bne_iff_ne, ← List.forall_mem_ne', forall_and]

theorem endsInReference_reverse {before : List Char} : EndsInReference before.reverse ↔
    ∃ name, name ≠ [] ∧ (∀ c ∈ name, isUnbracketed c = true) ∧
      ∃ rest, before = ']' :: (name ++ '[' :: rest) := by
  constructor
  · rintro ⟨start, name, htext, hne, hname⟩
    refine ⟨name.reverse, by simpa using hne, ?_, start.reverse, ?_⟩
    · simpa [forall_isUnbracketed] using hname
    · simpa [bracketed] using congrArg List.reverse htext
  · rintro ⟨name, hne, hname, rest, rfl⟩
    refine ⟨rest.reverse, name.reverse, by simp [bracketed], by simpa using hne, ?_⟩
    simpa [forall_isUnbracketed] using hname

theorem behindReference_iff (before : List Char) :
    behindReference before = true ↔ EndsInReference before.reverse := by
  rw [endsInReference_reverse]
  unfold behindReference
  split
  · next before =>
    have hrow := fun name => takeWhile_iff (p := isUnbracketed) (e := '[') (by decide)
      before name
    simp only [Bool.and_eq_true, Bool.not_eq_true', List.isEmpty_eq_false_iff, beq_iff_eq,
      List.cons.injEq, true_and, ← hrow]
    constructor
    · rintro ⟨hne, hend⟩
      exact ⟨_, hne, rfl, hend⟩
    · rintro ⟨name, hne, rfl, hend⟩
      exact ⟨hne, hend⟩
  · next hother =>
    refine iff_of_false Bool.false_ne_true ?_
    rintro ⟨name, _, _, rest, rfl⟩
    exact hother _ rfl

theorem lost_reverse_iff {front : List Char} {c : Char} : lost front.reverse c = true ↔
    (isSeparator c ∧ ∃ start, front = start ++ [']']) ∨
      (c = '/' ∧ ∃ start, front = start ++ [']', '\\']) := by
  rw [lost, Bool.or_eq_true, Bool.and_eq_true, Bool.and_eq_true, beq_iff_eq, beq_iff_eq,
    List.head?_reverse, List.getLast?_eq_some_iff, List.isPrefixOf_iff_prefix]
  refine or_congr_right (and_congr_right fun _ => ?_)
  exact (@List.reverse_prefix _ [']', '\\'] front).trans (exists_congr fun _ => eq_comm)

theorem isSeparator_of_superfluous {before : List Char} {c : Char}
    (h : superfluous before c = true) : isSeparator c = true ∧ before.head? = some ']' := by
  rw [superfluous, Bool.and_eq_true, behindReference_iff, endsInReference_reverse] at h
  obtain ⟨hc, name, _, _, rest, rfl⟩ := h
  exact ⟨hc, rfl⟩

theorem lost_of_superfluous {before : List Char} {c : Char} (h : superfluous before c = true) :
    lost before c = true := by
  obtain ⟨hc, hhead⟩ := isSeparator_of_superfluous h
  simp [lost, hc, hhead]

/-- Every character that is lost is superfluous where brackets before separators close references,
and no slash follows such a bracket and a backslash. -/
theorem superfluous_of_lost_iff (t : List Char) :
    (∀ front c back, t = front ++ c :: back → lost front.reverse c → superfluous front.reverse c) ↔
      (∀ front c back, t = front ++ ']' :: c :: back → isSeparator c →
        EndsInReference (front ++ [']'])) ∧
      ∀ front back, t ≠ front ++ ']' :: '\\' :: '/' :: back := by
  constructor
  · intro h
    constructor
    · intro front c back ht hc
      have hwanted := h (front ++ [']']) c back (by simpa using ht)
        (lost_reverse_iff.2 (Or.inl ⟨hc, front, rfl⟩))
      rw [superfluous, Bool.and_eq_true, behindReference_iff, List.reverse_reverse] at hwanted
      exact hwanted.2
    · intro front back ht
      have hwanted := h (front ++ [']', '\\']) '/' back (by simpa using ht)
        (lost_reverse_iff.2 (Or.inr ⟨rfl, front, rfl⟩))
      simpa using (isSeparator_of_superfluous hwanted).2
  · rintro ⟨hclosed, hpair⟩ front c back rfl hlost
    obtain ⟨hc, start, rfl⟩ | ⟨rfl, start, rfl⟩ := lost_reverse_iff.1 hlost
    · rw [superfluous, hc, Bool.true_and, behindReference_iff, List.reverse_reverse]
      exact hclosed start c back (by simp) hc
    · exact absurd (by simp) (hpair start back)

theorem without_lost_eq_self_iff (cs : List Char) : without lost [] cs = cs ↔
    ∀ front c back, cs = front ++ ']' :: c :: back → isSeparator c = false := by
  have hiff := @without_eq_iff lost (fun _ _ => false) (by simp) [] cs
  rw [without_never] at hiff
  rw [hiff]
  simp only [List.append_nil, Bool.false_eq_true, imp_false, Bool.not_eq_true]
  constructor
  · intro h front c back hcs
    have hkept := h (front ++ [']']) c back (by simpa using hcs)
    by_contra hc
    rw [lost_reverse_iff.2 (Or.inl ⟨by simpa using hc, front, rfl⟩)] at hkept
    exact absurd hkept (by decide)
  · rintro h front c back rfl
    by_contra hlost
    obtain ⟨hc, start, rfl⟩ | ⟨rfl, start, rfl⟩ := lost_reverse_iff.1 (by simpa using hlost)
    · simp [h start c back (by simp)] at hc
    · exact absurd (h start '\\' ('/' :: back) (by simp)) (by decide)

/-- Formatting puts a reference for every placeholder and leaves out what is lost. It leaves out just
the separators behind references if every closing bracket before a separator closes a reference and
none is followed by `\/`. A text without placeholders stays as it is if no separator follows a closing
bracket in it, and only then. -/
theorem normalize_as_documented_iff (s : String) :
    ∃ t, (∀ u, Reading s.toList u ↔ u = t) ∧ normalize s = String.ofList (without lost [] t) ∧
      (normalize s = String.ofList (without superfluous [] t) ↔
        (∀ front c back, t = front ++ ']' :: c :: back → isSeparator c →
          EndsInReference (front ++ [']'])) ∧
        ∀ front back, t ≠ front ++ ']' :: '\\' :: '/' :: back) ∧
      ((∀ front name rest back, s.toList = front ++ back → ¬Placeholder back name rest) →
        (normalize s = s ↔ ∀ front c back, s.toList = front ++ ']' :: c :: back →
          isSeparator c = false)) := by
  have hnormal : normalize s = String.ofList (without lost [] (referencesFrom 0 s.toList)) := by
    rw [normalize, normalizeChars_eq]
  refine ⟨_, fun u => reading_iff, hnormal, ?_, fun hplain => ?_⟩
  · rw [hnormal, String.ofList_inj, without_eq_iff fun _ _ => lost_of_superfluous]
    simpa using superfluous_of_lost_iff _
  · rw [hnormal, referencesFrom_eq_self hplain, ← without_lost_eq_self_iff]
    conv_lhs => rhs; rw [← String.ofList_toList (s := s)]
    exact String.ofList_inj

example : normalize "[INSTALLDIR]\\my_app.exe" = "[INSTALLDIR]my_app.exe" := by decide +kernel

/-- A text with neither a placeholder nor a reference that loses a character. -/
theorem separator_lost_without_reference :
    (∀ name rest front back, "a]\\b".toList = front ++ back → ¬Placeholder back name rest) ∧
      (∀ front back, "a]\\b".toList = front ++ back → ¬EndsInReference front) ∧
      normalize "a]\\b" = "a]b" := by
  refine ⟨fun name rest front back htext h => ?_, fun front back htext h => ?_, by decide +kernel⟩
  · have hmem : '%' ∈ "a]\\b".toList := by simp [htext, h.text]
    exact absurd hmem (by decide)
  · obtain ⟨start, name, rfl, -⟩ := h
    have hmem : '[' ∈ "a]\\b".toList := by simp [htext, bracketed]
    exact absurd hmem (by decide)

end Installer.Formatted
