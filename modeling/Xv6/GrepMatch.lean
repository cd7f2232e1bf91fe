import Mathlib.Computability.Language

/-!
The regular expressions of `grep` (user/grep.c): the matcher, and the languages it decides.

A string is the list of its bytes before the terminator, so reading at its end gives the NUL
and a pointer into the string is the rest of the list.
-/

namespace Xv6.Grep

open Computability

def chr (p : List UInt8) (i : ℕ) : UInt8 := p.getD i 0

lemma length_pos_of_chr {p : List UInt8} {i : ℕ} (h : ¬ chr p i = 0) : i < p.length := by
  by_contra hp
  simp only [not_lt] at hp
  exact h (by simp [chr, hp])

mutual

def matchhere (re text : List UInt8) : Bool :=
  if chr re 0 = 0 then true
  else if chr re 1 = '*'.toUInt8 then matchstar (chr re 0) (re.drop 2) text
  else if chr re 0 = '$'.toUInt8 ∧ chr re 1 = 0 then chr text 0 = 0
  else if chr text 0 ≠ 0 ∧ (chr re 0 = '.'.toUInt8 ∨ chr re 0 = chr text 0) then
    matchhere (re.drop 1) (text.drop 1)
  else false
termination_by 2 * (re.length + text.length)
decreasing_by
  all_goals
    have := length_pos_of_chr ‹_›
    simp only [List.length_drop]
    omega

def matchstar (c : UInt8) (re text : List UInt8) : Bool :=
  if matchhere re text then true
  else if chr text 0 = 0 then false
  else if chr text 0 = c ∨ c = '.'.toUInt8 then matchstar c re (text.drop 1)
  else false
termination_by 2 * (re.length + text.length) + 1
decreasing_by
  · omega
  · have := length_pos_of_chr ‹_›
    simp only [List.length_drop]
    omega

end

/-- The loop of `match`, which looks at the empty rest of the text too. -/
def matchFrom (re : List UInt8) : List UInt8 → Bool
  | [] => matchhere re []
  | a :: text => if matchhere re (a :: text) then true else matchFrom re text

def match_ (re text : List UInt8) : Bool :=
  if chr re 0 = '^'.toUInt8 then matchhere (re.drop 1) text else matchFrom re text

/-! ### The language of a pattern -/

/-- The one-character texts that a pattern character stands for. -/
def chars (c : UInt8) : Language UInt8 := {w | ∃ a, w = [a] ∧ (c = '.'.toUInt8 ∨ c = a)}

/-- The texts that a pattern stands for, apart from where in the line they have to be. -/
def lang : List UInt8 → Language UInt8
  | [] => 1
  | [c] => if c = '$'.toUInt8 then 1 else chars c
  | c :: d :: re => if d = '*'.toUInt8 then (chars c)∗ * lang re else chars c * lang (d :: re)

def AtEnd (re : List UInt8) : Prop := re.getLast? = some '$'.toUInt8

instance (re : List UInt8) : Decidable (AtEnd re) := inferInstanceAs (Decidable (_ = _))

/-- A text of the pattern's language stands at the beginning of `text`. -/
def Here (re text : List UInt8) : Prop :=
  ∃ u v, text = u ++ v ∧ u ∈ lang re ∧ (AtEnd re → v = [])

/-- A line matches: a text of the pattern's language stands in it, at its start if the pattern
begins with `^`. -/
def Matches (re text : List UInt8) : Prop :=
  if re.head? = some '^'.toUInt8 then Here re.tail text else ∃ a b, text = a ++ b ∧ Here re b

/-! ### The matcher decides the language -/

lemma chr_cons_zero (a : UInt8) (p : List UInt8) : chr (a :: p) 0 = a := rfl

lemma chr_cons_succ (a : UInt8) (p : List UInt8) (i : ℕ) : chr (a :: p) (i + 1) = chr p i := rfl

lemma chr_nil (i : ℕ) : chr [] i = 0 := rfl

lemma mem_kstar_iff {l : Language UInt8} {w : List UInt8} : w ∈ l∗ ↔ w = [] ∨ w ∈ l * l∗ := by
  conv_lhs => rw [← Language.one_add_self_mul_kstar_eq_kstar l]
  rfl

lemma here_nil (text : List UInt8) : Here [] text := by
  refine ⟨[], text, rfl, Language.nil_mem_one, fun h => ?_⟩
  simp [AtEnd] at h

lemma here_chars {c : UInt8} {l : Language UInt8} {text : List UInt8} {P : List UInt8 → Prop} :
    (∃ u v, text = u ++ v ∧ u ∈ chars c * l ∧ P v) ↔
      ∃ a t, text = a :: t ∧ (c = '.'.toUInt8 ∨ c = a) ∧ ∃ u v, t = u ++ v ∧ u ∈ l ∧ P v := by
  constructor
  · rintro ⟨u, v, rfl, hu, hv⟩
    obtain ⟨x, ⟨a, rfl, ha⟩, y, hy, rfl⟩ := Language.mem_mul.mp hu
    exact ⟨a, y ++ v, rfl, ha, y, v, rfl, hy, hv⟩
  · rintro ⟨a, t, rfl, ha, u, v, rfl, hu, hv⟩
    exact ⟨a :: u, v, rfl, Language.mem_mul.mpr ⟨[a], ⟨a, rfl, ha⟩, u, hu, rfl⟩, hv⟩

lemma matchstar_iff {c : UInt8} {re text : List UInt8} (h0 : 0 ∉ text)
    (hre : ∀ t, 0 ∉ t → (matchhere re t = true ↔ Here re t)) :
    matchstar c re text = true ↔ ∃ u v, text = u ++ v ∧ u ∈ (chars c)∗ ∧ Here re v := by
  induction text with
  | nil =>
    rw [matchstar, if_pos (chr_nil 0)]
    constructor
    · intro h
      refine ⟨[], [], rfl, Language.nil_mem_kstar _, (hre [] h0).mp ?_⟩
      simpa using h
    · rintro ⟨u, v, huv, -, hv⟩
      obtain ⟨rfl, rfl⟩ := List.append_eq_nil_iff.mp huv.symm
      rw [(hre [] h0).mpr hv]
      rfl
  | cons a text ih =>
    rw [List.mem_cons, not_or] at h0
    have ih := ih h0.2
    rw [matchstar, chr_cons_zero, if_neg (Ne.symm h0.1)]
    have hrest : (if a = c ∨ c = '.'.toUInt8 then matchstar c re ((a :: text).drop 1) else false)
        = true ↔ ∃ u v, a :: text = u ++ v ∧ u ∈ chars c * (chars c)∗ ∧ Here re v := by
      rw [here_chars]
      constructor
      · intro h
        split_ifs at h with hc
        exact ⟨a, text, rfl, hc.symm.imp id Eq.symm, ih.mp h⟩
      · rintro ⟨b, t, hbt, hc, huv⟩
        obtain ⟨rfl, rfl⟩ := List.cons.inj hbt
        rw [if_pos (hc.symm.imp Eq.symm id)]
        exact ih.mpr huv
    by_cases hh : matchhere re (a :: text) = true
    · rw [if_pos hh]
      refine iff_of_true rfl ⟨[], a :: text, rfl, Language.nil_mem_kstar _, ?_⟩
      exact (hre _ (by simp [h0.1, h0.2])).mp hh
    · rw [if_neg hh, hrest]
      constructor
      · rintro ⟨u, v, huv, hu, hv⟩
        exact ⟨u, v, huv, mem_kstar_iff.mpr (.inr hu), hv⟩
      · rintro ⟨u, v, huv, hu, hv⟩
        rcases mem_kstar_iff.mp hu with rfl | hu
        · -- no repetition: `re` itself would match here
          rw [List.nil_append] at huv
          subst huv
          exact absurd ((hre _ (by simp [h0.1, h0.2])).mpr hv) hh
        · exact ⟨u, v, huv, hu, hv⟩

lemma atEnd_star {c : UInt8} {re : List UInt8} : AtEnd (c :: '*'.toUInt8 :: re) ↔ AtEnd re := by
  cases re with
  | nil =>
    have : '*'.toUInt8 ≠ '$'.toUInt8 := by decide
    simp [AtEnd, this]
  | cons d re => simp [AtEnd]

lemma matchhere_star {c : UInt8} (hc : c ≠ 0) (re text : List UInt8) :
    matchhere (c :: '*'.toUInt8 :: re) text = matchstar c re text := by
  rw [matchhere, chr_cons_zero, if_neg hc, chr_cons_succ, chr_cons_zero, if_pos rfl]
  rfl

lemma matchhere_one {c : UInt8} (re : List UInt8) {text : List UInt8} (hc : c ≠ 0)
    (hs : chr re 0 ≠ '*'.toUInt8) (he : ¬ (c = '$'.toUInt8 ∧ chr re 0 = 0)) (h0 : 0 ∉ text) :
    matchhere (c :: re) text = true ↔
      ∃ a t, text = a :: t ∧ (c = '.'.toUInt8 ∨ c = a) ∧ matchhere re t = true := by
  rw [matchhere, chr_cons_zero, if_neg hc, chr_cons_succ, if_neg hs, if_neg he]
  cases text with
  | nil => simp [chr_nil]
  | cons a t =>
    have ha : a ≠ 0 := fun h => h0 (by simp [h])
    rw [chr_cons_zero]
    constructor
    · intro h
      split_ifs at h with hc
      exact ⟨a, t, rfl, hc.2, h⟩
    · rintro ⟨b, t', hbt, hc, ht⟩
      obtain ⟨rfl, rfl⟩ := List.cons.inj hbt
      rw [if_pos ⟨ha, hc⟩]
      exact ht

lemma matchhere_dollar (text : List UInt8) (h0 : 0 ∉ text) :
    matchhere ['$'.toUInt8] text = true ↔ text = [] := by
  rw [matchhere, chr_cons_zero, if_neg (by decide), chr_cons_succ, chr_nil, if_neg (by decide),
    if_pos ⟨rfl, rfl⟩, decide_eq_true_iff]
  cases text with
  | nil => simp [chr_nil]
  | cons a t => simpa [chr_cons_zero] using fun h => h0 (by simp [h])

/-- `matchhere` finds a text of the pattern's language at the beginning of the text. The
induction is on the pattern; a starred character takes two of its characters at once. -/
lemma matchhere_iff : ∀ {re text : List UInt8}, 0 ∉ re → 0 ∉ text →
    (matchhere re text = true ↔ Here re text)
  | [], text, _, _ => by
    rw [matchhere, chr_nil, if_pos rfl]
    exact iff_of_true rfl (here_nil text)
  | [c], text, hr, h0 => by
    have hc : c ≠ 0 := fun h => hr (by simp [h])
    by_cases hd : c = '$'.toUInt8
    · subst hd
      rw [matchhere_dollar text h0]
      constructor
      · rintro rfl
        exact ⟨[], [], rfl, by simp [lang], fun _ => rfl⟩
      · rintro ⟨u, v, rfl, hu, hv⟩
        have hu : u = [] := by simpa [lang] using hu
        rw [hu, hv rfl, List.append_nil]
    · rw [matchhere_one [] hc (by rw [chr_nil]; decide) (fun h => hd h.1) h0]
      have hl : lang [c] = chars c * 1 := by rw [lang, if_neg hd, mul_one]
      have he : ¬ AtEnd [c] := by simpa [AtEnd] using hd
      rw [Here, hl, here_chars]
      refine exists_congr fun a => exists_congr fun t => and_congr_right fun _ =>
        and_congr_right fun _ => iff_of_true (by rw [matchhere, chr_nil, if_pos rfl]) ?_
      exact ⟨[], t, rfl, Language.nil_mem_one, fun h => absurd h he⟩
  | c :: d :: re, text, hr, h0 => by
    simp only [List.mem_cons, not_or] at hr
    have hre : 0 ∉ re := hr.2.2
    have hdre : 0 ∉ d :: re := by simp [hr.2.1, hre]
    by_cases hd : d = '*'.toUInt8
    · subst hd
      rw [matchhere_star (Ne.symm hr.1),
        matchstar_iff h0 fun t ht => matchhere_iff hre ht, Here, atEnd_star, lang, if_pos rfl]
      constructor
      · rintro ⟨u, _, rfl, hu, v, w, rfl, hv, hw⟩
        exact ⟨u ++ v, w, (List.append_assoc ..).symm, Language.mem_mul.mpr ⟨u, hu, v, hv, rfl⟩, hw⟩
      · rintro ⟨_, w, rfl, huv, hw⟩
        obtain ⟨u, hu, v, hv, rfl⟩ := Language.mem_mul.mp huv
        exact ⟨u, v ++ w, List.append_assoc .., hu, v, w, rfl, hv, hw⟩
    · have he : AtEnd (c :: d :: re) ↔ AtEnd (d :: re) := by simp [AtEnd]
      rw [matchhere_one (d :: re) (Ne.symm hr.1) hd (fun h => hr.2.1 h.2.symm) h0, Here,
        lang, if_neg hd, here_chars, he]
      refine exists_congr fun a => exists_congr fun t => and_congr_right fun hat =>
        and_congr_right fun _ => matchhere_iff hdre ?_
      subst hat
      exact fun h => h0 (List.mem_cons_of_mem _ h)

lemma matchFrom_iff {re text : List UInt8} :
    matchFrom re text = true ↔ ∃ a b, text = a ++ b ∧ matchhere re b = true := by
  induction text with
  | nil =>
    rw [matchFrom]
    constructor
    · intro h
      exact ⟨[], [], rfl, h⟩
    · rintro ⟨a, b, hab, hb⟩
      obtain ⟨-, rfl⟩ := List.append_eq_nil_iff.mp hab.symm
      exact hb
  | cons x text ih =>
    rw [matchFrom]
    split_ifs with hx
    · exact iff_of_true rfl ⟨[], x :: text, rfl, hx⟩
    · rw [ih]
      constructor
      · rintro ⟨a, b, rfl, hb⟩
        exact ⟨x :: a, b, rfl, hb⟩
      · rintro ⟨a, b, hab, hb⟩
        cases a with
        | nil =>
          obtain rfl : x :: text = b := hab
          exact absurd hb hx
        | cons y a =>
          obtain ⟨-, rfl⟩ := List.cons.inj hab
          exact ⟨a, b, rfl, hb⟩

lemma match_iff_matches {re text : List UInt8} (hr : 0 ∉ re) (h0 : 0 ∉ text) :
    match_ re text = true ↔ Matches re text := by
  have hhead : chr re 0 = '^'.toUInt8 ↔ re.head? = some '^'.toUInt8 := by
    cases re with
    | nil => exact iff_of_false (by decide) (by simp)
    | cons c re => simp [chr_cons_zero]
  unfold match_ Matches
  by_cases hc : re.head? = some '^'.toUInt8
  · rw [if_pos (hhead.mpr hc), if_pos hc, List.drop_one]
    exact matchhere_iff (fun h => hr (List.mem_of_mem_tail h)) h0
  · rw [if_neg (hhead.not.mpr hc), if_neg hc, matchFrom_iff]
    refine exists_congr fun a => exists_congr fun b => and_congr_right ?_
    rintro rfl
    exact matchhere_iff hr fun h => h0 (List.mem_append_right _ h)

/-- **The matcher decides the language of the pattern.** For every pattern and text, `match`
answers yes exactly when a substring of the text is in the pattern's language: a prefix of it
if the pattern begins with `^`, and one that reaches the text's end if the pattern ends in
`$`. -/
theorem match_finds_language (re text : List UInt8) (hr : 0 ∉ re) (h0 : 0 ∉ text) :
    match_ re text = true ↔
      if re.head? = some '^'.toUInt8 then
        ∃ u v, text = u ++ v ∧ u ∈ lang re.tail ∧ (AtEnd re.tail → v = [])
      else ∃ a u v, text = a ++ u ++ v ∧ u ∈ lang re ∧ (AtEnd re → v = []) := by
  rw [match_iff_matches hr h0, Matches]
  split_ifs
  · rfl
  · constructor
    · rintro ⟨a, _, rfl, u, v, rfl, hu, hv⟩
      exact ⟨a, u, v, (List.append_assoc ..).symm, hu, hv⟩
    · rintro ⟨a, u, v, rfl, hu, hv⟩
      exact ⟨a, u ++ v, List.append_assoc .., u, v, rfl, hu, hv⟩

/-- The pattern `^a*b$` against the text `aab`: the two bytes `aa` and then `b`. -/
theorem match_finds_language_aab :
    match_ [94, 97, 42, 98, 36] [97, 97, 98] = true ∧
      ∃ u v, [97, 97, 98] = u ++ v ∧ u ∈ lang [97, 42, 98, 36] ∧ v = [] := by
  have hm : match_ [94, 97, 42, 98, 36] [97, 97, 98] = true := by decide +kernel
  have h := (match_finds_language _ _ (by decide) (by decide)).mp hm
  rw [if_pos (by decide)] at h
  obtain ⟨u, v, huv, hu, hv⟩ := h
  exact ⟨hm, u, v, huv, hu, hv (by decide)⟩

end Xv6.Grep
