import Mathlib.Algebra.BigOperators.Group.Finset.Basic
import Mathlib.Algebra.Order.BigOperators.Group.Finset
import Mathlib.Data.Nat.ModEq
import Mathlib.Tactic.Abel
import Mathlib.Tactic.Ring

/-!
Radix trees laid out in the pages of a memory, as page tables are.

A page is a table of words; a word of an inner table either is not valid or holds the number
of the page of a table one level below, and the words of the tables at the bottom are the
entries of the tree. What a tree is made of is read off the memory: `tables` are the pages it
occupies, `entry` is the word it holds for an index.

A tree is well formed when every valid word is of the kind its level asks for; that its pages
are different from one another is a hypothesis of its own, `(tables …).Nodup`, under which a
write to one page of the tree can be followed.
-/

namespace Xv6.PageTree

/-- How a word is read: the number of words of a table, whether a word is valid, whether it
refers to a table, and to which page. -/
structure Format where
  fan : ℕ
  fan_pos : 0 < fan
  valid : ℕ → Bool
  inner : ℕ → Bool
  next : ℕ → ℕ
  not_valid_zero : valid 0 = false

abbrev Words := ℕ → ℕ → ℕ

variable (F : Format) {W W' : Words} {n m i : ℕ}

def slot (n a : ℕ) : ℕ := a / F.fan ^ n % F.fan

lemma slot_lt (n a : ℕ) : slot F n a < F.fan := Nat.mod_lt _ F.fan_pos

def tables : ℕ → Words → ℕ → Multiset ℕ
  | 0, _, m => {m}
  | n + 1, W, m => {m} + ∑ j ∈ Finset.range F.fan,
      if F.valid (W m j) then tables n W (F.next (W m j)) else 0

def kid (n : ℕ) (W : Words) (m j : ℕ) : Multiset ℕ :=
  if F.valid (W m j) then tables F n W (F.next (W m j)) else 0

def rest (n : ℕ) (W : Words) (m i : ℕ) : Multiset ℕ :=
  ∑ j ∈ (Finset.range F.fan).erase i, kid F n W m j

/-- The table at the bottom that has the entry of index `a`, if there is one. -/
def leafTable : ℕ → Words → ℕ → ℕ → Option ℕ
  | 0, _, m, _ => some m
  | n + 1, W, m, a =>
    let w := W m (slot F (n + 1) a)
    if F.valid w then leafTable n W (F.next w) a else none

def entry (n : ℕ) (W : Words) (m a : ℕ) : ℕ :=
  match leafTable F n W m a with
  | some l => W l (slot F 0 a)
  | none => 0

/-- Every word of the inner tables of a tree satisfies `P`, every entry `Q`. -/
def Every (P Q : ℕ → Prop) : ℕ → Words → ℕ → Prop
  | 0, W, m => ∀ j < F.fan, Q (W m j)
  | n + 1, W, m => ∀ j < F.fan, P (W m j) ∧
      (F.valid (W m j) → Every P Q n W (F.next (W m j)))

abbrev Wf : ℕ → Words → ℕ → Prop :=
  Every F (fun w => F.valid w → F.inner w = true) (fun w => F.valid w → F.inner w = false)

abbrev Empty : ℕ → Words → ℕ → Prop := Every F (fun _ => True) (fun w => F.valid w = false)

def put (W : Words) (l i w : ℕ) : Words := fun p j => if p = l ∧ j = i then w else W p j

@[simp] lemma put_self (W : Words) (l i w : ℕ) : put W l i w l i = w := by simp [put]

lemma put_page (W : Words) {l p : ℕ} (h : p ≠ l) (i w : ℕ) : put W l i w p = W p := by
  funext j
  simp [put, h]

lemma put_word (W : Words) (l : ℕ) {i j : ℕ} (h : j ≠ i) (w : ℕ) : put W l i w l j = W l j := by
  simp [put, h]

/-! ### The pages of a tree -/

@[simp] lemma tables_zero : tables F 0 W m = {m} := rfl

lemma tables_succ : tables F (n + 1) W m = {m} + ∑ j ∈ Finset.range F.fan, kid F n W m j := rfl

lemma self_mem_tables : m ∈ tables F n W m := by
  cases n with
  | zero => exact Multiset.mem_singleton_self m
  | succ n => exact Multiset.mem_add.mpr (.inl (Multiset.mem_singleton_self m))

lemma tables_split (hi : i < F.fan) :
    tables F (n + 1) W m = {m} + kid F n W m i + rest F n W m i := by
  rw [tables_succ, rest, add_assoc, Finset.add_sum_erase _ _ (Finset.mem_range.mpr hi)]

lemma kid_of_valid (h : F.valid (W m i)) : kid F n W m i = tables F n W (F.next (W m i)) := if_pos h

lemma kid_of_not_valid (h : F.valid (W m i) = false) : kid F n W m i = 0 := by
  rw [kid, h]
  rfl

lemma kid_le_rest {j : ℕ} (hj : j < F.fan) (hij : j ≠ i) : kid F n W m j ≤ rest F n W m i :=
  Finset.single_le_sum (fun _ _ => Multiset.zero_le _)
    (Finset.mem_erase.mpr ⟨hij, Finset.mem_range.mpr hj⟩)

lemma tables_congr (h : ∀ p ∈ tables F n W m, W' p = W p) :
    tables F n W' m = tables F n W m := by
  induction n generalizing m with
  | zero => rfl
  | succ n ih =>
    have hm := h m (self_mem_tables F)
    rw [tables_succ, tables_succ]
    congr 1
    refine Finset.sum_congr rfl fun j hj => ?_
    unfold kid
    rw [hm]
    split_ifs with hv
    · refine ih fun p hp => h p ?_
      rw [tables_split F (Finset.mem_range.mp hj), kid_of_valid F hv]
      simp [hp]
    · rfl

lemma kid_congr {j : ℕ} (hj : W' m j = W m j) (h : ∀ p ∈ kid F n W m j, W' p = W p) :
    kid F n W' m j = kid F n W m j := by
  unfold kid at h ⊢
  rw [hj]
  split_ifs with hv
  · exact tables_congr F fun p hp => h p (by simpa [hv] using hp)
  · rfl

lemma rest_congr (hm : ∀ j, j ≠ i → W' m j = W m j) (h : ∀ p ∈ rest F n W m i, W' p = W p) :
    rest F n W' m i = rest F n W m i := by
  refine Finset.sum_congr rfl fun j hj => kid_congr F (hm j (Finset.ne_of_mem_erase hj)) ?_
  intro p hp
  have hj' := Finset.mem_range.mp (Finset.mem_of_mem_erase hj)
  exact h p (Multiset.mem_of_le (kid_le_rest F hj' (Finset.ne_of_mem_erase hj)) hp)

/-! ### The entries of a tree -/

lemma leafTable_mem {a l : ℕ} (h : leafTable F n W m a = some l) : l ∈ tables F n W m := by
  induction n generalizing m with
  | zero =>
    simp only [leafTable, Option.some.injEq] at h
    simp [tables, h]
  | succ n ih =>
    simp only [leafTable] at h
    split_ifs at h with hv
    rw [tables_split F (slot_lt F (n + 1) a), kid_of_valid F hv]
    simp [ih h]

lemma leafTable_succ {a : ℕ} (h : F.valid (W m (slot F (n + 1) a))) :
    leafTable F (n + 1) W m a = leafTable F n W (F.next (W m (slot F (n + 1) a))) a := by
  simp [leafTable, h]

lemma entry_succ {a : ℕ} (h : F.valid (W m (slot F (n + 1) a))) :
    entry F (n + 1) W m a = entry F n W (F.next (W m (slot F (n + 1) a))) a := by
  rw [entry, leafTable_succ F h, entry]

lemma entry_of_not_valid {a : ℕ} (h : F.valid (W m (slot F (n + 1) a)) = false) :
    entry F (n + 1) W m a = 0 := by
  simp [entry, leafTable, h]

lemma leafTable_congr {a : ℕ} (h : ∀ p ∈ tables F n W m, W' p = W p) :
    leafTable F n W' m a = leafTable F n W m a := by
  induction n generalizing m with
  | zero => rfl
  | succ n ih =>
    simp only [leafTable]
    rw [h m (self_mem_tables F)]
    split_ifs with hv
    · refine ih fun p hp => h p ?_
      rw [tables_split F (slot_lt F (n + 1) a), kid_of_valid F hv]
      simp [hp]
    · rfl

lemma entry_congr {a : ℕ} (h : ∀ p ∈ tables F n W m, W' p = W p) :
    entry F n W' m a = entry F n W m a := by
  unfold entry
  rw [leafTable_congr F h]
  cases hl : leafTable F n W m a with
  | none => rfl
  | some l =>
    dsimp only
    rw [h l (leafTable_mem F hl)]

lemma entry_other {a : ℕ} (ha : slot F (n + 1) a ≠ i) (hm : ∀ j, j ≠ i → W' m j = W m j)
    (h : ∀ p ∈ rest F n W m i, W' p = W p) :
    entry F (n + 1) W' m a = entry F (n + 1) W m a := by
  have hw := hm _ ha
  cases hv : F.valid (W m (slot F (n + 1) a)) with
  | false => rw [entry_of_not_valid F hv, entry_of_not_valid F (by rw [hw]; exact hv)]
  | true =>
    rw [entry_succ F hv, entry_succ F (by rw [hw]; exact hv), hw]
    refine entry_congr F fun p hp => h p ?_
    refine Multiset.mem_of_le (kid_le_rest F (slot_lt F _ _) ha) ?_
    rwa [kid_of_valid F hv]

/-! ### Properties of all words of a tree -/

variable {P Q : ℕ → Prop}

lemma every_congr (hE : Every F P Q n W m) (h : ∀ p ∈ tables F n W m, W' p = W p) :
    Every F P Q n W' m := by
  induction n generalizing m with
  | zero =>
    intro j hj
    rw [h m (self_mem_tables F)]
    exact hE j hj
  | succ n ih =>
    intro j hj
    rw [h m (self_mem_tables F)]
    refine ⟨(hE j hj).1, fun hv => ih ((hE j hj).2 hv) fun p hp => h p ?_⟩
    rw [tables_split F hj, kid_of_valid F hv]
    simp [hp]

lemma every_replace (hE : Every F P Q (n + 1) W m) (hm : ∀ j, j ≠ i → W' m j = W m j)
    (h : ∀ p ∈ rest F n W m i, W' p = W p) (hP : P (W' m i))
    (hi : F.valid (W' m i) → Every F P Q n W' (F.next (W' m i))) : Every F P Q (n + 1) W' m := by
  intro j hj
  by_cases e : j = i
  · subst e
    exact ⟨hP, hi⟩
  rw [hm j e]
  refine ⟨(hE j hj).1, fun hv => every_congr F ((hE j hj).2 hv) fun p hp => h p ?_⟩
  refine Multiset.mem_of_le (kid_le_rest F hj e) ?_
  rwa [kid_of_valid F hv]

lemma wf_entry {a : ℕ} (hW : Wf F n W m) (hv : F.valid (entry F n W m a)) :
    F.inner (entry F n W m a) = false := by
  induction n generalizing m with
  | zero => exact hW _ (slot_lt F 0 a) hv
  | succ n ih =>
    cases h : F.valid (W m (slot F (n + 1) a)) with
    | false =>
      rw [entry_of_not_valid F h, F.not_valid_zero] at hv
      cases hv
    | true =>
      rw [entry_succ F h] at hv ⊢
      exact ih ((hW _ (slot_lt F _ a)).2 h) hv

lemma blank (h : ∀ j < F.fan, F.valid (W m j) = false) :
    Wf F n W m ∧ tables F n W m = {m} ∧ Empty F n W m := by
  cases n with
  | zero => exact ⟨fun j hj hv => by simp [h j hj] at hv, rfl, h⟩
  | succ n =>
    refine ⟨fun j hj => ?_, ?_, fun j hj => ⟨trivial, fun hv => by simp [h j hj] at hv⟩⟩
    · constructor <;> intro hv <;> simp [h j hj] at hv
    · rw [tables_succ, Finset.sum_eq_zero fun j hj =>
        kid_of_not_valid F (h j (Finset.mem_range.mp hj)), add_zero]

lemma entry_blank {a : ℕ} (h : ∀ j < F.fan, W m j = 0) : entry F n W m a = 0 := by
  cases n with
  | zero => exact h _ (slot_lt F 0 a)
  | succ n => exact entry_of_not_valid F (by rw [h _ (slot_lt F _ a)]; exact F.not_valid_zero)

/-! ### Writing an entry -/

/-- Two indices with the same positions down to the bottom. -/
def Same (n a b : ℕ) : Prop := ∀ k ≤ n, slot F k a = slot F k b

lemma Same.eq {a b : ℕ} (h : Same F n a b) (ha : a < F.fan ^ (n + 1)) (hb : b < F.fan ^ (n + 1)) :
    a = b := by
  induction n generalizing a b with
  | zero =>
    have := h 0 (le_refl 0)
    simpa [slot, Nat.mod_eq_of_lt (show a < F.fan by simpa using ha),
      Nat.mod_eq_of_lt (show b < F.fan by simpa using hb)] using this
  | succ n ih =>
    have hdiv : a / F.fan = b / F.fan := by
      refine ih (fun k hk => ?_) ?_ ?_
      · have := h (k + 1) (by omega)
        simpa [slot, pow_succ', ← Nat.div_div_eq_div_mul] using this
      · exact Nat.div_lt_of_lt_mul (by rwa [← pow_succ'])
      · exact Nat.div_lt_of_lt_mul (by rwa [← pow_succ'])
    have hmod : a % F.fan = b % F.fan := by simpa [slot] using h 0 (by omega)
    calc a = F.fan * (a / F.fan) + a % F.fan := (Nat.div_add_mod a _).symm
      _ = F.fan * (b / F.fan) + b % F.fan := by rw [hdiv, hmod]
      _ = b := Nat.div_add_mod b _

/-- **Writing one entry.** A word stored in the place of an entry changes that entry and no
other, and leaves the tree with the same pages. -/
theorem set_entry {a l w : ℕ} (hW : Wf F n W m) (hn : (tables F n W m).Nodup)
    (hl : leafTable F n W m a = some l) (hw : F.valid w → F.inner w = false) :
    Wf F n (put W l (slot F 0 a) w) m ∧
      tables F n (put W l (slot F 0 a) w) m = tables F n W m ∧
      entry F n (put W l (slot F 0 a) w) m a = w ∧
      ∀ b, ¬ Same F n a b → entry F n (put W l (slot F 0 a) w) m b = entry F n W m b := by
  induction n generalizing m with
  | zero =>
    simp only [leafTable, Option.some.injEq] at hl
    subst hl
    refine ⟨fun j hj => ?_, rfl, by simp [entry, leafTable], fun b hb => ?_⟩
    · by_cases e : j = slot F 0 a
      · rw [e, put_self]
        exact hw
      · rw [put_word _ _ e]
        exact hW j hj
    · have : slot F 0 b ≠ slot F 0 a := fun e => hb fun k hk => by
        rw [Nat.le_zero.mp hk, e]
      simp [entry, leafTable, put_word _ _ this]
  | succ n ih =>
    have hi := slot_lt F (n + 1) a
    cases hv : F.valid (W m (slot F (n + 1) a)) with
    | false => simp [leafTable, hv] at hl
    | true =>
      rw [leafTable_succ F hv] at hl
      have hs := tables_split F (W := W) (m := m) (n := n) hi
      rw [kid_of_valid F hv] at hs
      rw [hs, Multiset.nodup_add, Multiset.nodup_add] at hn
      obtain ⟨⟨-, hc, hmc⟩, -, hr⟩ := hn
      -- the page written is below this word of the root and nowhere else
      have hlm : m ≠ l := by
        rintro rfl
        exact Multiset.disjoint_left.mp hmc (Multiset.mem_singleton_self m) (leafTable_mem F hl)
      have hlr : ∀ p ∈ rest F n W m (slot F (n + 1) a),
          put W l (slot F 0 a) w p = W p := fun p hp => put_page W (by
        rintro rfl
        exact Multiset.disjoint_left.mp hr (Multiset.mem_add.mpr (.inr (leafTable_mem F hl))) hp) _
          _
      have hm' : put W l (slot F 0 a) w m = W m := put_page W hlm _ _
      obtain ⟨h1, h2, h3, h4⟩ := ih ((hW _ hi).2 hv) hc hl
      refine ⟨?_, ?_, ?_, fun b hb => ?_⟩
      · refine every_replace F hW (fun j _ => by rw [hm']) hlr ?_ fun _ => ?_
        · rw [hm']
          exact (hW _ hi).1
        · rw [hm']
          exact h1
      · rw [tables_split F hi, kid_of_valid F (by rw [hm']; exact hv), hm', h2,
          rest_congr F (fun j _ => by rw [hm']) hlr, ← hs]
      · rw [entry_succ F (by rw [hm']; exact hv), hm', h3]
      · by_cases e : slot F (n + 1) b = slot F (n + 1) a
        · rw [entry_succ F (by rw [hm', e]; exact hv), entry_succ F (by rw [e]; exact hv), hm', e]
          refine h4 b fun hs => hb fun k hk => ?_
          rcases Nat.lt_or_eq_of_le hk with hk | rfl
          · exact hs k (by omega)
          · exact e.symm
        · exact entry_other F e (fun j _ => by rw [hm']) hlr

/-! ### Trees without entries -/

lemma slot_add {a j k : ℕ} (hk : k ≤ n) : slot F k (j * F.fan ^ (n + 1) + a) = slot F k a := by
  obtain ⟨d, rfl⟩ := Nat.exists_eq_add_of_le hk
  have hp : 0 < F.fan ^ k := Nat.pow_pos F.fan_pos
  have : j * F.fan ^ (k + d + 1) + a = a + F.fan ^ k * (F.fan * (j * F.fan ^ d)) := by ring
  rw [slot, this, Nat.add_mul_div_left _ _ hp, Nat.add_mul_mod_self_left, slot]

lemma slot_top {a j : ℕ} (ha : a < F.fan ^ n) (hj : j < F.fan) :
    slot F n (j * F.fan ^ n + a) = j := by
  have hp : 0 < F.fan ^ n := Nat.pow_pos F.fan_pos
  rw [slot, Nat.add_comm, Nat.add_mul_div_right _ _ hp, Nat.div_eq_of_lt ha, Nat.zero_add,
    Nat.mod_eq_of_lt hj]

lemma entry_same {a b : ℕ} (h : Same F n a b) : entry F n W m a = entry F n W m b := by
  have hl : leafTable F n W m a = leafTable F n W m b := by
    induction n generalizing m with
    | zero => rfl
    | succ n ih =>
      simp only [leafTable, h (n + 1) (le_refl _)]
      split_ifs
      · exact ih fun k hk => h k (by omega)
      · rfl
  rw [entry, entry, hl, h 0 (by omega)]

lemma empty_of_entries (h : ∀ a < F.fan ^ (n + 1), F.valid (entry F n W m a) = false) :
    Empty F n W m := by
  induction n generalizing m with
  | zero =>
    intro j hj
    have := h j (by simpa using hj)
    simpa [entry, leafTable, slot, Nat.mod_eq_of_lt hj] using this
  | succ n ih =>
    refine fun j hj => ⟨trivial, fun hv => ih fun a ha => ?_⟩
    have htop : slot F (n + 1) (j * F.fan ^ (n + 1) + a) = j := slot_top F ha hj
    have := h (j * F.fan ^ (n + 1) + a) (by
      calc j * F.fan ^ (n + 1) + a < j * F.fan ^ (n + 1) + F.fan ^ (n + 1) := by omega
        _ = (j + 1) * F.fan ^ (n + 1) := by ring
        _ ≤ F.fan * F.fan ^ (n + 1) := Nat.mul_le_mul_right _ hj
        _ = F.fan ^ (n + 1 + 1) := by ring)
    rw [entry_succ F (by rw [htop]; exact hv), htop] at this
    rwa [entry_same F fun k hk => slot_add F hk] at this

attribute [irreducible] tables rest

end Xv6.PageTree
