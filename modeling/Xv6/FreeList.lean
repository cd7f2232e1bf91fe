import Mathlib.Algebra.BigOperators.Group.List.Basic
import Mathlib.Data.List.Pairwise
import Mathlib.Logic.Function.Basic
import Mathlib.Tactic.Common
import Mathlib.Tactic.Ring

/-!
Free lists with boundary coalescing: lists of blocks in the order of their addresses, and chains
of cells in memory that hold them.

A block is an address and a number of units of `w` bytes. Putting a block in front of a list
joins it with the first block if the two touch; the chain in memory follows by one update of
the cell at the block's address.
-/

namespace Xv6.FreeList

open Function

abbrev Block := ℕ × ℕ

variable {w B a b e : ℕ} {x y z : Block} {l l' : List Block}

def stop (w : ℕ) (x : Block) : ℕ := x.1 + w * x.2

def Apart (w : ℕ) (x y : Block) : Prop := stop w x < y.1

def Disj (w : ℕ) (x y : Block) : Prop := stop w x ≤ y.1 ∨ stop w y ≤ x.1

def Covers (w : ℕ) (x : Block) (i : ℕ) : Prop := x.1 ≤ i ∧ i < stop w x

lemma le_stop (w : ℕ) (x : Block) : x.1 ≤ stop w x := Nat.le_add_right _ _

lemma lt_stop (hw : 0 < w) (h : 0 < x.2) : x.1 < stop w x :=
  Nat.lt_add_of_pos_right (Nat.mul_pos hw h)

lemma Apart.trans (h : Apart w x y) (h' : Apart w y z) : Apart w x z :=
  Nat.lt_trans h (Nat.lt_of_le_of_lt (le_stop w y) h')

lemma Apart.lt (h : Apart w x y) : x.1 < y.1 := Nat.lt_of_le_of_lt (le_stop w x) h

lemma Disj.symm (h : Disj w x y) : Disj w y x := Or.symm h

instance (w : ℕ) : Std.Symm (Disj w) := ⟨fun _ _ h => h.symm⟩

lemma Apart.disj (h : Apart w x y) : Disj w x y := .inl (Nat.le_of_lt h)

lemma Disj.ne (hw : 0 < w) (hx : 0 < x.2) (hy : 0 < y.2) (h : Disj w x y) : x.1 ≠ y.1 := by
  have h1 := lt_stop hw hx
  have h2 := lt_stop hw hy
  rcases h with h | h <;> omega

lemma Disj.not_covers (h : Disj w x y) {i : ℕ} (hx : Covers w x i) : ¬ Covers w y i := by
  rintro ⟨h1, h2⟩
  obtain ⟨h3, h4⟩ := hx
  rcases h with h | h <;> omega

lemma disj_of_covers (hw : 0 < w) (hx : 0 < x.2) (hy : 0 < y.2)
    (h : ∀ i, Covers w x i → ¬ Covers w y i) : Disj w x y := by
  by_contra hn
  have h1 := lt_stop hw hx
  have h2 := lt_stop hw hy
  unfold Disj at hn
  refine h (max x.1 y.1) ⟨Nat.le_max_left _ _, ?_⟩ ⟨Nat.le_max_right _ _, ?_⟩ <;> omega

def total (l : List Block) : ℕ := (l.map (·.2)).sum

@[simp] lemma total_nil : total [] = 0 := rfl

@[simp] lemma total_cons (x : Block) (l : List Block) : total (x :: l) = x.2 + total l :=
  List.sum_cons

lemma total_append (l l' : List Block) : total (l ++ l') = total l + total l' := by
  rw [total, List.map_append, List.sum_append, total, total]

lemma length_le_total (h : ∀ x ∈ l, 0 < x.2) : l.length ≤ total l := by
  induction l with
  | nil => simp
  | cons x l ih =>
    have := ih fun y hy => h y (List.mem_cons_of_mem _ hy)
    have := h x List.mem_cons_self
    rw [List.length_cons, total_cons]
    omega

/-! ### Joining blocks -/

/-- Put a block in front of a list, joined with the first one if they touch. -/
def glue (w : ℕ) (x : Block) : List Block → List Block
  | [] => [x]
  | y :: l => if stop w x = y.1 then (x.1, x.2 + y.2) :: l else x :: y :: l

lemma stop_join (h : stop w x = y.1) : stop w (x.1, x.2 + y.2) = stop w y := by
  unfold stop at *
  dsimp only
  rw [Nat.mul_add, ← Nat.add_assoc, h]

lemma glue_cons (w : ℕ) (x : Block) (l : List Block) :
    ∃ n l', glue w x l = (x.1, n) :: l' ∧ x.2 ≤ n := by
  cases l with
  | nil => exact ⟨x.2, [], rfl, le_rfl⟩
  | cons y l =>
    rw [glue]
    split_ifs
    · exact ⟨x.2 + y.2, l, rfl, Nat.le_add_right _ _⟩
    · exact ⟨x.2, y :: l, rfl, le_rfl⟩

lemma total_glue (w : ℕ) (x : Block) (l : List Block) : total (glue w x l) = x.2 + total l := by
  cases l with
  | nil => rfl
  | cons y l =>
    rw [glue]
    split_ifs <;> simp [Nat.add_assoc]

lemma length_glue (w : ℕ) (x : Block) (l : List Block) :
    (glue w x l).length ≤ l.length + 1 := by
  cases l with
  | nil => exact le_rfl
  | cons y l =>
    rw [glue]
    split_ifs
    · exact Nat.le_succ _
    · exact le_rfl

lemma covers_glue (w : ℕ) (x : Block) (l : List Block) (i : ℕ) :
    (∃ z ∈ glue w x l, Covers w z i) ↔ Covers w x i ∨ ∃ z ∈ l, Covers w z i := by
  cases l with
  | nil => simp [glue]
  | cons y l =>
    rw [glue]
    split_ifs with h
    · have hj := stop_join h
      have hcov : Covers w (x.1, x.2 + y.2) i ↔ Covers w x i ∨ Covers w y i := by
        have h1 := le_stop w x
        have h2 := le_stop w y
        simp only [Covers, hj]
        omega
      simp only [List.exists_mem_cons_iff, hcov, or_assoc]
    · simp only [List.exists_mem_cons_iff]

lemma mem_glue_start (h : z ∈ glue w x l) : z.1 = x.1 ∨ z ∈ l := by
  cases l with
  | nil =>
    obtain rfl := List.mem_singleton.mp h
    exact .inl rfl
  | cons y l =>
    rw [glue] at h
    split_ifs at h
    · rcases List.mem_cons.mp h with rfl | h
      · exact .inl rfl
      · exact .inr (List.mem_cons_of_mem _ h)
    · rcases List.mem_cons.mp h with rfl | h
      · exact .inl rfl
      · exact .inr h

lemma pos_glue (hx : 0 < x.2) (hl : ∀ y ∈ l, 0 < y.2) : ∀ z ∈ glue w x l, 0 < z.2 := by
  intro z hz
  cases l with
  | nil =>
    obtain rfl := List.mem_singleton.mp hz
    exact hx
  | cons y l =>
    rw [glue] at hz
    split_ifs at hz
    · rcases List.mem_cons.mp hz with rfl | hz
      · exact Nat.add_pos_left hx _
      · exact hl z (List.mem_cons_of_mem _ hz)
    · rcases List.mem_cons.mp hz with rfl | hz
      · exact hx
      · exact hl z hz

lemma pairwise_glue (hl : l.Pairwise (Apart w)) (hx : ∀ y ∈ l, stop w x ≤ y.1) :
    (glue w x l).Pairwise (Apart w) := by
  cases l with
  | nil => exact List.pairwise_singleton _ _
  | cons y l =>
    obtain ⟨hy, hl⟩ := List.pairwise_cons.mp hl
    rw [glue]
    split_ifs with h
    · refine List.pairwise_cons.mpr ⟨fun z hz => ?_, hl⟩
      rw [Apart, stop_join h]
      exact hy z hz
    · have hxy : Apart w x y := Nat.lt_of_le_of_ne (hx y List.mem_cons_self) h
      refine List.pairwise_cons.mpr ⟨fun z hz => ?_, List.pairwise_cons.mpr ⟨hy, hl⟩⟩
      rcases List.mem_cons.mp hz with rfl | hz
      · exact hxy
      · exact hxy.trans (hy z hz)

structure Grown (w : ℕ) (l l' : List Block) (b : Block) : Prop where
  total : total l' = total l + b.2
  covers : ∀ i, (∃ x ∈ l', Covers w x i) ↔ (∃ x ∈ l, Covers w x i) ∨ Covers w b i
  pos : (∀ x ∈ l, 0 < x.2) → 0 < b.2 → ∀ x ∈ l', 0 < x.2
  big : ∃ z ∈ l', b.2 ≤ z.2
  length : l'.length ≤ l.length + 1

lemma grown_glue (w : ℕ) (b : Block) (l : List Block) : Grown w l (glue w b l) b := by
  obtain ⟨n, l', hl, hn⟩ := glue_cons w b l
  refine ⟨by rw [total_glue, Nat.add_comm], fun i => by rw [covers_glue, or_comm],
    fun hl hb => pos_glue hb hl, ⟨(b.1, n), by rw [hl]; exact List.mem_cons_self, hn⟩,
    length_glue _ _ _⟩

lemma grown_between (w : ℕ) (b z : Block) (l₁ l₂ : List Block) :
    Grown w (l₁ ++ z :: l₂) (l₁ ++ glue w z (glue w b l₂)) b := by
  obtain ⟨n, l', hl, hn⟩ := glue_cons w b l₂
  refine ⟨?_, fun i => ?_, fun hpos hb x hx => ?_, ?_, ?_⟩
  · simp only [total_append, total_glue, total_cons]
    omega
  · have hexists : ∀ (a c : List Block), (∃ x ∈ a ++ c, Covers w x i) ↔
        (∃ x ∈ a, Covers w x i) ∨ ∃ x ∈ c, Covers w x i := fun a c => by
      simp only [List.mem_append, or_and_right, exists_or]
    rw [hexists, hexists, covers_glue, covers_glue, List.exists_mem_cons_iff]
    simp only [or_comm, or_left_comm]
  · rcases List.mem_append.mp hx with hx | hx
    · exact hpos x (List.mem_append_left _ hx)
    · refine pos_glue (hpos z (by simp)) (pos_glue hb fun y hy => hpos y (by simp [hy])) x hx
  · rw [hl, glue]
    split_ifs
    · exact ⟨(z.1, z.2 + n), by simp, by dsimp only; omega⟩
    · exact ⟨(b.1, n), by simp, hn⟩
  · have h1 := length_glue w z (glue w b l₂)
    have h2 := length_glue w b l₂
    simp only [List.length_append, List.length_cons]
    omega

/-- A block has been cut into the blocks `r`, which stay, and the block `z`, which goes. -/
structure Carved (w : ℕ) (y : Block) (r : List Block) (z : Block) : Prop where
  total : total r + z.2 = y.2
  pos : (∀ x ∈ r, 0 < x.2) ∧ 0 < z.2
  stays : ∀ x ∈ r, x.1 = y.1 ∧ stop w x ≤ stop w y
  goes : ∀ i, Covers w z i → Covers w y i
  disj : ∀ x ∈ r, Disj w x z
  apart : r.Pairwise (Apart w)

lemma carved_whole (w : ℕ) (hy : 0 < y.2) : Carved w y [] y :=
  ⟨by simp, ⟨by simp, hy⟩, by simp, fun _ h => h, by simp, .nil⟩

lemma carved_tail (w : ℕ) {n k : ℕ} (hy : k + n = y.2) (hn : 0 < n) (hk : 0 < k) :
    Carved w y [(y.1, k)] (y.1 + w * k, n) := by
  have hstop : stop w (y.1 + w * k, n) = stop w y := by
    unfold stop
    rw [← hy, Nat.mul_add, Nat.add_assoc]
  have hle : y.1 + w * k ≤ stop w y := hstop ▸ le_stop w (y.1 + w * k, n)
  refine ⟨by simpa using hy, ⟨by simpa using hk, hn⟩, ?_, ?_, ?_,
    List.pairwise_singleton _ _⟩
  · intro x hx
    obtain rfl := List.mem_singleton.mp hx
    exact ⟨rfl, hle⟩
  · rintro i ⟨h1, h2⟩
    exact ⟨(Nat.le_add_right _ _).trans h1, hstop ▸ h2⟩
  · intro x hx
    obtain rfl := List.mem_singleton.mp hx
    exact .inl le_rfl

lemma Carved.pairwise (hc : Carved w y r z) {l₁ l₂ : List Block}
    (h : (l₁ ++ y :: l₂).Pairwise (Apart w)) : (l₁ ++ (r ++ l₂)).Pairwise (Apart w) := by
  simp only [List.pairwise_append, List.pairwise_cons] at h ⊢
  obtain ⟨h1, ⟨h2, h3⟩, h4⟩ := h
  refine ⟨h1, ⟨hc.apart, h3, fun x hx u hu => ?_⟩, fun u hu x hx => ?_⟩
  · exact (hc.stays x hx).2.trans_lt (h2 u hu)
  · rcases List.mem_append.mp hx with hx | hx
    · rw [Apart, (hc.stays x hx).1]
      exact h4 u hu y List.mem_cons_self
    · exact h4 u hu x (List.mem_cons_of_mem _ hx)

/-! ### Chains of cells -/

structure Cell where
  ptr : ℕ
  size : ℕ
  deriving DecidableEq, Repr

variable {m m' : ℕ → Cell}

/-- The pointers run from `a` through the blocks of the list to `e`. -/
def Seg (m : ℕ → Cell) : ℕ → List Block → ℕ → Prop
  | a, [], e => a = e
  | a, x :: l, e => a = x.1 ∧ (m a).size = x.2 ∧ Seg m (m a).ptr l e

lemma seg_append : Seg m a (l ++ l') e ↔ ∃ b, Seg m a l b ∧ Seg m b l' e := by
  induction l generalizing a with
  | nil => simp [Seg]
  | cons x l ih =>
    simp only [List.cons_append, Seg, ih]
    constructor
    · rintro ⟨ha, hs, b, h1, h2⟩
      exact ⟨b, ⟨ha, hs, h1⟩, h2⟩
    · rintro ⟨b, ⟨ha, hs, h1⟩, h2⟩
      exact ⟨ha, hs, b, h1, h2⟩

lemma Seg.frame (h : Seg m a l e) (hm : ∀ x ∈ l, m' x.1 = m x.1) : Seg m' a l e := by
  induction l generalizing a with
  | nil => exact h
  | cons x l ih =>
    obtain ⟨rfl, hs, ht⟩ := h
    have hx := hm x List.mem_cons_self
    refine ⟨rfl, by rw [hx, hs], ?_⟩
    rw [hx]
    exact ih ht fun y hy => hm y (List.mem_cons_of_mem _ hy)

lemma Seg.size (h : Seg m a l e) (hx : x ∈ l) : (m x.1).size = x.2 := by
  induction l generalizing a with
  | nil => cases hx
  | cons y l ih =>
    obtain ⟨rfl, hs, ht⟩ := h
    rcases List.mem_cons.mp hx with rfl | hx
    · exact hs
    · exact ih ht hx

lemma Seg.split (h : Seg m a (l ++ x :: l') e) : Seg m a l x.1 ∧ Seg m (m x.1).ptr l' e := by
  obtain ⟨b, h1, rfl, -, h2⟩ := seg_append.mp h
  exact ⟨h1, h2⟩

lemma Seg.unlink {q : Block} (h : Seg m a (l ++ q :: x :: l') e) (hq : ∀ y ∈ l ++ l', y.1 ≠ q.1) :
    Seg (update m q.1 { m q.1 with ptr := (m x.1).ptr }) a (l ++ q :: l') e := by
  have hframe : ∀ y ∈ l ++ l',
      update m q.1 { m q.1 with ptr := (m x.1).ptr } y.1 = m y.1 := fun y hy =>
    update_of_ne (hq y hy) _ _
  have hsize := h.size (x := q) (by simp)
  obtain ⟨hs, hptr, -, hs'⟩ := h.split
  rw [hptr] at hs'
  refine seg_append.mpr ⟨q.1, hs.frame fun y hy => hframe y (by simp [hy]), rfl, ?_, ?_⟩
  · rw [update_self]
    exact hsize
  · rw [update_self]
    exact hs'.frame fun y hy => hframe y (by simp [hy])

lemma Seg.resize {k : ℕ} (h : Seg m a (l ++ x :: l') e) (hx : m' x.1 = { m x.1 with size := k })
    (hm : ∀ y ∈ l ++ l', m' y.1 = m y.1) : Seg m' a (l ++ (x.1, k) :: l') e := by
  obtain ⟨hs, hs'⟩ := h.split
  refine seg_append.mpr ⟨x.1, hs.frame fun y hy => hm y (by simp [hy]), rfl, ?_, ?_⟩
  · rw [hx]
  · rw [hx]
    exact hs'.frame fun y hy => hm y (by simp [hy])

/-- The cell at `a` made to point to `next`, with the block there taken in if they touch. Sizes
are kept modulo `B`. -/
def attach (w B : ℕ) (m : ℕ → Cell) (a next : ℕ) : ℕ → Cell :=
  if a + w * (m a).size = next then
    update m a ⟨(m next).ptr, ((m a).size + (m next).size) % B⟩
  else update m a ⟨next, (m a).size⟩

lemma attach_ne (h : b ≠ a) (next : ℕ) : attach w B m a next b = m b := by
  unfold attach
  split_ifs <;> exact update_of_ne h _ _

lemma Seg.attach (h : Seg m a l e) (hx : ∀ y ∈ l, y.1 ≠ x.1) (hs : (m x.1).size = x.2)
    (he : l = [] → stop w x ≠ e) (hB : x.2 + total l < B) :
    Seg (attach w B m x.1 a) x.1 (glue w x l) e := by
  have hframe : ∀ {c : Cell} {l' : List Block}, (∀ y ∈ l', y ∈ l) → ∀ {b}, Seg m b l' e →
      Seg (update m x.1 c) b l' e := fun hsub _ hseg =>
    hseg.frame fun y hy => update_of_ne (hx y (hsub y hy)) _ _
  unfold FreeList.attach
  rw [hs]
  cases l with
  | nil =>
    obtain rfl : a = e := h
    rw [if_neg (show ¬ x.1 + w * x.2 = a from he rfl)]
    refine ⟨rfl, by rw [update_self], ?_⟩
    rw [update_self]
    rfl
  | cons y l =>
    obtain ⟨rfl, hy, ht⟩ := h
    rw [glue]
    change Seg (if stop w x = y.1 then _ else _) _ _ _
    split_ifs with hj
    · refine ⟨rfl, ?_, ?_⟩
      · rw [update_self]
        dsimp only
        rw [total_cons] at hB
        rw [hy, Nat.mod_eq_of_lt (by omega)]
      · rw [update_self]
        exact hframe (fun z hz => List.mem_cons_of_mem _ hz) ht
    · refine ⟨rfl, by rw [update_self], ?_⟩
      rw [update_self]
      exact hframe (fun z hz => hz) ⟨rfl, hy, ht⟩

end Xv6.FreeList
