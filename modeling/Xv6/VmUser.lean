import Mathlib.Algebra.BigOperators.Intervals
import Mathlib.Order.Interval.Finset.Nat
import Xv6.VmTable

/-!
User memory: what the functions of `vm.c` that give pages to an address space and take them
away do, with every page accounted for.

`leaves e` are the pages that a table with the entries `e` maps below the trapframe. A table
in use stands as `Table s t e (leaves e + F)`: it owns its own pages and the pages it maps,
and `F` is everybody else's.
-/

namespace Xv6.VmUser

open Function Bytes Hoare PageTree VmModel VmTable

/-! ### The pages a table maps -/

def UPAGES : ℕ := TRAPFRAME / PGSIZE

lemma UPAGES_eq : UPAGES = 2 ^ 26 - 2 := rfl

lemma UPAGES_mul : UPAGES * PGSIZE = TRAPFRAME := by
  rw [UPAGES_eq]
  unfold TRAPFRAME TRAMPOLINE MAXVA PGSIZE
  omega

lemma user_lt {a : ℕ} (h : a < UPAGES) : a * PGSIZE < MAXVA ∧ a < 512 ^ 3 := by
  rw [UPAGES_eq] at h
  unfold MAXVA PGSIZE
  omega

def leaf (w : ℕ) : Multiset ℕ := if has w PTE_V then {PTE2PA w} else 0

def leaves (e : ℕ → ℕ) : Multiset ℕ := ∑ a ∈ Finset.range UPAGES, leaf (e a)

variable {e e' : ℕ → ℕ} {a w : ℕ}

lemma leaf_of_valid (h : has w PTE_V) : leaf w = {PTE2PA w} := if_pos h

lemma leaf_of_not_valid (h : has w PTE_V = false) : leaf w = 0 := by
  rw [leaf, h]
  rfl

@[simp] lemma leaf_zero : leaf 0 = 0 := rfl

lemma leaves_congr (h : ∀ a < UPAGES, e' a = e a) : leaves e' = leaves e :=
  Finset.sum_congr rfl fun a ha => by rw [h a (Finset.mem_range.mp ha)]

lemma leaves_update (ha : a < UPAGES) :
    leaves (update e a w) + leaf (e a) = leaves e + leaf w := by
  have hm := Finset.mem_range.mpr ha
  have hr : ∑ b ∈ (Finset.range UPAGES).erase a, leaf (update e a w b) =
      ∑ b ∈ (Finset.range UPAGES).erase a, leaf (e b) :=
    Finset.sum_congr rfl fun b hb => by rw [update_of_ne (Finset.ne_of_mem_erase hb)]
  rw [leaves, leaves, ← Finset.add_sum_erase _ _ hm,
    ← Finset.add_sum_erase _ (fun b => leaf (e b)) hm, hr, update_self]
  abel

lemma leaves_map (ha : a < UPAGES) (hinv : has (e a) PTE_V = false) (hv : has w PTE_V) :
    leaves (update e a w) = {PTE2PA w} + leaves e := by
  have := leaves_update (e := e) (w := w) ha
  rwa [leaf_of_not_valid hinv, leaf_of_valid hv, add_zero, add_comm (leaves e)] at this

lemma leaves_unmap (ha : a < UPAGES) (hv : has (e a) PTE_V) :
    leaves e = {PTE2PA (e a)} + leaves (update e a 0) := by
  have := leaves_update (e := e) (w := 0) ha
  rw [leaf_of_valid hv, leaf_zero, add_zero] at this
  rw [← this, add_comm]

lemma leaves_high (ha : UPAGES ≤ a) : leaves (update e a w) = leaves e :=
  leaves_congr fun b hb => update_of_ne (by omega) _ _

lemma leaves_zero (h : ∀ a < UPAGES, e a = 0) : leaves e = 0 :=
  Finset.sum_eq_zero fun a ha => by rw [h a (Finset.mem_range.mp ha), leaf_zero]

def leavesIn (e : ℕ → ℕ) (lo hi : ℕ) : Multiset ℕ := ∑ a ∈ Finset.Ico lo hi, leaf (e a)

lemma leavesIn_self (lo : ℕ) : leavesIn e lo lo = 0 := by simp [leavesIn]

lemma leavesIn_cons {lo hi : ℕ} (h : lo < hi) :
    leavesIn e lo hi = leaf (e lo) + leavesIn e (lo + 1) hi :=
  Finset.sum_eq_sum_Ico_succ_bot h _

lemma leaf_le_leaf (h : has (e a) PTE_V → e' a = e a) : leaf (e a) ≤ leaf (e' a) := by
  by_cases hv : has (e a) PTE_V
  · rw [h hv]
  · rw [leaf_of_not_valid (by simpa using hv)]
    exact Multiset.zero_le _

lemma leaves_mono (h : ∀ a < UPAGES, has (e a) PTE_V → e' a = e a) : leaves e ≤ leaves e' := by
  unfold leaves
  generalize UPAGES = k at h
  exact Finset.sum_le_sum fun a ha => leaf_le_leaf (h a (Finset.mem_range.mp ha))

lemma le_card_leaves {k : ℕ} (hk : k ≤ UPAGES) (h : ∀ a < k, has (e a) PTE_V) :
    k ≤ (leaves e).card := by
  have hsub : Finset.range k ⊆ Finset.range UPAGES := Finset.range_mono hk
  calc k = ∑ a ∈ Finset.range k, (leaf (e a)).card := by
        rw [Finset.sum_congr rfl fun a ha => by
          rw [leaf_of_valid (h a (Finset.mem_range.mp ha)), Multiset.card_singleton]]
        simp
    _ ≤ ∑ a ∈ Finset.range UPAGES, (leaf (e a)).card := Finset.sum_le_sum_of_subset hsub
    _ = (leaves e).card := by rw [leaves, Multiset.card_sum]

attribute [irreducible] leaves

lemma mem_leaves (ha : a < UPAGES) (hv : has (e a) PTE_V) : PTE2PA (e a) ∈ leaves e := by
  rw [leaves_unmap ha hv]
  exact mem_own _ _

/-! ### Unmapping -/

def cleared (e : ℕ → ℕ) (lo n : ℕ) : ℕ → ℕ := fun a => if lo ≤ a ∧ a < lo + n then 0 else e a

lemma cleared_zero (lo : ℕ) : cleared e lo 0 = e := by
  funext a
  exact if_neg (by omega)

lemma cleared_at (lo n : ℕ) : cleared e lo n (lo + n) = e (lo + n) := if_neg (by omega)

lemma cleared_succ (lo n : ℕ) :
    cleared e lo (n + 1) = update (cleared e lo n) (lo + n) 0 := by
  funext a
  by_cases h : a = lo + n
  · subst h
    rw [update_self, cleared, if_pos (by omega)]
  · rw [update_of_ne h]
    have : lo ≤ a ∧ a < lo + (n + 1) ↔ lo ≤ a ∧ a < lo + n := by omega
    simp only [cleared, this]

lemma cleared_skip (lo n : ℕ) (h : e (lo + n) = 0) : cleared e lo (n + 1) = cleared e lo n := by
  rw [cleared_succ, ← h, ← cleared_at (e := e) lo n, update_eq_self]

variable [Layout] {s t u : Mach} {root va p : ℕ} {R F : Multiset ℕ}

lemma leaves_not_frame (h : Table s root e (leaves e + F)) (hp : p ∈ leaves e) : p ∉ F := by
  have hn := (Multiset.nodup_add.mp (Multiset.nodup_add.mp h.owns.nodup).2.1).2.1
  exact Multiset.disjoint_left.mp (Multiset.nodup_add.mp hn).2.2 hp

omit [Layout] in
lemma leaves_eq_leavesIn {lo n : ℕ} (h : lo + n ≤ UPAGES) :
    leaves e = leavesIn e lo (lo + n) + leaves (cleared e lo n) := by
  induction n with
  | zero => rw [Nat.add_zero, leavesIn_self, cleared_zero, zero_add]
  | succ n ih =>
    have hup := leaves_update (e := cleared e lo n) (a := lo + n) (w := 0) (by omega)
    rw [← cleared_succ, cleared_at, leaf_zero, add_zero] at hup
    rw [ih (by omega), ← hup, leavesIn, leavesIn, ← Nat.add_assoc,
      Finset.sum_Ico_succ_top (by omega)]
    abel

def released (doFree : Bool) (e : ℕ → ℕ) (lo hi : ℕ) : Multiset ℕ :=
  if doFree then leavesIn e lo hi else 0

omit [Layout] in
lemma released_cons {doFree : Bool} {lo hi : ℕ} (h : lo < hi) : released doFree e lo hi =
    (if doFree then leaf (e lo) else 0) + released doFree e (lo + 1) hi := by
  cases doFree with
  | false => rfl
  | true => exact leavesIn_cons h

/-- **Unmapping.** `uvmunmap` removes the mappings of its range, and gives back their pages if
it is to. It can only stop where the range goes beyond the addresses. -/
theorem uvmunmap_spec {lo n : ℕ} (doFree : Bool)
    (h : Table s root e (released doFree e lo (lo + n) + R)) (hn : (lo + n) * PGSIZE < 2 ^ 64) :
    wpOr (fun x => x = .walk ∧ MAXVA < (lo + n) * PGSIZE)
      (uvmunmap root (lo * PGSIZE) n doFree) s fun _ u =>
        Same R s u ∧ Table u root (cleared e lo n) R := by
  have hcount : ((lo * PGSIZE + n * PGSIZE) % 2 ^ 64 - lo * PGSIZE) / PGSIZE = n := by
    unfold PGSIZE at hn ⊢
    omega
  rw [uvmunmap, if_neg (by simp), hcount]
  refine wpOr_bind.mpr ((wpOr_search (I := fun k u => Same R s u ∧
    Table u root (cleared e lo k) (released doFree e (lo + k) (lo + n) + R))
    (Q := fun _ u => Same R s u ∧ Table u root (cleared e lo n) R)
    ?_ ?_ ?_).mono fun _ u hu => wpOr_pure.mpr hu)
  · rw [cleared_zero]
    exact ⟨Same.refl R s, h⟩
  · rintro k u - hk ⟨hs, hu⟩
    rw [Nat.zero_add] at hk
    have hpage : (lo * PGSIZE + k * PGSIZE) / PGSIZE = lo + k := by
      unfold PGSIZE
      omega
    by_cases hM : MAXVA ≤ lo * PGSIZE + k * PGSIZE
    · refine wpOr_stop (e := .walk) (by rw [walk, if_pos hM]; rfl) ⟨rfl, ?_⟩
      unfold PGSIZE at hM ⊢
      omega
    have hlt : lo + k < 512 ^ 3 := by
      rw [← hpage]
      exact page_lt (by omega)
    rw [released_cons (by omega), Nat.add_assoc lo k 1] at hu
    -- where there is no mapping, nothing is to be given back
    have hskip : e (lo + k) = 0 →
        Table u root (cleared e lo (k + 1)) (released doFree e (lo + (k + 1)) (lo + n) + R) := by
      intro h0
      rw [h0, leaf_zero, ite_self, zero_add] at hu
      rwa [cleared_skip lo k h0]
    refine wp.bindOr (hu.entries.walk (by omega)) ?_
    rintro r u' ⟨rfl, hr⟩
    rw [hpage, cleared_at] at hr
    obtain ⟨rfl, h0⟩ | ⟨l, rfl, hl⟩ := hr
    · exact wpOr_pure.mpr (round_none.mpr ⟨hs, hskip h0⟩)
    · have hw := hu.entries.word hlt hl
      rw [cleared_at] at hw
      simp only [readPte, wpOr_bind, wpOr_get, wpOr_pure]
      cases hv : has (words u'.mem l (slot sv39 0 (lo + k))) PTE_V with
      | false =>
        simp only [Bool.not_false, if_true, wpOr_pure, round_none]
        exact ⟨hs, hskip (by rw [← hw, mapping_of_not_valid hv])⟩
      | true =>
        rw [mapping_of_valid hv] at hw
        rw [hw] at hv
        rw [leaf_of_valid hv] at hu
        simp only [hw, Bool.not_true, Bool.false_eq_true, if_false]
        have hset : ∀ {w}, Same R s w → LeafAt w root (lo + k) l →
            Table w root (cleared e lo k) (released doFree e (lo + (k + 1)) (lo + n) + R) →
            Same R s (w.setWord l (slot sv39 0 (lo + k)) 0) ∧
              Table (w.setWord l (slot sv39 0 (lo + k)) 0) root (cleared e lo (k + 1))
                (released doFree e (lo + (k + 1)) (lo + n) + R) := by
          intro w hsw hlw hw
          obtain ⟨h1, h2⟩ := hw.set hlt hlw (w := 0) (by decide) (fun h => by cases h)
          rw [mapping_zero, ← cleared_succ] at h1
          exact ⟨hsw.trans h2.right, h1⟩
        cases doFree with
        | false =>
          simp only [Bool.false_eq_true, if_false, zero_add, writePte] at hu ⊢
          simp only [wpOr_bind, wpOr_modify, wpOr_pure, round_none]
          exact hset hs hl hu
        | true =>
          rw [if_pos rfl, add_assoc] at hu
          simp only [if_true]
          refine wp.bindOr hu.kfree ?_
          rintro _ w ⟨hw1, hw2, hw3⟩
          simp only [writePte, wpOr_bind, wpOr_modify, wpOr_pure, round_none]
          exact hset (hs.trans hw1.right) (hw3 _ _ hl) hw2
  · rintro t ⟨hs, ht⟩
    rw [Nat.zero_add, released, leavesIn_self, ite_self, zero_add] at ht
    exact ⟨hs, ht⟩

lemma uvmunmap_free {lo n : ℕ} (h : Table s root e (leaves e + F)) (hn : lo + n ≤ UPAGES) :
    wp (uvmunmap root (lo * PGSIZE) n true) s fun _ u =>
      Same (leaves (cleared e lo n) + F) s u ∧
      Table u root (cleared e lo n) (leaves (cleared e lo n) + F) := by
  rw [leaves_eq_leavesIn hn, add_assoc] at h
  rw [UPAGES_eq] at hn
  refine (uvmunmap_spec true h ?_).returns fun x hx => ?_
  · unfold PGSIZE
    omega
  · have := hx.2
    unfold MAXVA PGSIZE at this
    omega

lemma uvmunmap_keep (h : Table s root e R) (ha : a * PGSIZE < MAXVA) :
    wp (uvmunmap root (a * PGSIZE) 1 false) s fun _ u => Same R s u ∧
      Table u root (cleared e a 1) R := by
  have hle : (a + 1) * PGSIZE ≤ MAXVA := by
    unfold MAXVA PGSIZE at ha ⊢
    omega
  have h64 : MAXVA < 2 ^ 64 := by decide
  refine (uvmunmap_spec false (by rwa [released, if_neg (by simp), zero_add])
    (by omega)).returns fun x hx => ?_
  exact absurd hx.2 (by omega)

/-! ### Sizes in pages -/

def pages (sz : ℕ) : ℕ := (sz + (PGSIZE - 1)) / PGSIZE

omit [Layout] in
lemma PGROUNDUP_eq {sz : ℕ} (h : sz ≤ TRAPFRAME) : PGROUNDUP sz = pages sz * PGSIZE := by
  unfold PGROUNDUP pages
  have : sz + (PGSIZE - 1) < 2 ^ 64 := by
    unfold TRAPFRAME TRAMPOLINE MAXVA PGSIZE at *
    omega
  rw [Nat.mod_eq_of_lt this]

omit [Layout] in
lemma pages_le {sz : ℕ} (h : sz ≤ TRAPFRAME) : pages sz ≤ UPAGES := by
  rw [UPAGES_eq]
  unfold TRAPFRAME TRAMPOLINE MAXVA PGSIZE at h
  unfold pages PGSIZE
  omega

omit [Layout] in
lemma pages_mono {sz sz' : ℕ} (h : sz ≤ sz') : pages sz ≤ pages sz' :=
  Nat.div_le_div_right (by omega)

omit [Layout] in
lemma pages_mul (a : ℕ) : pages (a * PGSIZE) = a := by
  unfold pages PGSIZE
  omega

/-! ### Growing and shrinking -/

lemma uvmdealloc_wp {oldsz newsz : ℕ} (h : Table s root e (leaves e + F)) (ho : oldsz ≤ TRAPFRAME)
    (hlt : newsz < oldsz) : wp (uvmdealloc root oldsz newsz) s fun r u => r = newsz ∧
      Same (leaves (cleared e (pages newsz) (pages oldsz - pages newsz)) + F) s u ∧
      Table u root (cleared e (pages newsz) (pages oldsz - pages newsz))
        (leaves (cleared e (pages newsz) (pages oldsz - pages newsz)) + F) := by
  have hle := pages_mono hlt.le
  have hup := pages_le ho
  have hsum : pages newsz + (pages oldsz - pages newsz) ≤ UPAGES := by omega
  rw [uvmdealloc, if_neg (by omega), PGROUNDUP_eq ho, PGROUNDUP_eq (by omega)]
  by_cases hp : pages newsz < pages oldsz
  · have hn : (pages oldsz * PGSIZE - pages newsz * PGSIZE) / PGSIZE =
        pages oldsz - pages newsz := by
      rw [← Nat.sub_mul]
      exact Nat.mul_div_cancel _ (by decide)
    have hint : (Int.bmod ((pages oldsz - pages newsz : ℕ) : ℤ) (2 ^ 32) % 2 ^ 64).toNat =
        pages oldsz - pages newsz := by
      rw [UPAGES_eq] at hup
      have : Int.bmod ((pages oldsz - pages newsz : ℕ) : ℤ) (2 ^ 32) =
          ((pages oldsz - pages newsz : ℕ) : ℤ) := by
        apply Int.bmod_eq_of_le <;> omega
      rw [this]
      omega
    rw [if_pos (Nat.mul_lt_mul_of_pos_right hp (by decide))]
    simp only [wp_bind, wp_pure, hn, hint, true_and]
    exact uvmunmap_free h hsum
  · rw [if_neg (by rw [Nat.mul_lt_mul_right (by decide)]; exact hp)]
    simp only [wp_pure, true_and]
    rw [show pages oldsz - pages newsz = 0 by omega, cleared_zero]
    exact ⟨Same.refl _ s, h⟩

lemma uvmdealloc_back {lo k : ℕ} (h : Table s root e (leaves e + F)) (hk : lo + k ≤ UPAGES) :
    wp (uvmdealloc root (lo * PGSIZE + k * PGSIZE) (lo * PGSIZE)) s fun _ u =>
      Same (leaves (cleared e lo k) + F) s u ∧
      Table u root (cleared e lo k) (leaves (cleared e lo k) + F) := by
  rcases Nat.eq_zero_or_pos k with rfl | hpos
  · rw [uvmdealloc, if_pos (by omega), cleared_zero]
    exact wp_pure.mpr ⟨Same.refl _ s, h⟩
  · have hlt : lo * PGSIZE < lo * PGSIZE + k * PGSIZE :=
      Nat.lt_add_of_pos_right (Nat.mul_pos hpos (by decide))
    have hle : lo * PGSIZE + k * PGSIZE ≤ TRAPFRAME := by
      rw [← Nat.add_mul, ← UPAGES_mul]
      exact Nat.mul_le_mul_right _ hk
    refine (uvmdealloc_wp h hle hlt).mono ?_
    rintro r u ⟨_, hs, hu⟩
    rw [← Nat.add_mul, pages_mul, pages_mul, Nat.add_sub_cancel_left] at hs hu
    exact ⟨hs, hu⟩

/-- The mappings `e'` are those of `e` with the pages from `lo` up to `hi` mapped, with the
flags `f`. -/
structure Extends (e e' : ℕ → ℕ) (lo hi f : ℕ) : Prop where
  old : ∀ a, a < lo ∨ hi ≤ a → e' a = e a
  new : ∀ a, lo ≤ a → a < hi → PTE_FLAGS (e' a) = f

omit [Layout] in
lemma Extends.refl (e : ℕ → ℕ) (lo f : ℕ) : Extends e e lo lo f :=
  ⟨fun _ _ => rfl, fun a h1 h2 => absurd h1 (by omega)⟩

omit [Layout] in
lemma Extends.succ {lo k f : ℕ} (h : Extends e e' lo (lo + k) f) (hw : PTE_FLAGS w = f) :
    Extends e (update e' (lo + k) w) lo (lo + (k + 1)) f := by
  refine ⟨fun a ha => ?_, fun a h1 h2 => ?_⟩
  · rw [update_of_ne (by omega)]
    exact h.old a (by omega)
  · by_cases hk : a = lo + k
    · rw [hk, update_self, hw]
    · rw [update_of_ne hk]
      exact h.new a h1 (by omega)

omit [Layout] in
lemma Extends.cleared {lo k f : ℕ} (h : Extends e e' lo (lo + k) f)
    (h0 : ∀ a, lo ≤ a → a < lo + k → e a = 0) : cleared e' lo k = e := by
  funext a
  unfold VmUser.cleared
  split_ifs with ha
  · exact (h0 a ha.1 ha.2).symm
  · exact h.old a (by omega)

omit [Layout] in
lemma Extends.valid {lo hi f : ℕ} (h : Extends e e' lo hi (f ||| PTE_V)) (h1 : lo ≤ a)
    (h2 : a < hi) : has (e' a) PTE_V := by
  rw [has_flags _ (by decide), h.new a h1 h2, has_or]
  simp [has, PTE_V]

def Zeroed (u : Mach) (e : ℕ → ℕ) (lo hi : ℕ) : Prop :=
  ∀ a, lo ≤ a → a < hi → u.mem (PTE2PA (e a)) = Buf.fill PGSIZE 0

omit [Layout] in
lemma Zeroed.succ {lo k : ℕ} (h : Zeroed u e lo (lo + k))
    (hw : u.mem (PTE2PA w) = Buf.fill PGSIZE 0) :
    Zeroed u (update e (lo + k) w) lo (lo + k + 1) := by
  intro a h1 h2
  by_cases hk : a = lo + k
  · rw [hk, update_self, hw]
  · rw [update_of_ne hk]
    exact h a h1 (by omega)

lemma owns_card_le (h : Owns s R) : R.card ≤ 2 ^ 15 := by
  have h1 : R.card ≤ allocatable.card := by
    have := congrArg Multiset.card h
    rw [Multiset.card_add] at this
    exact (Nat.le_add_left _ _).trans this.le
  refine h1.trans ?_
  have hsub : allocatable ⊆ Finset.Ico (KERNBASE / PGSIZE) (PHYSTOP / PGSIZE) := by
    intro p hp
    have hp' := mem_allocatable.mp hp
    have hk := Layout.kernbase_le
    rw [Finset.mem_Ico]
    unfold PHYSTOP KERNBASE PGSIZE at *
    omega
  calc allocatable.card ≤ (Finset.Ico (KERNBASE / PGSIZE) (PHYSTOP / PGSIZE)).card :=
        Finset.card_le_card hsub
    _ = 2 ^ 15 := by
      rw [Nat.card_Ico]
      unfold PHYSTOP KERNBASE PGSIZE
      omega

lemma dense_lt {k : ℕ} (h : Table s root e (leaves e + F)) (hk : k ≤ UPAGES)
    (hd : ∀ a < k, has (e a) PTE_V) : k ≤ 2 ^ 15 := by
  have h1 := owns_card_le h.owns
  rw [Multiset.card_add, Multiset.card_add] at h1
  have h2 := le_card_leaves hk hd
  omega

lemma map_user {mem perm : ℕ} (h : Table s root e ({mem} + (leaves e + F))) (ha : a < UPAGES)
    (h0 : e a = 0) (hva : va = a * PGSIZE) (hperm : perm < 2 ^ 10)
    (hrwx : has perm (PTE_R ||| PTE_W ||| PTE_X)) :
    wp (mappages root va PGSIZE mem perm) s fun r u => Same ({mem} + (leaves e + F)) s u ∧
      (r = false → Table u root e ({mem} + (leaves e + F))) ∧
      (r = true → Table u root (update e a (PA2PTE mem ||| perm ||| PTE_V))
        (leaves (update e a (PA2PTE mem ||| perm ||| PTE_V)) + F)) := by
  subst hva
  have hmem := allocatable_lt (h.owns.mem (Multiset.mem_add.mpr (.inr (mem_own mem _))))
  have hf : perm ||| PTE_V < 2 ^ 10 := Nat.or_lt_two_pow hperm (by decide)
  have hpage : a * PGSIZE / PGSIZE = a := Nat.mul_div_cancel a (by decide)
  refine (h.mappages (Nat.mul_mod_left _ _) (user_lt ha).1 (by rw [hpage, h0]; rfl) hmem hperm
    hrwx).mono ?_
  rintro r u ⟨hs, hu0, hu1⟩
  refine ⟨hs, hu0, fun hr => ?_⟩
  have hu := hu1 hr
  rw [hpage] at hu
  rwa [leaves_map ha (by rw [h0]; rfl) (by rw [has_or]; simp [has, PTE_V]), Nat.or_assoc,
    PTE2PA_PA2PTE_or hmem hf, add_assoc, ← Nat.or_assoc]

lemma uvmalloc_spec {oldsz newsz xperm : ℕ} (h : Table s root e (leaves e + F))
    (ho : oldsz ≤ TRAPFRAME) (hle : oldsz ≤ newsz)
    (h0 : ∀ a, pages oldsz ≤ a → a < UPAGES → e a = 0) (hx : xperm < 2 ^ 10)
    (hb : newsz ≤ TRAPFRAME ∨ ∀ a < pages oldsz, has (e a) PTE_V) :
    wp (uvmalloc root oldsz newsz xperm) s fun r u => Same (leaves e + F) s u ∧
      (r = 0 ∧ Table u root e (leaves e + F) ∨
        r = newsz ∧ pages newsz ≤ UPAGES ∧ ∃ e', Table u root e' (leaves e' + F) ∧
          Extends e e' (pages oldsz) (pages newsz) (PTE_R ||| PTE_U ||| xperm ||| PTE_V) ∧
          Zeroed u e' (pages oldsz) (pages newsz)) := by
  have hf : PTE_R ||| PTE_U ||| xperm ||| PTE_V < 2 ^ 10 :=
    Nat.or_lt_two_pow (Nat.or_lt_two_pow (by decide) hx) (by decide)
  have hcount : pages oldsz + (newsz - pages oldsz * PGSIZE + (PGSIZE - 1)) / PGSIZE =
      pages newsz := by
    unfold pages PGSIZE
    omega
  generalize hk : (newsz - pages oldsz * PGSIZE + (PGSIZE - 1)) / PGSIZE = count at hcount
  rw [uvmalloc, if_neg (by omega), PGROUNDUP_eq ho]
  simp only [hk]
  refine wp.bind (wp_search (I := fun k u => Same (leaves e + F) s u ∧ pages oldsz + k ≤ UPAGES ∧
      ∃ e', Table u root e' (leaves e' + F) ∧
        Extends e e' (pages oldsz) (pages oldsz + k) (PTE_R ||| PTE_U ||| xperm ||| PTE_V) ∧
        Zeroed u e' (pages oldsz) (pages oldsz + k))
    (Q := fun r u => Same (leaves e + F) s u ∧ (r = some () ∧ Table u root e (leaves e + F) ∨
      r = none ∧ pages newsz ≤ UPAGES ∧ ∃ e', Table u root e' (leaves e' + F) ∧
        Extends e e' (pages oldsz) (pages newsz) (PTE_R ||| PTE_U ||| xperm ||| PTE_V) ∧
        Zeroed u e' (pages oldsz) (pages newsz)))
    ?_ ?_ ?_) ?_
  · exact ⟨Same.refl _ s, pages_le ho, e, h, Extends.refl _ _ _, fun a h1 h2 => by omega⟩
  · rintro k u - hk' ⟨hs, hup, e', hu, hext, hzero⟩
    have hlt : pages oldsz + k < UPAGES := by
      rcases hb with hb | hb
      · have := pages_le hb
        omega
      · have := dense_lt hu hup fun a ha => by
          by_cases hlo : a < pages oldsz
          · rw [hext.old a (.inl hlo)]
            exact hb a hlo
          · exact hext.valid (by omega) ha
        rw [UPAGES_eq]
        omega
    have hle' : leaves e + F ≤ leaves e' + F :=
      add_le_add_left (leaves_mono fun a ha hv => hext.old a (by
        by_contra hc
        rw [h0 a (by omega) ha] at hv
        cases hv)) F
    have hback : ∀ {u'}, Same (leaves e + F) s u' → Table u' root e' (leaves e' + F) →
        wp (uvmdealloc root (pages oldsz * PGSIZE + k * PGSIZE) (pages oldsz * PGSIZE)) u'
          fun _ v => Same (leaves e + F) s v ∧ Table v root e (leaves e + F) := by
      intro u' hs' hu'
      refine (uvmdealloc_back hu' hup).mono ?_
      rintro _ v ⟨h1, h2⟩
      rw [hext.cleared fun a h1 h2 => h0 a h1 (by omega)] at h1 h2
      exact ⟨hs'.trans h1, h2⟩
    refine wp.bind hu.kalloc ?_
    rintro r v ⟨hv, hv0, hv1⟩
    have hsv := hs.trans (hv.mono hle')
    cases r with
    | none =>
      refine wp.bind (hback hsv (hv0 rfl)) fun _ w hw => ?_
      exact wp_pure.mpr (round_some.mpr ⟨hw.1, .inl ⟨rfl, hw.2⟩⟩)
    | some mem =>
      have hmem := hv1 mem rfl
      have he0 : e' (pages oldsz + k) = 0 := by
        rw [hext.old _ (.inr le_rfl)]
        exact h0 _ (by omega) hlt
      obtain ⟨hz, hst⟩ := hmem.store_own (Buf.fill PGSIZE 0)
      have hsz := hsv.trans (hst.mono hle')
      simp only [memset, wp_bind, wp_modify]
      refine (map_user hz hlt he0 (Nat.add_mul _ _ _).symm ?_ ?_).mono ?_
      · exact Nat.or_lt_two_pow (by decide) hx
      · rw [has_or, has_or, show has PTE_R (PTE_R ||| PTE_W ||| PTE_X) = true by decide,
          Bool.true_or, Bool.true_or]
      · rintro r x ⟨hx1, hx2, hx3⟩
        cases r with
        | false =>
          simp only [Bool.not_false, if_true, wp_bind]
          refine (hx2 rfl).kfree.mono ?_
          rintro _ y ⟨hy1, hy2, _⟩
          have hsy := (hsz.trans (hx1.mono (hle'.trans (Multiset.le_add_left _ _)))).trans
            (hy1.mono hle')
          refine (hback hsy hy2).mono fun _ w hw => ?_
          exact wp_pure.mpr (round_some.mpr ⟨hw.1, .inl ⟨rfl, hw.2⟩⟩)
        | true =>
          simp only [Bool.not_true, Bool.false_eq_true, if_false, wp_pure, round_none]
          refine ⟨hsz.trans (hx1.mono (hle'.trans (Multiset.le_add_left _ _))), by omega, _,
            hx3 rfl, hext.succ ?_, ?_⟩
          · rw [Nat.or_assoc, flags_PA2PTE_or _ hf]
          · have hkeep : Zeroed x e' (pages oldsz) (pages oldsz + k) := fun a h1 h2 => by
              have hm : PTE2PA (e' a) ∈ leaves e' + F :=
                Multiset.mem_add.mpr (.inl (mem_leaves (by omega) (hext.valid h1 h2)))
              rw [hx1 _ (Multiset.mem_add.mpr (.inr hm)), hst _ hm, hv _ hm]
              exact hzero a h1 h2
            refine hkeep.succ ?_
            rw [Nat.or_assoc, PTE2PA_PA2PTE_or (allocatable_lt
              (hz.owns.mem (Multiset.mem_add.mpr (.inr (mem_own mem _))))) hf, hx1 _ (mem_own _ _)]
            exact update_self _ _ _
  · rintro u ⟨hs, hup, e', hu, hext, hzero⟩
    rw [Nat.zero_add, hcount] at hup hext hzero
    exact ⟨hs, .inr ⟨rfl, hup, e', hu, hext, hzero⟩⟩
  · rintro r u ⟨hs, ⟨rfl, hu⟩ | ⟨rfl, hu⟩⟩
    · exact wp_pure.mpr ⟨hs, .inl ⟨rfl, hu⟩⟩
    · exact wp_pure.mpr ⟨hs, .inr ⟨rfl, hu⟩⟩

/-! ### Freeing a table -/

section Freewalk

variable {n m i : ℕ}

/-- One round of `freewalk`: what is below word `i` goes back, and the word is cleared. -/
lemma freewalk_child (hW : Wf sv39 (n + 1) (words s.mem) m)
    (hE : Empty sv39 (n + 1) (words s.mem) m) (hi : i < 512) (hv : has (words s.mem m i) PTE_V)
    (ho : Owns s (tables sv39 (n + 1) (words s.mem) m + R))
    (ih : ∀ {R'}, Wf sv39 n (words s.mem) (PTE2PA (words s.mem m i)) →
      Empty sv39 n (words s.mem) (PTE2PA (words s.mem m i)) →
      Owns s (tables sv39 n (words s.mem) (PTE2PA (words s.mem m i)) + R') →
      wp (freewalk (n + 1) (PTE2PA (words s.mem m i))) s fun _ u => Same R' s u ∧ Owns u R') :
    wp (do freewalk (n + 1) (PTE2PA (words s.mem m i)); writePte m i 0) s fun _ u =>
      Same R s u ∧ Owns u (tables sv39 (n + 1) (words u.mem) m + R) ∧
      Wf sv39 (n + 1) (words u.mem) m ∧ Empty sv39 (n + 1) (words u.mem) m ∧
      words u.mem m i = 0 ∧ ∀ j, j ≠ i → words u.mem m j = words s.mem m j := by
  have hsplit := tables_split sv39 (W := words s.mem) (m := m) (n := n) hi
  rw [kid_of_valid sv39 hv] at hsplit
  have ho' : Owns s (tables sv39 n (words s.mem) (PTE2PA (words s.mem m i)) +
      ({m} + (rest sv39 n (words s.mem) m i + R))) := by
    unfold Owns at ho ⊢
    rw [← ho, hsplit]
    simp only [sv39]
    abel
  refine wp.bind (ih ((hW i hi).2 hv) ((hE i hi).2 hv) ho') ?_
  rintro _ t ⟨hs, hot⟩
  simp only [writePte, wp_modify]
  have hw := words_setWord t m hi (show 0 < 2 ^ 64 by decide)
  have hmR : m ∉ rest sv39 n (words s.mem) m i + R := hot.notMem
  -- the pages of the other children and of `R` are as they were
  have hother : ∀ p ∈ rest sv39 n (words s.mem) m i + R, (t.setWord m i 0).mem p = s.mem p := by
    intro p hp
    rw [setWord_mem_ne t (by rintro rfl; exact hmR hp)]
    exact hs p (Multiset.mem_add.mpr (.inr hp))
  have hrest : ∀ p ∈ rest sv39 n (words s.mem) m i,
      words (t.setWord m i 0).mem p = words s.mem p :=
    fun p hp => words_congr (hother p (Multiset.mem_add.mpr (.inl hp)))
  have h0 : words (t.setWord m i 0).mem m i = 0 := by rw [hw, put_self]
  have hroot : ∀ j, j ≠ i → words (t.setWord m i 0).mem m j = words s.mem m j := fun j hj => by
    rw [hw, put_word _ _ hj, words_congr (hs m (mem_own m _))]
  have hinv : sv39.valid (words (t.setWord m i 0).mem m i) = false := by
    rw [h0]
    exact sv39.not_valid_zero
  refine ⟨fun p hp => hother p (Multiset.mem_add.mpr (.inr hp)), ?_, ?_, ?_, h0, hroot⟩
  · rw [tables_split sv39 hi, kid_of_not_valid sv39 hinv, rest_congr sv39 hroot hrest, add_zero,
      add_assoc]
    exact hot
  · refine every_replace sv39 hW hroot hrest ?_ ?_ <;>
    · intro h
      rw [hinv] at h
      cases h
  · refine every_replace sv39 hE hroot hrest trivial fun h => ?_
    rw [hinv] at h
    cases h

lemma freewalk_wp (hW : Wf sv39 n (words s.mem) m) (hE : Empty sv39 n (words s.mem) m)
    (ho : Owns s (tables sv39 n (words s.mem) m + R)) :
    wp (freewalk (n + 1) m) s fun _ u => Same R s u ∧ Owns u R := by
  induction n generalizing s m R with
  | zero =>
    rw [freewalk]
    refine wp.bind (wp_search (I := fun _ u => u = s) (Q := fun _ u => u = s) rfl ?_ ?_) ?_
    · rintro j t - hj rfl
      have hv : has (words t.mem m j) PTE_V = false := hE j (by simpa [sv39] using hj)
      simp [readPte, hv]
    · exact fun t ht => ht
    · rintro _ t rfl
      exact kfree_wp (by rwa [tables_zero] at ho)
  | succ n ih =>
    rw [freewalk]
    refine wp.bind (wp_search (I := fun i u => Same R s u ∧
      Owns u (tables sv39 (n + 1) (words u.mem) m + R) ∧ Wf sv39 (n + 1) (words u.mem) m ∧
      Empty sv39 (n + 1) (words u.mem) m ∧ ∀ j < i, has (words u.mem m j) PTE_V = false)
      (Q := fun _ u => Same R s u ∧ Owns u ({m} + R)) ?_ ?_ ?_) ?_
    · exact ⟨Same.refl R s, ho, hW, hE, fun j hj => absurd hj (by omega)⟩
    · rintro i t - hi ⟨hs, hot, hWt, hEt, hdone⟩
      rw [Nat.zero_add] at hi
      simp only [readPte, wp_bind, wp_get, wp_pure]
      cases hv : has (words t.mem m i) PTE_V with
      | false =>
        simp only [Bool.false_eq_true, false_and, if_false, wp_pure, round_none]
        refine ⟨hs, hot, hWt, hEt, fun j hj => ?_⟩
        rcases Nat.lt_succ_iff_lt_or_eq.mp hj with hj | rfl
        · exact hdone j hj
        · exact hv
      | true =>
        have hinner : (!has (words t.mem m i) (PTE_R ||| PTE_W ||| PTE_X)) = true :=
          (hWt i hi).1 hv
        simp only [hinner, and_self, if_true]
        have hchild := freewalk_child hWt hEt hi hv hot fun hW hE ho => ih hW hE ho
        refine wp_bind.mpr ((wp_bind.mp hchild).mono fun _ u hu => wp_bind.mpr ?_)
        refine hu.mono ?_
        rintro _ v ⟨h1, h2, h3, h4, h5, h6⟩
        refine wp_pure.mpr (round_none.mpr ?_)
        refine ⟨hs.trans h1, h2, h3, h4, fun j hj => ?_⟩
        rcases Nat.lt_succ_iff_lt_or_eq.mp hj with hj | rfl
        · rw [h6 j (by omega)]
          exact hdone j hj
        · rw [h5]
          rfl
    · rintro t ⟨hs, hot, hWt, hEt, hdone⟩
      rw [(blank sv39 fun j hj => hdone j (by simpa [sv39] using hj)).2.1] at hot
      exact ⟨hs, hot⟩
    · rintro _ t ⟨hs, hot⟩
      exact (kfree_wp hot).mono fun _ u hu => ⟨hs.trans hu.1, hu.2⟩

end Freewalk

lemma freewalk_table (h : Table s root e R) (h0 : ∀ a < 512 ^ 3, e a = 0) :
    wp (freewalk 3 root) s fun _ u => Same R s u ∧ Owns u R := by
  refine freewalk_wp h.wf (empty_of_entries sv39 fun a ha => ?_) h.owns
  change has (entry sv39 2 (words s.mem) root a) PTE_V = false
  rw [← has_mapping, h.entries a ha, h0 a ha]
  rfl

lemma uvmfree_wp {sz : ℕ} (h : Table s root e (leaves e + F)) (hsz : sz ≤ TRAPFRAME)
    (h0 : ∀ a < 512 ^ 3, pages sz ≤ a → e a = 0) :
    wp (uvmfree root sz) s fun _ u => Same F s u ∧ Owns u F := by
  -- with nothing mapped any more, the table owns only its own pages
  have hlast : ∀ {e' : ℕ → ℕ} {t : Mach}, Same F s t → Table t root e' (leaves e' + F) →
      (∀ a < 512 ^ 3, e' a = 0) →
      wp (VmModel.freewalk 3 root) t fun _ u => Same F s u ∧ Owns u F := by
    intro e' t hs ht hz
    rw [leaves_zero fun a ha => hz a (user_lt ha).2, zero_add] at ht
    exact (freewalk_table ht hz).mono fun _ u hu => ⟨hs.trans hu.1, hu.2⟩
  rw [uvmfree]
  rcases Nat.eq_zero_or_pos sz with rfl | hpos
  · rw [if_neg (by omega)]
    exact hlast (Same.refl F s) h fun a ha => h0 a ha (Nat.zero_le a)
  · have hun := uvmunmap_free h (show 0 + pages sz ≤ UPAGES by
      rw [Nat.zero_add]
      exact pages_le hsz)
    rw [Nat.zero_mul] at hun
    rw [if_pos hpos, PGROUNDUP_eq hsz, Nat.mul_div_cancel _ (show 0 < PGSIZE by decide)]
    refine wp.bind hun ?_
    rintro _ t ⟨hs, ht⟩
    refine hlast hs.right ht fun a ha => ?_
    unfold cleared
    split_ifs with hc
    · rfl
    · exact h0 a ha (by omega)

end Xv6.VmUser
