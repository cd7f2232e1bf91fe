import Mathlib.Data.Nat.Bitwise
import Xv6.VmModel

/-!
Page tables in memory, and what the functions of `vm.c` that walk and change them do.

`Owns s R` says where the allocatable pages of a state are: those on the free list and those
of `R` are all of them, each once. `Table s t e R` says that page `t` is the root of a page
table with the entries `e`, and that besides the pages of the table itself exactly those of
`R` are in use. The functions below take a `Table` to a `Table`, for any `R`, and leave the
contents of the pages of `R` alone.
-/

namespace Xv6.VmTable

open Function Bytes Hoare PageTree VmModel

/-! ### Flags and entries -/

lemma has_flags (pte : ℕ) {g : ℕ} (hg : g < 2 ^ 10) : has pte g = has (PTE_FLAGS pte) g := by
  have h : pte &&& g = PTE_FLAGS pte &&& g := by
    rw [PTE_FLAGS, ← Nat.and_two_pow_sub_one_eq_mod, Nat.and_assoc, Nat.and_comm (2 ^ 10 - 1),
      Nat.and_two_pow_sub_one_of_lt_two_pow hg]
  rw [has, has, h]

lemma has_or (f g h : ℕ) : has (f ||| g) h = (has f h || has g h) := by
  unfold has
  rw [Nat.and_or_distrib_right, Bool.eq_iff_iff]
  simp [Nat.or_eq_zero_iff, imp_iff_not_or]

def sv39 : Format where
  fan := 512
  fan_pos := by decide
  valid pte := has pte PTE_V
  inner pte := !has pte (PTE_R ||| PTE_W ||| PTE_X)
  next := PTE2PA
  not_valid_zero := by decide

lemma PA2PTE_or (p : ℕ) {f : ℕ} (hf : f < 2 ^ 10) : PA2PTE p ||| f = p * 2 ^ 10 + f := by
  rw [PA2PTE, ← Nat.shiftLeft_eq, Nat.shiftLeft_add_eq_or_of_lt hf]

lemma flags_PA2PTE_or (p : ℕ) {f : ℕ} (hf : f < 2 ^ 10) : PTE_FLAGS (PA2PTE p ||| f) = f := by
  rw [PA2PTE_or p hf, PTE_FLAGS]
  omega

lemma PTE2PA_PA2PTE_or {p f : ℕ} (hp : p < 2 ^ 52) (hf : f < 2 ^ 10) :
    PTE2PA (PA2PTE p ||| f) = p := by
  rw [PA2PTE_or p hf, PTE2PA]
  omega

lemma has_PA2PTE_or (p : ℕ) {f g : ℕ} (hf : f < 2 ^ 10) (hg : g < 2 ^ 10) :
    has (PA2PTE p ||| f) g = has f g := by
  rw [has_flags _ hg, flags_PA2PTE_or p hf]

lemma PX_eq_slot (level va : ℕ) : PX level va = slot sv39 level (va / PGSIZE) := by
  have : 2 ^ (12 + 9 * level) = PGSIZE * 512 ^ level := by
    rw [pow_add, pow_mul]
    rfl
  rw [PX, slot, this, Nat.div_div_eq_div_mul]
  rfl

/-! ### The words of a page -/

lemma words_congr {mem mem' : ℕ → Buf PGSIZE} {p : ℕ} (h : mem' p = mem p) :
    words mem' p = words mem p := by
  funext i
  rw [words, words, h]

lemma words_fill_zero (s : Mach) (p j : ℕ) :
    words (s.store p (Buf.fill PGSIZE 0)).mem p j = 0 := by
  simp [words, Mach.store, Buf.getLE_fill_zero]

lemma store_mem_ne (s : Mach) {p q : ℕ} (h : q ≠ p) (b : Buf PGSIZE) :
    (s.store p b).mem q = s.mem q := by
  simp [Mach.store, h]

lemma store_mem_self (s : Mach) (p : ℕ) (b : Buf PGSIZE) : (s.store p b).mem p = b :=
  update_self _ _ _

lemma words_setWord (s : Mach) (t : ℕ) {i pte : ℕ} (hi : i < 512) (hpte : pte < 2 ^ 64) :
    words (s.setWord t i pte).mem = put (words s.mem) t i pte := by
  funext p j
  by_cases hp : p = t
  · subst hp
    simp only [words, Mach.setWord, Mach.store, update_self, put, true_and]
    split_ifs with hj
    · subst hj
      exact Buf.getLE_setLE_of_lt _ (by unfold PGSIZE; omega) hpte
    · exact Buf.getLE_setLE_disjoint _ (by omega)
  · rw [Mach.setWord, words_congr (store_mem_ne s hp _), put_page _ hp]

lemma setWord_mem_ne (s : Mach) {t q : ℕ} (h : q ≠ t) (i w : ℕ) :
    (s.setWord t i w).mem q = s.mem q := store_mem_ne s h _

/-! ### Who owns the pages -/

def Same (R : Multiset ℕ) (s t : Mach) : Prop := ∀ p ∈ R, t.mem p = s.mem p

variable {s t u : Mach} {R R' : Multiset ℕ} {p : ℕ}

lemma Same.refl (R : Multiset ℕ) (s : Mach) : Same R s s := fun _ _ => rfl

lemma Same.trans (h : Same R s t) (h' : Same R t u) : Same R s u :=
  fun p hp => (h' p hp).trans (h p hp)

lemma Same.mono (h : Same R s t) (hr : R' ≤ R) : Same R' s t :=
  fun p hp => h p (Multiset.mem_of_le hr hp)

lemma Same.left (h : Same (R + R') s t) : Same R s t := h.mono (Multiset.le_add_right _ _)

lemma Same.right (h : Same (R + R') s t) : Same R' s t := h.mono (Multiset.le_add_left _ _)

lemma store_same (h : p ∉ R) (b : Buf PGSIZE) : Same R s (s.store p b) :=
  fun q hq => store_mem_ne s (fun e : q = p => h (e ▸ hq)) b

variable [Layout]

def allocatable : Finset ℕ := (Finset.range (PHYSTOP / PGSIZE)).filter (kend ≤ · * PGSIZE)

lemma mem_allocatable {p : ℕ} :
    p ∈ allocatable ↔ kend ≤ p * PGSIZE ∧ p * PGSIZE < PHYSTOP := by
  have h : p < PHYSTOP / PGSIZE ↔ p * PGSIZE < PHYSTOP := by
    unfold PHYSTOP PGSIZE KERNBASE
    omega
  rw [allocatable, Finset.mem_filter, Finset.mem_range, h, and_comm]

lemma allocatable_lt {p : ℕ} (h : p ∈ allocatable) : p < 2 ^ 52 := by
  have := (mem_allocatable.mp h).2
  unfold PHYSTOP PGSIZE KERNBASE at this
  omega

/-- The pages of `R` and those of the free list are the allocatable pages, each once. -/
def Owns (s : Mach) (R : Multiset ℕ) : Prop := (s.freelist : Multiset ℕ) + R = allocatable.val

lemma Owns.nodup (h : Owns s R) : ((s.freelist : Multiset ℕ) + R).Nodup := by
  rw [h]
  exact allocatable.nodup

lemma Owns.mem (h : Owns s R) (hp : p ∈ R) : p ∈ allocatable := by
  have : p ∈ (s.freelist : Multiset ℕ) + R := Multiset.mem_add.mpr (.inr hp)
  rwa [h] at this

omit [Layout] in
lemma mem_own (p : ℕ) (R : Multiset ℕ) : p ∈ {p} + R :=
  Multiset.mem_add.mpr (.inl (Multiset.mem_singleton_self p))

lemma Owns.notMem (h : Owns s ({p} + R)) : p ∉ R := by
  have := (Multiset.nodup_add.mp h.nodup).2.1
  rw [Multiset.singleton_add, Multiset.nodup_cons] at this
  exact this.1

lemma kalloc_wp (h : Owns s R) : wp kalloc s fun r t =>
    Same R s t ∧ (r = none → Owns t R) ∧ ∀ p, r = some p → Owns t ({p} + R) := by
  simp only [kalloc, wp_bind, wp_get, wp_set]
  split_ifs
  · simp only [wp_pure]
    exact ⟨Same.refl R s, fun _ => h, by simp⟩
  · cases hf : s.freelist with
    | nil =>
      simp only [wp_pure]
      exact ⟨Same.refl R s, fun _ => by rw [Owns, ← h, hf], by simp⟩
    | cons r rest =>
      simp only [memset, wp_bind, wp_modify, wp_pure, reduceCtorEq, false_implies, true_and,
        Option.some.injEq, forall_eq']
      have h' : Owns (({ s with freelist := rest } : Mach).store r (Buf.fill PGSIZE 5))
          ({r} + R) := by
        unfold Owns at h ⊢
        rw [← h, hf, ← Multiset.cons_coe, ← Multiset.singleton_add]
        simp only [Mach.store]
        abel
      refine ⟨fun q hq => ?_, h'⟩
      have hne : q ≠ r := fun e => h'.notMem (e ▸ hq)
      simp [Mach.store, hne]

lemma kfree_wp (h : Owns s ({p} + R)) : wp (kfree p) s fun _ t => Same R s t ∧ Owns t R := by
  have hp := mem_allocatable.mp (h.mem (mem_own p R))
  rw [kfree, if_neg (by omega)]
  simp only [memset, wp_bind, wp_modify]
  refine ⟨store_same h.notMem _, ?_⟩
  unfold Owns at h ⊢
  rw [← h, ← Multiset.cons_coe, ← Multiset.singleton_add]
  simp only [Mach.store]
  abel

/-! ### Walking a table -/

omit [Layout] in
lemma walkFrom_false (va n m : ℕ) (s : Mach) : wp (walkFrom va false n m) s fun r u => u = s ∧
    r = (leafTable sv39 n (words s.mem) m (va / PGSIZE)).map
      fun l => (l, slot sv39 0 (va / PGSIZE)) := by
  induction n generalizing m with
  | zero => simp [walkFrom, leafTable, PX_eq_slot]
  | succ n ih =>
    simp only [walkFrom, readPte, wp_bind, wp_get, wp_pure, PX_eq_slot]
    split_ifs with hv
    · rw [leafTable_succ sv39 hv]
      exact ih _
    · have hv' : sv39.valid (words s.mem m (slot sv39 (n + 1) (va / PGSIZE))) = false := by
        simpa [sv39] using hv
      simp [leafTable, hv']
    · exact absurd rfl ‹_›

/-- What allocating tables on the way does to a tree: its entries stay. -/
structure Grown (n m : ℕ) (R : Multiset ℕ) (s u : Mach) : Prop where
  same : Same R s u
  wf : Wf sv39 n (words u.mem) m
  owns : Owns u (tables sv39 n (words u.mem) m + R)
  entries : ∀ a, entry sv39 n (words u.mem) m a = entry sv39 n (words s.mem) m a

variable {n m i : ℕ}

lemma Grown.trans (h : Grown n m R s t) (h' : Grown n m R t u) : Grown n m R s u :=
  ⟨h.same.trans h'.same, h'.wf, h'.owns, fun a => (h'.entries a).trans (h.entries a)⟩

lemma Grown.child (hW : Wf sv39 (n + 1) (words s.mem) m) (hi : i < 512)
    (hv : has (words s.mem m i) PTE_V)
    (h : Grown n (PTE2PA (words s.mem m i)) ({m} + rest sv39 n (words s.mem) m i + R) s u) :
    Grown (n + 1) m R s u := by
  have hm : words u.mem m = words s.mem m := words_congr (h.same m (by simp))
  have hr : ∀ p ∈ rest sv39 n (words s.mem) m i, words u.mem p = words s.mem p :=
    fun p hp => words_congr (h.same p (by simp [hp]))
  have hv' : sv39.valid (words u.mem m i) := by rw [hm]; exact hv
  refine ⟨h.same.right, ?_, ?_, fun a => ?_⟩
  · refine every_replace sv39 hW (fun j _ => by rw [hm]) hr ?_ fun _ => ?_
    · rw [hm]
      exact (hW i hi).1
    · rw [hm]
      exact h.wf
  · have ho := h.owns
    rw [tables_split sv39 hi, kid_of_valid sv39 hv', hm, rest_congr sv39 (fun j _ => by rw [hm]) hr]
    unfold Owns at ho ⊢
    rw [← ho]
    simp only [sv39]
    abel
  · by_cases e : slot sv39 (n + 1) a = i
    · subst e
      rw [entry_succ sv39 hv', entry_succ sv39 hv, hm]
      exact h.entries a
    · exact entry_other sv39 e (fun j _ => by rw [hm]) hr

lemma Grown.link (hW : Wf sv39 (n + 1) (words s.mem) m) (hi : i < 512)
    (hv : has (words s.mem m i) PTE_V = false)
    (ho : Owns s ({p} + (tables sv39 (n + 1) (words s.mem) m + R))) :
    let u := (s.store p (Buf.fill PGSIZE 0)).setWord m i (PA2PTE p ||| PTE_V)
    Grown (n + 1) m R s u ∧ has (words u.mem m i) PTE_V ∧ PTE2PA (words u.mem m i) = p := by
  intro u
  have hp := allocatable_lt (ho.mem (mem_own p _))
  have hpte : PA2PTE p ||| PTE_V < 2 ^ 64 := by
    rw [PA2PTE_or p (by decide), PTE_V]
    omega
  have hu : words u.mem = put (words (s.store p (Buf.fill PGSIZE 0)).mem) m i
    (PA2PTE p ||| PTE_V) :=
    words_setWord _ _ hi hpte
  have hpT : p ∉ tables sv39 (n + 1) (words s.mem) m + R := ho.notMem
  have hpm : p ≠ m := fun e => hpT (by simp [e, self_mem_tables])
  have hmi : words u.mem m i = PA2PTE p ||| PTE_V := by rw [hu, put_self]
  have hnext : PTE2PA (words u.mem m i) = p := by
    rw [hmi]
    exact PTE2PA_PA2PTE_or hp (by decide)
  have hvalid : has (words u.mem m i) PTE_V := by
    rw [hmi, has_PA2PTE_or p (by decide) (by decide)]
    decide
  have hinner : sv39.inner (words u.mem m i) = true := by
    rw [hmi]
    simp only [sv39, has_PA2PTE_or p (show PTE_V < 2 ^ 10 by decide)
      (show PTE_R ||| PTE_W ||| PTE_X < 2 ^ 10 by decide)]
    decide
  -- the new page is blank, and the other words of the root and what is below them stay
  have hblank : ∀ j, words u.mem p j = 0 := fun j => by
    rw [hu, put_page _ hpm]
    exact words_fill_zero s p j
  have hsame : ∀ q, q ≠ p → q ≠ m → u.mem q = s.mem q := fun q h1 h2 => by
    rw [setWord_mem_ne _ h2, store_mem_ne _ h1]
  have hroot : ∀ j, j ≠ i → words u.mem m j = words s.mem m j := fun j hj => by
    rw [hu, put_word _ _ hj, words_congr (store_mem_ne s hpm.symm _)]
  have hnodup := (Multiset.nodup_add.mp ho.nodup).2.1
  have hsplit := tables_split sv39 (W := words s.mem) (m := m) (n := n) hi
  rw [kid_of_not_valid sv39 hv, add_zero] at hsplit
  have hmr : m ∉ rest sv39 n (words s.mem) m i + R := by
    rw [hsplit, Multiset.singleton_add, Multiset.nodup_cons, add_assoc, Multiset.singleton_add,
      Multiset.nodup_cons] at hnodup
    exact hnodup.2.1
  have hrest : ∀ q ∈ rest sv39 n (words s.mem) m i, words u.mem q = words s.mem q := by
    intro q hq
    refine words_congr (hsame q ?_ ?_)
    · rintro rfl
      exact hpT (by rw [hsplit]; simp [hq])
    · rintro rfl
      exact hmr (by simp [hq])
  obtain ⟨b1, b2, -⟩ := blank sv39 (W := words u.mem) (m := p) (n := n)
    fun j _ => by rw [hblank j]; exact sv39.not_valid_zero
  refine ⟨⟨fun q hq => hsame q ?_ ?_, ?_, ?_, fun a => ?_⟩, hvalid, hnext⟩
  · rintro rfl
    exact hpT (by simp [hq])
  · rintro rfl
    exact hmr (by simp [hq])
  · refine every_replace sv39 hW hroot hrest (fun _ => hinner) fun _ => ?_
    rw [show sv39.next (words u.mem m i) = p from hnext]
    exact b1
  · rw [tables_split sv39 hi, kid_of_valid sv39 hvalid,
      show sv39.next (words u.mem m i) = p from hnext, b2, rest_congr sv39 hroot hrest]
    unfold Owns at ho ⊢
    rw [← ho, hsplit]
    simp only [u, Mach.setWord, Mach.store]
    abel
  · by_cases e : slot sv39 (n + 1) a = i
    · subst e
      rw [entry_succ sv39 hvalid, entry_of_not_valid sv39 hv,
        show sv39.next (words u.mem m (slot sv39 (n + 1) a)) = p from hnext,
        entry_blank sv39 fun j _ => hblank j]
    · exact entry_other sv39 e hroot hrest

/-- With allocation the walk ends at the table of the entry, unless memory runs out. -/
lemma walkFrom_true (va : ℕ) (hW : Wf sv39 n (words s.mem) m)
    (ho : Owns s (tables sv39 n (words s.mem) m + R)) :
    wp (walkFrom va true n m) s fun r u => Grown n m R s u ∧ ∀ l j, r = some (l, j) →
      leafTable sv39 n (words u.mem) m (va / PGSIZE) = some l ∧ j = slot sv39 0 (va / PGSIZE) := by
  induction n generalizing m s R with
  | zero =>
    simp only [walkFrom, wp_pure, PX_eq_slot]
    refine ⟨⟨Same.refl R s, hW, ho, fun _ => rfl⟩, fun l j h => ?_⟩
    simp only [Option.some.injEq, Prod.mk.injEq] at h
    simp [leafTable, ← h.1, ← h.2]
  | succ n ih =>
    have hi : slot sv39 (n + 1) (va / PGSIZE) < 512 := slot_lt sv39 _ _
    -- the rest of the walk, once there is a table below
    have down : ∀ {s : Mach}, Wf sv39 (n + 1) (words s.mem) m →
        Owns s (tables sv39 (n + 1) (words s.mem) m + R) →
        has (words s.mem m (slot sv39 (n + 1) (va / PGSIZE))) PTE_V →
        wp (walkFrom va true n (PTE2PA (words s.mem m (slot sv39 (n + 1) (va / PGSIZE))))) s
          fun r u => Grown (n + 1) m R s u ∧ ∀ l j, r = some (l, j) →
            leafTable sv39 (n + 1) (words u.mem) m (va / PGSIZE) = some l ∧
            j = slot sv39 0 (va / PGSIZE) := by
      intro s hW ho hv
      have hsplit := tables_split sv39 (W := words s.mem) (m := m) (n := n) hi
      rw [kid_of_valid sv39 hv] at hsplit
      refine (ih (R := {m} + rest sv39 n (words s.mem) m (slot sv39 (n + 1) (va / PGSIZE)) + R)
        ((hW _ hi).2 hv) ?_).mono ?_
      · unfold Owns at ho ⊢
        rw [← ho, hsplit]
        simp only [sv39]
        abel
      · rintro r u ⟨hg, hr⟩
        have hm : words u.mem m = words s.mem m := words_congr (hg.same m (by simp))
        refine ⟨Grown.child hW hi hv hg, fun l j h => ?_⟩
        rw [leafTable_succ sv39 (by rw [hm]; exact hv), hm]
        exact hr l j h
    simp only [walkFrom, readPte, wp_bind, wp_get, wp_pure, PX_eq_slot, Bool.not_true]
    split_ifs with hv hf
    · exact down hW ho hv
    · exact absurd hf (by decide)
    · rw [wp_bind]
      refine (kalloc_wp ho).mono ?_
      rintro r t ⟨hs, h0, h1⟩
      have hsT : ∀ q ∈ tables sv39 (n + 1) (words s.mem) m, words t.mem q = words s.mem q :=
        fun q hq => words_congr (hs q (by simp [hq]))
      have ht : tables sv39 (n + 1) (words t.mem) m = tables sv39 (n + 1) (words s.mem) m :=
        tables_congr sv39 hsT
      have he : ∀ a, entry sv39 (n + 1) (words t.mem) m a = entry sv39 (n + 1) (words s.mem) m a :=
        fun a => entry_congr sv39 hsT
      have hWt := every_congr sv39 hW hsT
      cases r with
      | none =>
        simp only [wp_pure]
        exact ⟨⟨hs.right, hWt, by rw [ht]; exact h0 rfl, he⟩, by simp⟩
      | some p =>
        have hvt : has (words t.mem m (slot sv39 (n + 1) (va / PGSIZE))) PTE_V = false := by
          rw [hsT m (self_mem_tables sv39)]
          simpa using hv
        have hot := h1 p rfl
        rw [← ht] at hot
        obtain ⟨hg, hvu, hnu⟩ := Grown.link hWt hi hvt hot
        simp only [memset, writePte, wp_bind, wp_modify]
        have hst : Grown (n + 1) m R s _ :=
          ⟨hs.right.trans hg.same, hg.wf, hg.owns,
            fun a => (hg.entries a).trans (he a)⟩
        have := down hg.wf hg.owns hvu
        rw [hnu] at this
        refine this.mono ?_
        rintro r u ⟨hg', hr⟩
        exact ⟨hst.trans hg', hr⟩

/-! ### Page tables -/

/-- What a word maps: itself if it is valid, and nothing, as `0` does, if it is not. -/
def mapping (pte : ℕ) : ℕ := if has pte PTE_V then pte else 0

omit [Layout] in
lemma mapping_of_valid {pte : ℕ} (h : has pte PTE_V) : mapping pte = pte := if_pos h

omit [Layout] in
lemma mapping_of_not_valid {pte : ℕ} (h : has pte PTE_V = false) : mapping pte = 0 := by
  rw [mapping, h]
  rfl

omit [Layout] in
@[simp] lemma has_mapping (pte : ℕ) : has (mapping pte) PTE_V = has pte PTE_V := by
  unfold mapping
  split_ifs with h
  · rfl
  · simp only [Bool.not_eq_true] at h
    rw [h]
    rfl

omit [Layout] in
lemma mapping_zero : mapping 0 = 0 := by decide

def Maps (s : Mach) (t : ℕ) (e : ℕ → ℕ) : Prop :=
  ∀ a < 512 ^ 3, mapping (entry sv39 2 (words s.mem) t a) = e a

/-- Page `t` is the root of a page table with the mappings `e`; the pages in use besides those
of the table are `R`. -/
structure Table (s : Mach) (t : ℕ) (e : ℕ → ℕ) (R : Multiset ℕ) : Prop where
  wf : Wf sv39 2 (words s.mem) t
  entries : Maps s t e
  owns : Owns s (tables sv39 2 (words s.mem) t + R)

variable {root a l va : ℕ} {e : ℕ → ℕ}

/-- Page `l` is the table with entry `a` of the page table `root`. -/
def LeafAt (s : Mach) (root a l : ℕ) : Prop := leafTable sv39 2 (words s.mem) root a = some l

omit [Layout] in
lemma page_lt (h : va < MAXVA) : va / PGSIZE < 512 ^ 3 := by
  unfold MAXVA at h
  unfold PGSIZE
  omega

omit [Layout] in
lemma Maps.word (h : Maps s root e) (ha : a < 512 ^ 3) (hl : LeafAt s root a l) :
    mapping (words s.mem l (slot sv39 0 a)) = e a := by
  rw [← h a ha, entry, show leafTable sv39 2 (words s.mem) root a = some l from hl]

omit [Layout] in
lemma Maps.congr (h : Maps s root e)
    (hm : Same (tables sv39 2 (words s.mem) root) s u) : Maps u root e := by
  intro a ha
  rw [entry_congr sv39 fun p hp => words_congr (hm p hp), h a ha]

section

variable (h : Table s root e R)
include h

lemma Table.eq_zero (ha : a < 512 ^ 3) (hv : has (e a) PTE_V = false) :
    e a = 0 := by
  rw [← h.entries a ha, has_mapping] at hv
  rw [← h.entries a ha, mapping_of_not_valid hv]

lemma Table.leaf (ha : a < 512 ^ 3) (hv : has (e a) PTE_V) :
    has (e a) (PTE_R ||| PTE_W ||| PTE_X) := by
  rw [← h.entries a ha, has_mapping] at hv
  rw [← h.entries a ha, mapping_of_valid hv]
  simpa [sv39] using wf_entry sv39 h.wf hv

lemma Table.congr (hm : Same (tables sv39 2 (words s.mem) root) s u)
    (ho : Owns u (tables sv39 2 (words s.mem) root + R')) :
    Table u root e R' ∧ ∀ a l, LeafAt s root a l → LeafAt u root a l := by
  have hw : ∀ p ∈ tables sv39 2 (words s.mem) root, words u.mem p = words s.mem p :=
    fun p hp => words_congr (hm p hp)
  refine ⟨⟨every_congr sv39 h.wf hw, h.entries.congr hm, ?_⟩, fun a l hl => ?_⟩
  · rw [tables_congr sv39 hw]
    exact ho
  · rw [LeafAt, leafTable_congr sv39 hw]
    exact hl

lemma Table.disjoint (hp : p ∈ R) : p ∉ tables sv39 2 (words s.mem) root :=
  fun hp' => Multiset.disjoint_left.mp
    (Multiset.nodup_add.mp (Multiset.nodup_add.mp h.owns.nodup).2.1).2.2 hp' hp

lemma Table.store (hp : p ∈ R) (b : Buf PGSIZE) :
    Table (s.store p b) root e R :=
  (h.congr (fun q hq => store_mem_ne s (by rintro rfl; exact h.disjoint hp hq) b) h.owns).1

end

lemma Table.store_own (h : Table s root e ({p} + R)) (b : Buf PGSIZE) :
    Table (s.store p b) root e ({p} + R) ∧ Same R s (s.store p b) := by
  refine ⟨h.store (mem_own p R) b, store_same (fun hp => ?_) b⟩
  have hn := (Multiset.nodup_add.mp (Multiset.nodup_add.mp h.owns.nodup).2.1).2.1
  rw [Multiset.singleton_add, Multiset.nodup_cons] at hn
  exact hn.1 hp

lemma Table.set (h : Table s root e R) (ha : a < 512 ^ 3) (hl : LeafAt s root a l) {w : ℕ}
    (hw64 : w < 2 ^ 64) (hleaf : has w PTE_V → has w (PTE_R ||| PTE_W ||| PTE_X)) :
    Table (s.setWord l (slot sv39 0 a) w) root (update e a (mapping w)) R ∧
      Same R s (s.setWord l (slot sv39 0 a) w) := by
  have hn : (tables sv39 2 (words s.mem) root).Nodup :=
    (Multiset.nodup_add.mp (Multiset.nodup_add.mp h.owns.nodup).2.1).1
  have hw := words_setWord s l (slot_lt sv39 0 a) hw64
  obtain ⟨h1, h2, h3, h4⟩ := set_entry sv39 h.wf hn hl (w := w)
    (fun hv => by simpa [sv39] using hleaf hv)
  rw [← hw] at h1 h2 h3 h4
  refine ⟨⟨h1, fun b hb => ?_, ?_⟩, fun q hq => setWord_mem_ne s ?_ _ _⟩
  · by_cases hab : b = a
    · subst hab
      rw [h3, update_self]
    · rw [h4 b fun hs => hab (hs.eq sv39 ha hb).symm, h.entries b hb, update_of_ne hab]
  · rw [h2]
    exact h.owns
  · rintro rfl
    exact h.disjoint hq (leafTable_mem sv39 hl)

lemma Table.kalloc (h : Table s root e R) : wp kalloc s fun r u => Same R s u ∧
    (r = none → Table u root e R) ∧ ∀ p, r = some p → Table u root e ({p} + R) := by
  refine (kalloc_wp h.owns).mono ?_
  rintro r u ⟨hs, h0, h1⟩
  have hm : ∀ p ∈ tables sv39 2 (words s.mem) root, u.mem p = s.mem p :=
    fun p hp => hs p (by simp [hp])
  refine ⟨hs.right, fun hr => (h.congr hm (h0 hr)).1, fun p hp => ?_⟩
  refine (h.congr hm ?_).1
  rw [add_left_comm]
  exact h1 p hp

lemma Table.kfree (h : Table s root e ({p} + R)) : wp (kfree p) s fun _ u =>
    Same R s u ∧ Table u root e R ∧ ∀ a l, LeafAt s root a l → LeafAt u root a l := by
  have ho : Owns s ({p} + (tables sv39 2 (words s.mem) root + R)) := by
    rw [add_left_comm]
    exact h.owns
  refine (kfree_wp ho).mono ?_
  rintro _ u ⟨hs, ho'⟩
  refine ⟨hs.right, ?_⟩
  exact h.congr (fun q hq => hs q (by simp [hq])) ho'

omit [Layout] in
lemma Maps.walk (h : Maps s root e) (hva : va < MAXVA) :
    wp (walk root va false) s fun r u => u = s ∧ (r = none ∧ e (va / PGSIZE) = 0 ∨
      ∃ l, r = some (l, slot sv39 0 (va / PGSIZE)) ∧ LeafAt s root (va / PGSIZE) l) := by
  rw [VmModel.walk, if_neg (by omega)]
  refine (walkFrom_false va 2 root s).mono ?_
  rintro r u ⟨hu, hr⟩
  refine ⟨hu, ?_⟩
  cases hl : leafTable sv39 2 (words s.mem) root (va / PGSIZE) with
  | none =>
    refine .inl ⟨by rw [hr, hl]; rfl, ?_⟩
    rw [← h _ (page_lt hva), entry, hl]
    exact mapping_zero
  | some l => exact .inr ⟨l, by rw [hr, hl]; rfl, hl⟩

omit [Layout] in
lemma Maps.walk_valid (h : Maps s root e) (hva : va < MAXVA) (hv : has (e (va / PGSIZE)) PTE_V) :
    wp (VmModel.walk root va false) s fun r u => u = s ∧
      ∃ l, r = some (l, slot sv39 0 (va / PGSIZE)) ∧ LeafAt s root (va / PGSIZE) l ∧
      words s.mem l (slot sv39 0 (va / PGSIZE)) = e (va / PGSIZE) := by
  refine (h.walk hva).mono ?_
  rintro r u ⟨rfl, ⟨-, h0⟩ | ⟨l, rfl, hl⟩⟩
  · rw [h0] at hv
    cases hv
  · have hw := h.word (page_lt hva) hl
    have hwv : has (words u.mem l (slot sv39 0 (va / PGSIZE))) PTE_V := by
      rw [← has_mapping, hw]
      exact hv
    rw [mapping_of_valid hwv] at hw
    exact ⟨rfl, l, rfl, hl, hw⟩

lemma Table.walk_alloc (h : Table s root e R) (hva : va < MAXVA) :
    wp (walk root va true) s fun r u => Same R s u ∧ Table u root e R ∧ (r = none ∨
      ∃ l, r = some (l, slot sv39 0 (va / PGSIZE)) ∧ LeafAt u root (va / PGSIZE) l) := by
  rw [walk, if_neg (by omega)]
  refine (walkFrom_true va h.wf h.owns).mono ?_
  rintro r u ⟨hg, hr⟩
  refine ⟨hg.same, ?_, ?_⟩
  · exact ⟨hg.wf, fun a ha => by rw [hg.entries, h.entries a ha], hg.owns⟩
  · cases r with
    | none => exact .inl rfl
    | some x => exact .inr ⟨x.1, by rw [← (hr x.1 x.2 rfl).2], (hr x.1 x.2 rfl).1⟩

lemma Table.mappages (h : Table s root e R) {perm : ℕ} (hal : va % PGSIZE = 0) (hva : va < MAXVA)
    (hinv : has (e (va / PGSIZE)) PTE_V = false) (hp : p < 2 ^ 52) (hperm : perm < 2 ^ 10)
    (hrwx : has perm (PTE_R ||| PTE_W ||| PTE_X)) :
    wp (mappages root va PGSIZE p perm) s fun r u => Same R s u ∧ (r = false → Table u root e R) ∧
      (r = true → Table u root
        (update e (va / PGSIZE) (PA2PTE p ||| perm ||| PTE_V)) R) := by
  have hf : perm ||| PTE_V < 2 ^ 10 := Nat.or_lt_two_pow hperm (by decide)
  rw [VmModel.mappages, if_neg (by omega), if_neg (by decide), if_neg (by decide),
    show PGSIZE / PGSIZE = 0 + 1 from rfl]
  simp only [search, wp_bind, Nat.zero_mul, Nat.add_zero]
  refine (h.walk_alloc hva).mono ?_
  rintro r u ⟨hs, ht, hr⟩
  obtain rfl | ⟨l, rfl, hl⟩ := hr
  · simp only [wp_pure, Option.isNone_some]
    exact ⟨hs, fun _ => ht, by simp⟩
  · have hw : has (words u.mem l (slot sv39 0 (va / PGSIZE))) PTE_V = false := by
      rw [← has_mapping, ht.entries.word (page_lt hva) hl, hinv]
    simp only [readPte, writePte, wp_bind, wp_get, wp_pure, hw, Bool.false_eq_true, if_false,
      wp_modify, Option.isNone_none]
    have hset := ht.set (page_lt hva) hl (w := PA2PTE p ||| perm ||| PTE_V) (by
      rw [Nat.or_assoc, PA2PTE_or p hf]
      omega) (fun _ => by
      rw [Nat.or_assoc, has_PA2PTE_or p hf (by decide), has_or, hrwx]
      rfl)
    have hvalid : has PTE_V PTE_V = true := rfl
    rw [mapping_of_valid (by rw [has_or, hvalid, Bool.or_true])] at hset
    exact ⟨hs.trans hset.2, by simp, fun _ => hset.1⟩

end Xv6.VmTable
