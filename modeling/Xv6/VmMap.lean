import Xv6.VmUser

/-!
The three-level page table is a finite map from virtual pages to physical pages with flags.

What a table maps is read off through `walk`, as `translate` does. The functions of `vm.c` that
change a table are described by what they do to this map, whatever the table was before.
-/

namespace Xv6.VmMap

open Function Bytes Hoare PageTree VmModel VmTable VmUser

/-- The page and the flags that an address is mapped to, by a walk without allocation. -/
def translate (s : Mach) (root va : ℕ) : Option (ℕ × ℕ) :=
  match walk root va false s with
  | .ok (some (t, i), _) =>
    let pte := words s.mem t i
    if has pte PTE_V then some (PTE2PA pte, PTE_FLAGS pte) else none
  | _ => none

def target (pte : ℕ) : Option (ℕ × ℕ) :=
  if has pte PTE_V then some (PTE2PA pte, PTE_FLAGS pte) else none

lemma target_zero : target 0 = none := rfl

lemma target_mapping (pte : ℕ) : target (mapping pte) = target pte := by
  cases h : has pte PTE_V with
  | true => rw [mapping_of_valid h]
  | false =>
    rw [mapping_of_not_valid h, target_zero, target, h]
    rfl

lemma target_PA2PTE {p perm : ℕ} (hp : p < 2 ^ 52) (hperm : perm < 2 ^ 10) :
    target (PA2PTE p ||| perm ||| PTE_V) = some (p, perm ||| PTE_V) := by
  have hf : perm ||| PTE_V < 2 ^ 10 := Nat.or_lt_two_pow hperm (by decide)
  have hv : has (perm ||| PTE_V) PTE_V := by
    rw [has_or]
    simp [has, PTE_V]
  rw [target, Nat.or_assoc, has_PA2PTE_or p hf (by decide), if_pos hv, PTE2PA_PA2PTE_or hp hf,
    flags_PA2PTE_or p hf]

variable {s u : Mach} {root va p perm size : ℕ} {e : ℕ → ℕ} {R : Multiset ℕ}

lemma translate_eq (h : Maps s root e) (hva : va < MAXVA) :
    translate s root va = target (e (va / PGSIZE)) := by
  obtain ⟨r, t, hrun, rfl, hr⟩ := h.walk hva
  rw [translate, hrun]
  obtain ⟨rfl, h0⟩ | ⟨l, rfl, hl⟩ := hr
  · rw [h0, target_zero]
  · rw [← h.word (page_lt hva) hl, target_mapping]
    rfl

variable [Layout]

/-- A page table: a tree of tables at pairwise different pages, none of which is free. The
other pages in use are `R`. -/
structure PageTable (s : Mach) (root : ℕ) (R : Multiset ℕ) : Prop where
  wf : Wf sv39 2 (words s.mem) root
  owns : Owns s (tables sv39 2 (words s.mem) root + R)

def entries (s : Mach) (root a : ℕ) : ℕ := mapping (entry sv39 2 (words s.mem) root a)

lemma PageTable.table (h : PageTable s root R) : Table s root (entries s root) R :=
  ⟨h.wf, fun _ _ => rfl, h.owns⟩

lemma PageTable.of_table (h : Table s root e R) : PageTable s root R := ⟨h.wf, h.owns⟩

/-! ### Mapping a range -/

/-- The mappings with `n` pages from page `lo` on mapped to the pages from `p` on. -/
def mapped (e : ℕ → ℕ) (lo n p perm : ℕ) : ℕ → ℕ := fun a =>
  if lo ≤ a ∧ a < lo + n then PA2PTE (p + (a - lo)) ||| perm ||| PTE_V else e a

omit [Layout] in
lemma mapped_zero (lo : ℕ) : mapped e lo 0 p perm = e := by
  funext a
  exact if_neg (by omega)

omit [Layout] in
lemma mapped_at (lo n : ℕ) : mapped e lo n p perm (lo + n) = e (lo + n) := if_neg (by omega)

omit [Layout] in
lemma mapped_succ (lo n : ℕ) : mapped e lo (n + 1) p perm =
    update (mapped e lo n p perm) (lo + n) (PA2PTE (p + n) ||| perm ||| PTE_V) := by
  funext a
  by_cases h : a = lo + n
  · subst h
    rw [update_self, mapped, if_pos (by omega), Nat.add_sub_cancel_left]
  · rw [update_of_ne h]
    have : lo ≤ a ∧ a < lo + (n + 1) ↔ lo ≤ a ∧ a < lo + n := by omega
    simp only [mapped, this]

/-- When `mappages` panics: the range goes beyond the addresses, or part of it is mapped. -/
def Refused (s : Mach) (root va size : ℕ) (x : Panic) : Prop :=
  x = .walk ∧ MAXVA < va + size ∨
    x = .mappagesRemap ∧ ∃ va', va ≤ va' ∧ va' < va + size ∧ va' < MAXVA ∧
      translate s root va' ≠ none

lemma mappages_range (h : Table s root e R) {lo n : ℕ} (hn : 0 < n) (hp : p + n ≤ 2 ^ 52)
    (hperm : perm < 2 ^ 10) (hrwx : has perm (PTE_R ||| PTE_W ||| PTE_X)) :
    wpOr (Refused s root (lo * PGSIZE) (n * PGSIZE))
      (mappages root (lo * PGSIZE) (n * PGSIZE) p perm) s fun r u => Same R s u ∧
        ∃ k, Table u root (mapped e lo k p perm) R ∧ (r = true → k = n) ∧
          (r = false → k < n) := by
  have hf : perm ||| PTE_V < 2 ^ 10 := Nat.or_lt_two_pow hperm (by decide)
  have hcount : n * PGSIZE / PGSIZE = n := Nat.mul_div_cancel n (by decide)
  have hpos : n * PGSIZE ≠ 0 := (Nat.mul_pos hn (by decide)).ne.symm
  rw [mappages, if_neg (by simp), if_neg (by simp), if_neg hpos, hcount]
  refine wpOr_bind.mpr ((wpOr_search (I := fun k u => Same R s u ∧
      Table u root (mapped e lo k p perm) R)
    (Q := fun r u => Same R s u ∧ ∃ k, Table u root (mapped e lo k p perm) R ∧
      (r = none → k = n) ∧ (r = some () → k < n)) ?_ ?_ ?_).mono fun r u hu => wpOr_pure.mpr ?_)
  · rw [mapped_zero]
    exact ⟨Same.refl R s, h⟩
  · rintro k u - hk ⟨hs, hu⟩
    rw [Nat.zero_add] at hk
    have hpage : (lo * PGSIZE + k * PGSIZE) / PGSIZE = lo + k := by
      unfold PGSIZE
      omega
    have hin : lo * PGSIZE + k * PGSIZE < lo * PGSIZE + n * PGSIZE := by
      unfold PGSIZE
      omega
    by_cases hM : MAXVA ≤ lo * PGSIZE + k * PGSIZE
    · refine wpOr_stop (e := .walk) (by rw [walk, if_pos hM]; rfl) (.inl ⟨rfl, by omega⟩)
    rw [Nat.not_le] at hM
    have hlt : lo + k < 512 ^ 3 := by
      rw [← hpage]
      exact page_lt hM
    refine wp.bindOr (hu.walk_alloc hM) ?_
    rintro r v ⟨hsv, hv, rfl | ⟨l, rfl, hl⟩⟩
    · refine wpOr_pure.mpr (round_some.mpr ⟨hs.trans hsv, k, hv, by simp, fun _ => hk⟩)
    · rw [hpage] at hl ⊢
      have hw := hv.entries.word hlt hl
      rw [mapped_at] at hw
      simp only [readPte, wpOr_bind, wpOr_get, wpOr_pure]
      cases hvalid : has (words v.mem l (slot sv39 0 (lo + k))) PTE_V with
      | true =>
        refine wpOr_throw (.inr ⟨rfl, _, Nat.le_add_right _ _, hin, hM, ?_⟩)
        rw [translate_eq h.entries hM, hpage, ← hw, target_mapping, target, if_pos hvalid]
        simp
      | false =>
        have hpte : PA2PTE (p + k) ||| perm ||| PTE_V < 2 ^ 64 := by
          rw [Nat.or_assoc, PA2PTE_or _ hf]
          omega
        have hval : has (PA2PTE (p + k) ||| perm ||| PTE_V) PTE_V := by
          rw [has_or]
          simp [has, PTE_V]
        obtain ⟨h1, h2⟩ := hv.set hlt hl hpte fun _ => by
          rw [has_or, has_or, hrwx, Bool.or_true, Bool.true_or]
        rw [mapping_of_valid hval, ← mapped_succ] at h1
        simp only [Bool.false_eq_true, if_false, wpOr_pure, writePte, wpOr_bind, wpOr_modify,
          round_none]
        exact ⟨(hs.trans hsv).trans h2, h1⟩
  · rintro t ⟨hs, ht⟩
    rw [Nat.zero_add] at ht
    exact ⟨hs, n, ht, fun _ => rfl, by simp⟩
  · obtain ⟨hs, k, hk, h1, h2⟩ := hu
    refine ⟨hs, k, hk, fun hr => h1 ?_, fun hr => h2 ?_⟩
    · cases r with
      | none => rfl
      | some _ => cases hr
    · cases r with
      | none => cases hr
      | some _ => rfl

/-! ### Unmapping a range -/

/-- The pages that the `n` pages from an address on are mapped to. -/
def rangePages (s : Mach) (root va n : ℕ) : Multiset ℕ :=
  ∑ k ∈ Finset.range n, match translate s root (va + k * PGSIZE) with
    | some (p, _) => {p}
    | none => 0

omit [Layout] in
lemma leaf_eq_target (w : ℕ) : leaf w = match target w with
    | some (p, _) => {p}
    | none => 0 := by
  unfold leaf target
  split_ifs <;> rfl

omit [Layout] in
lemma rangePages_eq (s : Mach) (root : ℕ) {lo n : ℕ} (hn : (lo + n) * PGSIZE ≤ MAXVA) :
    rangePages s root (lo * PGSIZE) n = leavesIn (entries s root) lo (lo + n) := by
  rw [rangePages, leavesIn, Finset.sum_Ico_eq_sum_range, Nat.add_sub_cancel_left]
  refine Finset.sum_congr rfl fun k hk => ?_
  have hk := Finset.mem_range.mp hk
  have hlt : (lo + k) * PGSIZE < MAXVA :=
    (Nat.mul_lt_mul_of_pos_right (by omega) (by decide)).trans_le hn
  rw [leaf_eq_target, ← Nat.add_mul, translate_eq (e := entries s root) (fun _ _ => rfl) hlt,
    Nat.mul_div_cancel _ (by decide)]

omit [Layout] in
lemma mem_range_iff (va lo n : ℕ) : lo * PGSIZE ≤ va ∧ va < lo * PGSIZE + n * PGSIZE ↔
    lo ≤ va / PGSIZE ∧ va / PGSIZE < lo + n := by
  unfold PGSIZE
  omega

/-- **The page table is a finite map.** In every page table, and for every page-aligned
address: `mappages` that succeeds maps the pages of its range and no others, and of one page
changes no mapping where it fails; `uvmunmap` removes the mappings of its range and no others;
`walk` with allocation changes no mapping. The result is a page table again, with the pages in
use accounted for, and the macros give back the page and the flags that were stored. A
permission to read, write or execute is what tells a mapping from a reference to a table. -/
theorem page_table_is_map (h : PageTable s root R) (hal : va % PGSIZE = 0) (hva : va < MAXVA) :
    (∀ size p perm, 0 < size → size % PGSIZE = 0 → p + size / PGSIZE ≤ 2 ^ 52 →
      perm < 2 ^ 10 → has perm (PTE_R ||| PTE_W ||| PTE_X) →
      wpOr (Refused s root va size) (mappages root va size p perm) s fun r u =>
        PageTable u root R ∧ Same R s u ∧
        (r = true → ∀ va' < MAXVA, translate u root va' =
          if va ≤ va' ∧ va' < va + size then some (p + (va' - va) / PGSIZE, perm ||| PTE_V)
          else translate s root va') ∧
        (r = false → size = PGSIZE → ∀ va' < MAXVA, translate u root va' = translate s root va')) ∧
    (∀ n doFree F, va + n * PGSIZE ≤ MAXVA →
      R = (if doFree then rangePages s root va n else 0) + F →
      wp (uvmunmap root va n doFree) s fun _ u =>
        PageTable u root F ∧ Same F s u ∧ ∀ va' < MAXVA, translate u root va' =
          if va ≤ va' ∧ va' < va + n * PGSIZE then none else translate s root va') ∧
    wp (walk root va true) s (fun _ u => PageTable u root R ∧ Same R s u ∧
      ∀ va' < MAXVA, translate u root va' = translate s root va') ∧
    ∀ p < 2 ^ 52, ∀ f < 2 ^ 10, PTE2PA (PA2PTE p ||| f) = p ∧ PTE_FLAGS (PA2PTE p ||| f) = f := by
  obtain ⟨lo, rfl⟩ : ∃ lo, va = lo * PGSIZE := ⟨va / PGSIZE, by unfold PGSIZE at hal ⊢; omega⟩
  have hT := h.table
  have hsame : ∀ {u : Mach}, Maps u root (entries s root) → ∀ va' < MAXVA,
      translate u root va' = translate s root va' := fun hu va' hva' => by
    rw [translate_eq hu hva', translate_eq hT.entries hva']
  refine ⟨fun size p perm hpos hsz hp hperm hrwx => ?_, fun n doFree F hn hR => ?_, ?_,
    fun p hp f hf => ⟨PTE2PA_PA2PTE_or hp hf, flags_PA2PTE_or p hf⟩⟩
  · obtain ⟨n, rfl⟩ : ∃ n, size = n * PGSIZE :=
      ⟨size / PGSIZE, by unfold PGSIZE at hsz ⊢; omega⟩
    rw [Nat.mul_div_cancel n (by decide)] at hp
    refine (mappages_range hT (Nat.pos_of_mul_pos_right hpos) hp hperm hrwx).mono ?_
    rintro r u ⟨hs, k, hu, h1, h2⟩
    refine ⟨.of_table hu, hs, fun hr va' hva' => ?_, fun hr hone => ?_⟩
    · rw [h1 hr] at hu
      rw [translate_eq hu.entries hva', translate_eq hT.entries hva', mapped]
      have hin := mem_range_iff va' lo n
      split_ifs with hc hc' hc'
      · have hdiff : (va' - lo * PGSIZE) / PGSIZE = va' / PGSIZE - lo := by
          unfold PGSIZE
          omega
        rw [target_PA2PTE (by omega) hperm, hdiff]
      · exact absurd (hin.mpr hc) hc'
      · exact absurd (hin.mp hc') hc
      · rfl
    · have hk : k = 0 := by
        have := h2 hr
        unfold PGSIZE at hone
        omega
      rw [hk, mapped_zero] at hu
      exact hsame hu.entries
  · rw [← Nat.add_mul] at hn
    rw [rangePages_eq s root hn] at hR
    have h64 : MAXVA < 2 ^ 64 := by decide
    refine ((uvmunmap_spec doFree (R := F) (by rw [released, ← hR]; exact hT)
      (by omega)).returns fun x hx => absurd hx.2 (by omega)).mono ?_
    rintro _ u ⟨hs, hu⟩
    refine ⟨.of_table hu, hs, fun va' hva' => ?_⟩
    rw [translate_eq hu.entries hva', translate_eq hT.entries hva', cleared]
    have hin := mem_range_iff va' lo n
    split_ifs with hc hc' hc'
    · rfl
    · exact absurd (hin.mpr hc) hc'
    · exact absurd (hin.mp hc') hc
    · rfl
  · exact (hT.walk_alloc hva).mono fun _ u hu => ⟨.of_table hu.2.1, hu.1, hsame hu.2.1.entries⟩

abbrev eightPages : Layout where
  kend := 0x87ff8000
  trampoline := 0x80006
  USERSTACK := 2
  trampoline_lt := by decide
  kend_le := by decide
  kernbase_le := by decide

/-- All memory is zero, and all of the eight pages but the last are free. -/
def blankMach : Mach :=
  ⟨fun _ => Buf.fill PGSIZE 0, (List.range 7).map (0x87ff8 + ·), 0, fun _ => false⟩

omit [Layout] in
lemma blank_words (j : ℕ) : words blankMach.mem 0x87fff j = 0 := by
  simp [words, blankMach, Buf.getLE_fill_zero]

omit [Layout] in
lemma blank_pageTable : @PageTable eightPages blankMach 0x87fff 0 := by
  let _ : Layout := eightPages
  obtain ⟨h1, h2, -⟩ := blank sv39 (W := words blankMach.mem) (m := 0x87fff) (n := 2)
    fun j _ => by rw [blank_words]; exact sv39.not_valid_zero
  refine ⟨h1, ?_⟩
  rw [h2, Owns, add_zero]
  refine (Multiset.Nodup.ext (by decide) allocatable.nodup).mpr fun x => ?_
  rw [Finset.mem_val, mem_allocatable]
  simp only [blankMach, Multiset.mem_add, Multiset.mem_coe, List.mem_map, List.mem_range,
    Multiset.mem_singleton]
  unfold PGSIZE PHYSTOP KERNBASE
  change _ ↔ 0x87ff8000 ≤ _ ∧ _
  constructor
  · rintro (⟨k, hk, rfl⟩ | rfl) <;> omega
  · intro h
    by_cases hx : x = 0x87fff
    · exact .inr hx
    · exact .inl ⟨x - 0x87ff8, by omega, by omega⟩

omit [Layout] in
set_option maxRecDepth 100000 in
lemma maps_two : (match mappages 0x87fff PGSIZE (2 * PGSIZE) 0x90000 PTE_R blankMach with
    | .ok (r, _) => r
    | .error _ => false) = true := by decide +kernel

omit [Layout] in
theorem page_table_is_map_two : @PageTable eightPages blankMach 0x87fff 0 ∧
    ∃ u, mappages 0x87fff PGSIZE (2 * PGSIZE) 0x90000 PTE_R blankMach = .ok (true, u) ∧
      translate u 0x87fff PGSIZE = some (0x90000, PTE_R ||| PTE_V) ∧
      @wp Mach Panic _ (@uvmunmap eightPages 0x87fff PGSIZE 1 false) u fun _ v =>
        @PageTable eightPages v 0x87fff 0 ∧ translate v 0x87fff PGSIZE = none ∧
        translate v 0x87fff (2 * PGSIZE + 5) = some (0x90001, PTE_R ||| PTE_V) := by
  let _ : Layout := eightPages
  refine ⟨blank_pageTable, ?_⟩
  have hal : PGSIZE % PGSIZE = 0 := by decide
  have hmap := (page_table_is_map blank_pageTable hal (by decide)).1
    (2 * PGSIZE) 0x90000 PTE_R (by decide) (by decide) (by decide) (by decide) (by decide)
  have htwo := maps_two
  rcases hmap with ⟨e, he, -⟩ | ⟨r, u, hu, hpt, -, htrue, -⟩
  · rw [he] at htwo
    cases htwo
  · rw [hu] at htwo
    obtain rfl : r = true := htwo
    have hin := htrue rfl
    refine ⟨u, hu, ?_, ?_⟩
    · rw [hin PGSIZE (by decide), if_pos (by decide)]
      rfl
    · have hun := (page_table_is_map hpt hal (by decide)).2.1 1 false 0
        (by decide) rfl
      refine hun.mono ?_
      rintro _ v ⟨hv, -, hout⟩
      refine ⟨hv, ?_, ?_⟩
      · rw [hout PGSIZE (by decide), if_pos (by decide)]
      · rw [hout _ (by decide), if_neg (by decide), hin _ (by decide), if_pos (by decide)]
        rfl

end Xv6.VmMap
