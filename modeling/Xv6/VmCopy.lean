import Mathlib.Data.List.TakeWhile
import Xv6.VmUser

/-!
Copying between address spaces and the kernel: `uvmcopy`, page faults, `copyin`, `copyout` and
`copyinstr`.

A page fault maps a page below the size of the process that had none; `Filled` is the
relation between the mappings before and after any number of faults.
-/

namespace Xv6.VmCopy

open Function Bytes Hoare PageTree VmModel VmTable VmUser

variable [Layout] {s t u : Mach} {root a va p sz : ℕ} {e e' e'' : ℕ → ℕ} {R F : Multiset ℕ}

/-! ### Copying an address space -/

omit [Layout] in
lemma cleared_copied {i : ℕ} (h0 : ∀ a < i, e a = 0) (h : ∀ a, i ≤ a → e' a = e a) :
    cleared e' 0 i = e := by
  funext a
  unfold cleared
  split_ifs with ha
  · exact (h0 a (by omega)).symm
  · exact h a (by omega)

def Copied (s u : Mach) (eo e' : ℕ → ℕ) (n : ℕ) : Prop :=
  ∀ a < n, has (e' a) PTE_V = has (eo a) PTE_V ∧ (has (eo a) PTE_V →
    PTE_FLAGS (e' a) = PTE_FLAGS (eo a) ∧ u.mem (PTE2PA (e' a)) = s.mem (PTE2PA (eo a)))

omit [Layout] in
lemma flags_or_valid {w : ℕ} (h : has w PTE_V) : PTE_FLAGS w ||| PTE_V = PTE_FLAGS w := by
  rw [has_flags _ (by decide), has, PTE_V, Nat.and_one_is_mod] at h
  have hodd : PTE_FLAGS w = 2 ^ 1 * (PTE_FLAGS w / 2) ||| 1 := by
    have : PTE_FLAGS w % 2 ≠ 0 := by simpa using h
    rw [← Nat.two_pow_add_eq_or_of_lt (by decide)]
    omega
  rw [PTE_V, hodd, Nat.or_assoc, Nat.or_self]

omit [Layout] in
lemma Copied.skip {eo : ℕ → ℕ} {i : ℕ} (h : Copied s u eo e' i) (h0 : has (eo i) PTE_V = false)
    (h1 : has (e' i) PTE_V = false) : Copied s u eo e' (i + 1) := by
  intro a ha
  by_cases hai : a = i
  · subst hai
    exact ⟨by rw [h0, h1], fun hv => by rw [h0] at hv; cases hv⟩
  · exact h a (by omega)

omit [Layout] in
lemma Copied.succ {eo : ℕ → ℕ} {i mem : ℕ} (h : Copied s u eo e' i) (hi : i < UPAGES)
    (hs : Same (leaves e') u t) (hv : has (eo i) PTE_V) (hmem : mem < 2 ^ 52)
    (hb : t.mem mem = s.mem (PTE2PA (eo i))) :
    Copied s t eo (update e' i (PA2PTE mem ||| PTE_FLAGS (eo i) ||| PTE_V)) (i + 1) := by
  have hf : PTE_FLAGS (eo i) < 2 ^ 10 := Nat.mod_lt _ (by decide)
  intro a ha
  by_cases hai : a = i
  · subst hai
    rw [update_self, Nat.or_assoc, flags_or_valid hv, flags_PA2PTE_or _ hf,
      PTE2PA_PA2PTE_or hmem hf, has_PA2PTE_or _ hf (by decide), ← has_flags _ (by decide)]
    exact ⟨rfl, fun _ => ⟨rfl, hb⟩⟩
  · obtain ⟨h1, h2⟩ := h a (by omega)
    rw [update_of_ne hai]
    refine ⟨h1, fun hva => ⟨(h2 hva).1, ?_⟩⟩
    rw [hs _ (mem_leaves (by omega) (by rw [h1]; exact hva))]
    exact (h2 hva).2

/-- **Copying an address space.** `uvmcopy` into a table without user pages: the pages below
the size are copied, or the table has none again. -/
theorem uvmcopy_spec {old new : ℕ} {eo : ℕ → ℕ} (ho : Maps s old eo)
    (hleaf : ∀ a < 512 ^ 3, has (eo a) PTE_V → has (eo a) (PTE_R ||| PTE_W ||| PTE_X))
    (hF : tables sv39 2 (words s.mem) old ≤ F) (h : Table s new e (leaves e + F))
    (h0 : ∀ a < UPAGES, e a = 0) (hsz : sz ≤ TRAPFRAME) :
    wp (uvmcopy old new sz) s fun r u => Same F s u ∧
      (r = false → Table u new e (leaves e + F)) ∧
      (r = true → ∃ e', Table u new e' (leaves e' + F) ∧ (∀ a, pages sz ≤ a → e' a = e a) ∧
        (leaves eo ≤ F → Copied s u eo e' (pages sz))) := by
  have hup := pages_le hsz
  rw [uvmcopy, show (sz + (PGSIZE - 1)) / PGSIZE = pages sz from rfl]
  refine wp.bind (wp_search (I := fun i u => Same F s u ∧
      ∃ e', Table u new e' (leaves e' + F) ∧ (∀ a, i ≤ a → e' a = e a) ∧
        (leaves eo ≤ F → Copied s u eo e' i))
    (Q := fun r u => Same F s u ∧ (r = some () → Table u new e (leaves e + F)) ∧
      (r = none → ∃ e', Table u new e' (leaves e' + F) ∧ (∀ a, pages sz ≤ a → e' a = e a) ∧
        (leaves eo ≤ F → Copied s u eo e' (pages sz))))
    ⟨Same.refl F s, e, h, fun _ _ => rfl, fun _ a ha => by omega⟩ ?_ ?_) ?_
  · rintro i u - hi ⟨hs, e', hu, he', hc⟩
    rw [Nat.zero_add] at hi
    have hlt := user_lt (show i < UPAGES by omega)
    have hpage : i * PGSIZE / PGSIZE = i := Nat.mul_div_cancel i (by decide)
    have hou : Maps u old eo := ho.congr (hs.mono hF)
    have hskip : ∀ a, i + 1 ≤ a → e' a = e a := fun a ha => he' a (by omega)
    have hei : e' i = 0 := by
      rw [he' i le_rfl]
      exact h0 i (by omega)
    -- nothing to copy
    have hnone : has (eo i) PTE_V = false → Same F s u ∧ ∃ e', Table u new e' (leaves e' + F) ∧
        (∀ a, i + 1 ≤ a → e' a = e a) ∧ (leaves eo ≤ F → Copied s u eo e' (i + 1)) :=
      fun hz => ⟨hs, e', hu, hskip, fun hl => (hc hl).skip hz (by rw [hei]; rfl)⟩
    -- what an error leads to
    have hundo : ∀ {v}, Same F s v → Table v new e' (leaves e' + F) →
        wp (uvmunmap new 0 i true) v fun _ x => Same F s x ∧ Table x new e (leaves e + F) := by
      intro v hsv hv
      have hun := uvmunmap_free hv (show 0 + i ≤ UPAGES by omega)
      rw [Nat.zero_mul, cleared_copied (fun a ha => h0 a (by omega)) he'] at hun
      exact hun.mono fun _ x hx => ⟨hsv.trans hx.1.right, hx.2⟩
    refine wp.bind (hou.walk hlt.1) ?_
    rintro r u' ⟨rfl, hr⟩
    rw [hpage] at hr
    obtain ⟨rfl, hz⟩ | ⟨l, rfl, hl⟩ := hr
    · exact wp_pure.mpr (round_none.mpr (hnone (by rw [hz]; rfl)))
    · have hw := hou.word hlt.2 hl
      simp only [readPte, wp_bind, wp_get, wp_pure]
      cases hv : has (words u'.mem l (slot sv39 0 i)) PTE_V with
      | false =>
        simp only [Bool.not_false, if_true, wp_pure, round_none]
        exact hnone (by rw [← hw, has_mapping, hv])
      | true =>
        rw [mapping_of_valid hv] at hw
        rw [hw] at hv ⊢
        simp only [Bool.not_true, Bool.false_eq_true, if_false, wp_bind]
        refine hu.kalloc.mono ?_
        rintro r v ⟨hv', hv0, hv1⟩
        have hsv : Same F s v := hs.trans hv'.right
        cases r with
        | none =>
          refine wp.bind (hundo hsv (hv0 rfl)) fun _ x hx => ?_
          exact wp_pure.mpr (round_some.mpr ⟨hx.1, fun _ => hx.2, by simp⟩)
        | some mem =>
          obtain ⟨hz, hst⟩ := (hv1 mem rfl).store_own (v.mem (PTE2PA (eo i)))
          have hsz' := hsv.trans hst.right
          have hmem := allocatable_lt (hz.owns.mem (Multiset.mem_add.mpr (.inr (mem_own mem _))))
          simp only [wp_bind, wp_modify]
          have hflags : PTE_FLAGS (eo i) < 2 ^ 10 := Nat.mod_lt _ (by decide)
          refine (map_user hz (by omega) hei rfl hflags ?_).mono ?_
          · rw [← has_flags (eo i) (show PTE_R ||| PTE_W ||| PTE_X < 2 ^ 10 by decide)]
            exact hleaf i hlt.2 hv
          · rintro r x ⟨hx1, hx2, hx3⟩
            have hsx := hsz'.trans (hx1.mono ((Multiset.le_add_left F _).trans
              (Multiset.le_add_left _ _)))
            cases r with
            | false =>
              simp only [Bool.not_false, if_true, wp_bind]
              refine (hx2 rfl).kfree.mono ?_
              rintro _ y ⟨hy1, hy2, _⟩
              refine (hundo (hsx.trans hy1.right) hy2).mono
                fun _ z hz => ?_
              exact wp_pure.mpr (round_some.mpr ⟨hz.1, fun _ => hz.2, by simp⟩)
            | true =>
              simp only [Bool.not_true, Bool.false_eq_true, if_false, wp_pure, round_none]
              refine ⟨hsx, _, hx3 rfl, fun a ha => ?_, fun hl => ?_⟩
              · rw [update_of_ne (by omega)]
                exact hskip a ha
              · refine (hc hl).succ (by omega) (fun p hp => ?_) hv hmem ?_
                · have hp' : p ∈ leaves e' + F := Multiset.mem_add.mpr (.inl hp)
                  rw [hx1 p (Multiset.mem_add.mpr (.inr hp')), hst p hp', hv' p hp']
                · have hpF := Multiset.mem_of_le hl (mem_leaves (show i < UPAGES by omega) hv)
                  rw [hx1 mem (mem_own _ _), ← hsv _ hpF]
                  exact update_self _ _ _
  · rintro u ⟨hs, hu⟩
    rw [Nat.zero_add] at hu
    exact ⟨hs, by simp, fun _ => hu⟩
  · rintro r u ⟨hs, h1, h2⟩
    refine wp_pure.mpr ⟨hs, ?_⟩
    cases r with
    | none => exact ⟨by simp, fun _ => h2 rfl⟩
    | some _ => exact ⟨fun _ => h1 rfl, by simp⟩

/-! ### Page faults -/

/-- The mappings `e'` are those of `e`, with pages below the size `sz` added. -/
structure Filled (sz : ℕ) (e e' : ℕ → ℕ) : Prop where
  keep : ∀ a, has (e a) PTE_V → e' a = e a
  high : ∀ a, pages sz ≤ a → e' a = e a

omit [Layout] in
lemma Filled.refl (sz : ℕ) (e : ℕ → ℕ) : Filled sz e e := ⟨fun _ _ => rfl, fun _ _ => rfl⟩

omit [Layout] in
lemma Filled.trans (h : Filled sz e e') (h' : Filled sz e' e'') : Filled sz e e'' := by
  refine ⟨fun a ha => ?_, fun a ha => (h'.high a ha).trans (h.high a ha)⟩
  rw [h'.keep a (by rw [h.keep a ha]; exact ha), h.keep a ha]

omit [Layout] in
lemma ismapped_wp (h : Maps s root e) (hva : va < MAXVA) : wp (ismapped root va) s fun r u =>
    u = s ∧ r = has (e (va / PGSIZE)) PTE_V := by
  refine wp.bind (h.walk hva) ?_
  rintro r u ⟨rfl, ⟨rfl, h0⟩ | ⟨l, rfl, hl⟩⟩
  · simp only [wp_pure, true_and, h0]
    rfl
  · simp only [readPte, wp_bind, wp_get, wp_pure, true_and]
    rw [← h.word (page_lt hva) hl, has_mapping]

omit [Layout] in
lemma walkaddr_wp (h : Maps s root e) : wp (walkaddr root va) s fun r u => u = s ∧
    r = if va < MAXVA ∧ has (e (va / PGSIZE)) PTE_V ∧ has (e (va / PGSIZE)) PTE_U
      then some (PTE2PA (e (va / PGSIZE))) else none := by
  rw [VmModel.walkaddr]
  by_cases hva : va < MAXVA
  · rw [if_neg (by omega)]
    refine wp.bind (h.walk hva) ?_
    rintro r u ⟨rfl, ⟨rfl, h0⟩ | ⟨l, rfl, hl⟩⟩
    · simp [h0, has]
    · have hw := h.word (page_lt hva) hl
      simp only [readPte, wp_bind, wp_get, wp_pure]
      cases hv : has (words u.mem l (slot sv39 0 (va / PGSIZE))) PTE_V with
      | false =>
        rw [mapping_of_not_valid hv] at hw
        simp [← hw, has]
      | true =>
        rw [mapping_of_valid hv] at hw
        rw [hw] at hv ⊢
        cases hU : has (e (va / PGSIZE)) PTE_U <;> simp [hva, hv]
  · rw [if_pos (by omega), if_neg (by tauto)]
    exact wp_pure.mpr ⟨rfl, rfl⟩

omit [Layout] in
lemma PGROUNDDOWN_div (a : ℕ) : PGROUNDDOWN a / PGSIZE = a / PGSIZE :=
  Nat.mul_div_cancel _ (by decide)

def faultFlags : ℕ := PTE_W ||| PTE_U ||| PTE_R

/-- The mappings after a fault at page `a` that was answered with page `pa`. -/
def faulted (e : ℕ → ℕ) (a pa : ℕ) : ℕ → ℕ :=
  update e a (PA2PTE pa ||| faultFlags ||| PTE_V)

omit [Layout] in
lemma faulted_self (e : ℕ → ℕ) (a : ℕ) {pa : ℕ} (h : pa < 2 ^ 52) :
    PTE2PA (faulted e a pa a) = pa ∧ ∀ g < 2 ^ 10, has (faulted e a pa a) g =
      has (faultFlags ||| PTE_V) g := by
  rw [faulted, update_self, Nat.or_assoc]
  exact ⟨PTE2PA_PA2PTE_or h (by decide), fun g hg => has_PA2PTE_or _ (by decide) hg⟩

/-- **Page faults.** `vmfault` changes nothing, or maps a page of zeroes below the size of the
process where there was none. -/
theorem vmfault_spec (h : Table s root e (leaves e + F)) (hsz : sz ≤ TRAPFRAME) :
    wp (vmfault ⟨sz, root⟩ root va) s fun r u => Same (leaves e + F) s u ∧
      (r = none → Table u root e (leaves e + F)) ∧
      ∀ pa, r = some pa → va < sz ∧ e (va / PGSIZE) = 0 ∧ pa < 2 ^ 52 ∧
        u.mem pa = Buf.fill PGSIZE 0 ∧
        Table u root (faulted e (va / PGSIZE) pa) (leaves (faulted e (va / PGSIZE) pa) + F) := by
  rw [vmfault]
  by_cases hva : va < sz
  · have hup := pages_le hsz
    have hap : va / PGSIZE < pages sz := by
      unfold pages PGSIZE
      omega
    have hlt := user_lt (show va / PGSIZE < UPAGES by omega)
    rw [if_neg (by simpa using hva)]
    refine wp.bind (ismapped_wp h.entries (show PGROUNDDOWN va < MAXVA from hlt.1)) ?_
    rintro r u ⟨rfl, hr⟩
    rw [PGROUNDDOWN_div] at hr
    subst hr
    cases hv : has (e (va / PGSIZE)) PTE_V with
    | true => exact wp_pure.mpr ⟨Same.refl _ u, fun _ => h, by simp⟩
    | false =>
      have h0 := h.eq_zero hlt.2 hv
      refine wp.bind h.kalloc ?_
      rintro r v ⟨hv', hv0, hv1⟩
      cases r with
      | none => exact wp_pure.mpr ⟨hv', fun _ => hv0 rfl, by simp⟩
      | some mem =>
        obtain ⟨hz, hst⟩ := (hv1 mem rfl).store_own (Buf.fill PGSIZE 0)
        have hmem := allocatable_lt (hz.owns.mem (Multiset.mem_add.mpr (.inr (mem_own mem _))))
        simp only [memset, wp_bind, wp_modify]
        refine (map_user hz (by omega) h0 rfl (by decide) (by decide)).mono ?_
        rintro r x ⟨hx1, hx2, hx3⟩
        have hsx := (hv'.trans hst).trans hx1.right
        cases r with
        | false =>
          simp only [Bool.not_false, if_true, wp_bind]
          refine (hx2 rfl).kfree.mono ?_
          rintro _ y ⟨hy1, hy2, _⟩
          exact wp_pure.mpr ⟨hsx.trans hy1, fun _ => hy2, by simp⟩
        | true =>
          simp only [Bool.not_true, Bool.false_eq_true, if_false, wp_pure]
          refine ⟨hsx, by simp, fun pa hpa => ?_⟩
          cases hpa
          refine ⟨hva, h0, hmem, ?_, hx3 rfl⟩
          rw [hx1 mem (mem_own _ _)]
          exact update_self _ _ _
  · rw [if_pos (by simpa using hva)]
    exact wp_pure.mpr ⟨Same.refl _ s, fun _ => h, by simp⟩

omit [Layout] in
lemma filled_faulted (pa : ℕ) (hva : va < sz) (h0 : e (va / PGSIZE) = 0) :
    Filled sz e (faulted e (va / PGSIZE) pa) := by
  refine ⟨fun a ha => update_of_ne ?_ _ _, fun a ha => update_of_ne ?_ _ _⟩
  · rintro rfl
    rw [h0] at ha
    cases ha
  · unfold pages at ha
    unfold PGSIZE at ha ⊢
    omega

lemma vmfault_wp (h : Table s root e (leaves e + F)) (hsz : sz ≤ TRAPFRAME) :
    wp (vmfault ⟨sz, root⟩ root va) s fun _ u => Same F s u ∧ ∃ e',
      Table u root e' (leaves e' + F) ∧ Filled sz e e' := by
  refine (vmfault_spec h hsz).mono ?_
  rintro r u ⟨hs, h0, h1⟩
  refine ⟨hs.right, ?_⟩
  cases r with
  | none => exact ⟨e, h0 rfl, Filled.refl sz e⟩
  | some pa =>
    obtain ⟨hva, he, -, -, ht⟩ := h1 pa rfl
    exact ⟨_, ht, filled_faulted _ hva he⟩

/-! ### Copying to and from user memory -/

/-- An address space that user code can be in: pages for the user are below the trapframe. -/
structure UserTable (s : Mach) (root : ℕ) (e : ℕ → ℕ) (sz : ℕ) (F : Multiset ℕ) : Prop where
  table : Table s root e (leaves e + F)
  size : sz ≤ TRAPFRAME
  user : ∀ a < 512 ^ 3, has (e a) PTE_V → has (e a) PTE_U → a < UPAGES

lemma UserTable.fill (h : UserTable s root e sz F) (hu : Table u root e' (leaves e' + F))
    (hf : Filled sz e e') : UserTable u root e' sz F := by
  refine ⟨hu, h.size, fun a ha hv hU => ?_⟩
  have hup := pages_le h.size
  by_cases hp : a < pages sz
  · omega
  · rw [hf.high a (by omega)] at hv hU
    exact h.user a ha hv hU

def Touched (s : Mach) (root : ℕ) (e : ℕ → ℕ) (sz : ℕ) (F : Multiset ℕ) (u : Mach) : Prop :=
  Same F s u ∧ ∃ e', UserTable u root e' sz F ∧ Filled sz e e'

end Xv6.VmCopy
