import Xv6.MemModel
import Xv6.VmCopy

/-!
The address space of a process: how it is made, changed by `exec`, and freed.

`Space e sz tf` is what holds of the mappings of every process: the trampoline and the
trapframe are where they belong, and everything else is below the size.
-/

namespace Xv6.MemSpace

open Function Bytes Hoare PageTree VmModel VmTable VmUser VmCopy
open MemModel

variable [Layout] {s t u : Mach} {root a va p sz tf : ℕ} {e e' : ℕ → ℕ} {R F : Multiset ℕ}

/-- The index of the page of the trampoline, and of that of the trapframe. -/
def trampolinePage : ℕ := TRAMPOLINE / PGSIZE

def trapframePage : ℕ := TRAPFRAME / PGSIZE

omit [Layout] in
lemma pages_top : trapframePage = UPAGES ∧ trampolinePage = UPAGES + 1 ∧
    trampolinePage * PGSIZE = TRAMPOLINE ∧ trapframePage * PGSIZE = TRAPFRAME := by
  rw [UPAGES_eq]
  unfold trampolinePage trapframePage TRAPFRAME TRAMPOLINE MAXVA PGSIZE
  omega

/-- The address space of a process of size `sz` with trapframe `tf`. -/
structure Space (e : ℕ → ℕ) (sz tf : ℕ) : Prop where
  size : sz ≤ TRAPFRAME
  trampoline : e trampolinePage = PA2PTE trampoline ||| (PTE_R ||| PTE_X) ||| PTE_V
  trapframe : e trapframePage = PA2PTE tf ||| (PTE_R ||| PTE_W) ||| PTE_V
  low : ∀ a < 512 ^ 3, has (e a) PTE_V → a < pages sz ∨ a = trapframePage ∨ a = trampolinePage

lemma trampoline_lt_pages : trampoline < 2 ^ 52 := by
  have h1 := Layout.trampoline_lt
  have h2 := Layout.kend_le
  unfold PHYSTOP KERNBASE at h2
  unfold PGSIZE at h1
  omega

lemma Space.high (h : Space e sz tf) (ht : Table s root e R) {a : ℕ} (h1 : pages sz ≤ a)
    (h2 : a < UPAGES) : e a = 0 := by
  have htop := pages_top
  refine ht.eq_zero (user_lt h2).2 ?_
  by_contra hv
  have := h.low a (user_lt h2).2 (by simpa using hv)
  omega

lemma Space.user (h : Space e sz tf) : ∀ a < 512 ^ 3, has (e a) PTE_V → has (e a) PTE_U →
    a < UPAGES := by
  intro a ha hv hU
  have hup := pages_le h.size
  rcases h.low a ha hv with hlt | rfl | rfl
  · omega
  · rw [h.trapframe, Nat.or_assoc, has_PA2PTE_or _ (by decide) (by decide)] at hU
    exact absurd hU (by decide)
  · rw [h.trampoline, Nat.or_assoc, has_PA2PTE_or _ (by decide) (by decide)] at hU
    exact absurd hU (by decide)

lemma Space.userTable (h : Space e sz tf) (ht : Table s root e (leaves e + F)) :
    UserTable s root e sz F := ⟨ht, h.size, h.user⟩

lemma Space.fill (h : Space e sz tf) (hf : Filled sz e e') : Space e' sz tf := by
  have hup := pages_le h.size
  have htop := pages_top
  refine ⟨h.size, ?_, ?_, fun a ha hv => ?_⟩
  · rw [hf.high _ (by omega), h.trampoline]
  · rw [hf.high _ (by omega), h.trapframe]
  · by_cases hp : a < pages sz
    · exact .inl hp
    · rw [hf.high a (by omega)] at hv
      exact h.low a ha hv

/-! ### Making and freeing address spaces -/

lemma uvmcreate_wp (h : Owns s F) : wp uvmcreate s fun r u => Same F s u ∧
    (r = none → Owns u F) ∧ ∀ root, r = some root → Table u root (fun _ => 0) F := by
  refine wp.bind (kalloc_wp h) ?_
  rintro r u ⟨hs, h0, h1⟩
  cases r with
  | none => exact wp_pure.mpr ⟨hs, fun _ => h0 rfl, by simp⟩
  | some root =>
    have ho := h1 root rfl
    simp only [memset, wp_bind, wp_modify, wp_pure]
    refine ⟨hs.trans (store_same ho.notMem _), by simp, fun r' hr => ?_⟩
    cases hr
    have hz : ∀ j < 512, words (u.store root (Buf.fill PGSIZE 0)).mem root j = 0 :=
      fun j _ => words_fill_zero u root j
    obtain ⟨b1, b2, -⟩ := blank sv39 (W := words (u.store root (Buf.fill PGSIZE 0)).mem) (m := root)
      (n := 2) fun j hj => by rw [hz j hj]; exact sv39.not_valid_zero
    refine ⟨b1, fun a _ => ?_, ?_⟩
    · rw [entry_blank sv39 hz, mapping_zero]
    · rw [b2]
      exact ho

lemma uvmfree_zero (h : Table s root e F) (h0 : ∀ a < 512 ^ 3, e a = 0) :
    wp (uvmfree root 0) s fun _ u => Same F s u ∧ Owns u F := by
  have hl : leaves e = 0 := leaves_zero fun a ha => h0 a (user_lt ha).2
  exact uvmfree_wp (by rwa [hl, zero_add]) (Nat.zero_le _) fun a ha _ => h0 a ha

omit [Layout] in
lemma cleared_one (a : ℕ) : cleared e a 1 = update e a 0 := by
  rw [cleared_succ, cleared_zero, Nat.add_zero]

lemma procPagetable_wp (h : Owns s F) (htf : tf < 2 ^ 52) :
    wp (procPagetable tf) s fun r u => Same F s u ∧ (r = none → Owns u F) ∧
      ∀ root, r = some root → ∃ e, Table u root e (leaves e + F) ∧ Space e 0 tf := by
  obtain ⟨htop1, htop2, htop3, htop4⟩ := pages_top
  have hT : TRAMPOLINE / PGSIZE = trampolinePage := rfl
  have hF : TRAPFRAME / PGSIZE = trapframePage := rfl
  have hne : trapframePage ≠ trampolinePage := by omega
  refine wp.bind (uvmcreate_wp h) ?_
  rintro r u ⟨hs, h0, h1⟩
  cases r with
  | none => exact wp_pure.mpr ⟨hs, fun _ => h0 rfl, by simp⟩
  | some root =>
    refine wp.bind ((h1 root rfl).mappages (by decide) (by decide) rfl trampoline_lt_pages
      (by decide) (by decide)) ?_
    rintro r v ⟨hv, hv0, hv1⟩
    cases r with
    | false =>
      simp only [Bool.not_false, if_true]
      refine wp.bind (uvmfree_zero (hv0 rfl) fun _ _ => rfl) fun _ x hx => ?_
      exact wp_pure.mpr ⟨(hs.trans hv).trans hx.1, fun _ => hx.2, by simp⟩
    | true =>
      have hv1 := hv1 rfl
      rw [hT] at hv1
      simp only [Bool.not_true, Bool.false_eq_true, if_false]
      refine wp.bind (hv1.mappages (by decide) (by decide) ?_ htf (by decide) (by decide)) ?_
      · rw [hF, update_of_ne hne]
        rfl
      rintro r x ⟨hx, hx0, hx1⟩
      cases r with
      | false =>
        simp only [Bool.not_false, if_true]
        have hun := uvmunmap_keep (hx0 rfl) (a := trampolinePage) (by rw [htop3]; decide)
        rw [htop3, cleared_one, update_idem, update_eq_self] at hun
        refine wp.bind hun fun _ y hy => ?_
        refine wp.bind (uvmfree_zero hy.2 fun _ _ => rfl) fun _ z hz => ?_
        exact wp_pure.mpr ⟨((hs.trans hv).trans (hx.trans hy.1)).trans hz.1, fun _ => hz.2, by simp⟩
      | true =>
        have hx1 := hx1 rfl
        rw [hF] at hx1
        simp only [Bool.not_true, Bool.false_eq_true, if_false, wp_pure]
        refine ⟨(hs.trans hv).trans hx, by simp, fun r hr => ?_⟩
        cases hr
        have hl : leaves (update (update (fun _ => 0) trampolinePage
            (PA2PTE trampoline ||| (PTE_R ||| PTE_X) ||| PTE_V)) trapframePage
            (PA2PTE tf ||| (PTE_R ||| PTE_W) ||| PTE_V)) = 0 := by
          rw [leaves_high (by omega), leaves_high (by omega), leaves_zero fun _ _ => rfl]
        refine ⟨_, by rw [hl, zero_add]; exact hx1, ?_⟩
        refine ⟨Nat.zero_le _, ?_, update_self _ _ _, fun a _ hv => ?_⟩
        · rw [update_of_ne hne.symm, update_self]
        · by_contra hc
          rw [update_of_ne (by tauto), update_of_ne (by tauto)] at hv
          exact absurd hv (by decide)

lemma procFreepagetable_wp (h : Table s root e (leaves e + F)) (hsp : Space e sz tf) :
    wp (procFreepagetable root sz) s fun _ u => Same F s u ∧ Owns u F := by
  obtain ⟨htop1, htop2, htop3, htop4⟩ := pages_top
  have hle : F ≤ leaves e + F := Multiset.le_add_left _ _
  have h1 := uvmunmap_keep h (a := trampolinePage) (by rw [htop3]; decide)
  rw [htop3, cleared_one] at h1
  refine wp.bind h1 ?_
  rintro _ u ⟨hsu, hu⟩
  have h2 := uvmunmap_keep hu (a := trapframePage) (by rw [htop4]; decide)
  rw [htop4, cleared_one] at h2
  refine wp.bind h2 ?_
  rintro _ v ⟨hsv, hv⟩
  rw [← leaves_high (show UPAGES ≤ trampolinePage by omega),
    ← leaves_high (show UPAGES ≤ trapframePage by omega)] at hv
  refine (uvmfree_wp hv hsp.size fun a ha hge => ?_).mono fun _ x hx =>
    ⟨((hsu.mono hle).trans (hsv.mono hle)).trans hx.1, hx.2⟩
  refine hv.eq_zero ha ?_
  by_contra hc
  simp only [Bool.not_eq_false] at hc
  by_cases e1 : a = trapframePage
  · rw [e1, update_self] at hc
    exact absurd hc (by decide)
  by_cases e2 : a = trampolinePage
  · rw [e2, update_of_ne (by omega), update_self] at hc
    exact absurd hc (by decide)
  rw [update_of_ne e1, update_of_ne e2] at hc
  have := hsp.low a ha hc
  omega

end Xv6.MemSpace
