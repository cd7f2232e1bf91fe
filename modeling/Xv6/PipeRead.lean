import Xv6.PipeQueue
import Xv6.UserCopy

/-!
`piperead` with the memory of the process that reads (kernel/pipe.c, kernel/vm.c).

The copy loop runs with `pi->lock` held, so nobody else changes the pipe meanwhile. A byte
leaves the ring before `copyout` is called for it.
-/

namespace Xv6.PipeRead

open Bytes Hoare RingBuffer PipeModel PipeQueue VmModel VmTable
open VmUser VmMap VmCopy UserCopy PageTree

section
variable [Layout]

/-- The second loop of `piperead`, with `k` more rounds to go: the final `i`, and the ring. -/
def copyLoop (pr : Myproc) (addr : ℕ) :
    ℕ → Ring UInt8 32 PIPESIZE → ℕ → Vm (ℕ × Ring UInt8 32 PIPESIZE)
  | 0, ring, i => return (i, ring)
  | k + 1, ring, i => do
    if ring.nread = ring.nwrite then return (i, ring)
    let ch := front ring
    let ring := pop ring
    if !(← copyout pr pr.pagetable (addr + i) [ch]) then return (i, ring)
    copyLoop pr addr k ring (i + 1)

/-- `piperead` with the lock held: its answer and the pipe it leaves, and `none` where it goes
to sleep. -/
def piperead (pr : Myproc) (pi : Pipe) (killed : Bool) (addr : ℕ) (n : ℤ) :
    Vm (Option (ℤ × Pipe)) := do
  if pi.ring.nread = pi.ring.nwrite ∧ pi.writeopen then
    if killed then return some (-1, pi)
    return none
  let (i, ring) ← copyLoop pr addr n.toNat pi.ring 0
  return some (i, { pi with ring := ring })

variable {s u : Mach} {root va sz : ℕ} {e e' : ℕ → ℕ} {F : Multiset ℕ}

/-- What `copyout` of one byte does: it stores the byte, or no byte changes and the page is not
one that the user can write to. -/
def StoredOne (s : Mach) (e : ℕ → ℕ) (va : ℕ) (ch : UInt8) (r : Bool) (u : Mach) (e' : ℕ → ℕ) :
    Prop :=
  if r then OpenW e' va ∧ ∀ b, b / PGSIZE < UPAGES →
    byteAt u e' b = if b = va then ch else byteAt s e b
  else SameBytes s e u e' ∧ ¬ OpenW e' va

/-! ### Memory for the pages of the range -/

def Supply (s : Mach) (k : ℕ) : Prop := k ≤ s.freelist.length ∧ ∀ c, s.oom c = false

omit [Layout] in
lemma Supply.mono {k l : ℕ} (h : Supply s l) (hkl : k ≤ l) : Supply s k := ⟨hkl.trans h.1, h.2⟩

omit [Layout] in
lemma Supply.store {k : ℕ} (h : Supply s k) (p : ℕ) (b : Buf PGSIZE) : Supply (s.store p b) k := h

omit [Layout] in
lemma kalloc_supply {k : ℕ} (h : Supply s (k + 1)) :
    wp kalloc s fun r u => r.isSome ∧ Supply u k := by
  simp only [kalloc, wp_bind, wp_get, wp_set, h.2, Bool.false_eq_true, if_false]
  have hpos : 0 < s.freelist.length := lt_of_lt_of_le (Nat.succ_pos k) h.1
  obtain ⟨r, rest, hf⟩ := List.exists_cons_of_length_pos hpos
  rw [hf]
  simp only [memset, wp_bind, wp_modify, wp_pure, Option.isSome_some, true_and]
  refine Supply.store (s := { s with freelist := rest, calls := s.calls + 1 }) ⟨?_, h.2⟩ r _
  have := h.1
  rw [hf, List.length_cons] at this
  exact Nat.le_of_succ_le_succ this

omit [Layout] in
lemma walkFrom_supply {k level : ℕ} (h : Supply s (k + level)) (pagetable : ℕ) :
    wp (walkFrom va true level pagetable) s fun r u => r.isSome ∧ Supply u k := by
  induction level generalizing s pagetable with
  | zero => exact wp_pure.mpr ⟨rfl, h⟩
  | succ level ih =>
    simp only [walkFrom, readPte, wp_bind, wp_get, wp_pure, Bool.not_true, Bool.false_eq_true,
      if_false]
    split_ifs with hv
    · exact ih (h.mono (by omega)) _
    · refine wp.bind (kalloc_supply (k := k + level) h) ?_
      rintro r u ⟨hr, hu⟩
      obtain ⟨new, rfl⟩ := Option.isSome_iff_exists.mp hr
      simp only [memset, writePte, wp_bind, wp_modify]
      exact ih ((hu.store _ _).store _ _) new

/-- An address of a page that is not there yet, below the size of the process. -/
def Lazy (sz : ℕ) (e : ℕ → ℕ) (va : ℕ) : Prop :=
  has (e (va / PGSIZE)) PTE_V = false ∧ PGROUNDDOWN va < sz

/-- A fault takes three pages at most. -/
lemma vmfault_supply {k : ℕ} (h : UserTable s root e sz F) (hs : Supply s (k + 3))
    (hva : va < sz) (hv : has (e (va / PGSIZE)) PTE_V = false) :
    wp (vmfault ⟨sz, root⟩ root va) s fun r u => r.isSome ∧ Supply u k := by
  have hup := pages_le h.size
  have hlt := user_lt (show va / PGSIZE < UPAGES by unfold pages PGSIZE at *; omega)
  rw [vmfault, if_neg (by simpa using hva)]
  refine wp.bind (ismapped_wp h.table.entries (show PGROUNDDOWN va < MAXVA from hlt.1)) ?_
  rintro r u ⟨rfl, hr⟩
  rw [PGROUNDDOWN_div, hv] at hr
  subst hr
  have h0 := h.table.eq_zero hlt.2 hv
  refine wp.bind (h.table.kalloc.and (kalloc_supply (k := k + 2) hs)) ?_
  rintro r v ⟨⟨-, -, hv1⟩, hr, hsv⟩
  obtain ⟨mem, rfl⟩ := Option.isSome_iff_exists.mp hr
  obtain ⟨hz, -⟩ := (hv1 mem rfl).store_own (Buf.fill PGSIZE 0)
  have hmem := allocatable_lt (hz.owns.mem (Multiset.mem_add.mpr (.inr (mem_own mem _))))
  simp only [memset, wp_bind, wp_modify]
  have hal : PGROUNDDOWN va % PGSIZE = 0 := Nat.mul_mod_left _ _
  rw [mappages, if_neg (by omega), if_neg (by decide), if_neg (by decide),
    show PGSIZE / PGSIZE = 0 + 1 from rfl]
  simp only [search, wp_bind, Nat.zero_mul, Nat.add_zero]
  have hwalk : wp (walk root (PGROUNDDOWN va) true) (v.store mem (Buf.fill PGSIZE 0)) fun r u =>
      r.isSome ∧ Supply u k := by
    rw [walk, if_neg (by have := hlt.1; unfold PGROUNDDOWN; omega)]
    exact walkFrom_supply (hsv.store _ _) root
  refine ((hz.walk_alloc (show PGROUNDDOWN va < MAXVA from hlt.1)).and hwalk).mono ?_
  rintro r w ⟨⟨-, ht, hr⟩, hsome, hsw⟩
  obtain rfl | ⟨l, rfl, hl⟩ := hr
  · cases hsome
  · have hw : has (words w.mem l (slot sv39 0 (PGROUNDDOWN va / PGSIZE))) PTE_V = false := by
      rw [PGROUNDDOWN_div] at hl ⊢
      rw [← has_mapping, ht.entries.word hlt.2 hl, hv]
    simp only [readPte, writePte, wp_bind, wp_get, wp_pure, hw, Bool.false_eq_true, if_false,
      wp_modify, Option.isNone_none, Bool.not_true, Option.isSome_some, true_and]
    exact hsw.store _ _

/-- A byte that can be stored with `k` pages left over. -/
def Ready (s : Mach) (e : ℕ → ℕ) (sz va k : ℕ) : Prop :=
  OpenW e va ∧ Supply s k ∨ Lazy sz e va ∧ Supply s (k + 3)

lemma userPage_ready {k : ℕ} (h : UserTable s root e sz F) (hr : Ready s e sz va k) :
    wp (userPage ⟨sz, root⟩ root (PGROUNDDOWN va)) s fun r u => r.isSome ∧ Supply u k := by
  rw [userPage]
  refine wp.bind (walkaddr_wp h.table.entries) ?_
  rintro r u ⟨rfl, hr'⟩
  rw [PGROUNDDOWN_div] at hr'
  rcases hr with ⟨hop, hs⟩ | ⟨⟨hv, hlt⟩, hs⟩
  · rw [if_pos ⟨(user_lt hop.1.1).1, hop.1.2⟩] at hr'
    subst hr'
    exact wp_pure.mpr ⟨rfl, hs⟩
  · rw [if_neg (by simp [hv])] at hr'
    subst hr'
    exact vmfault_supply h hs hlt (by rw [PGROUNDDOWN_div]; exact hv)

lemma copyout_one (h : UserTable s root e sz F) (va : ℕ) (ch : UInt8) :
    wp (copyout ⟨sz, root⟩ root va [ch]) s fun r u => (∃ e', UserTable u root e' sz F ∧
      Filled sz e e' ∧ (∀ a ≠ va / PGSIZE, e' a = e a) ∧ Same F s u ∧
      StoredOne s e va ch r u e') ∧ ∀ k, Ready s e sz va k → r = true ∧ Supply u k := by
  rw [copyout, List.length_singleton, copyoutLoop]
  dsimp only
  rw [if_neg (by simp)]
  have hdiv : PGROUNDDOWN va / PGSIZE = va / PGSIZE := PGROUNDDOWN_div va
  split_ifs with hM
  · refine wp_pure.mpr ⟨⟨e, h, Filled.refl sz e, fun _ _ => rfl, Same.refl F s, SameBytes.refl s e,
      fun hop => ?_⟩, fun k hr => ?_⟩
    · exact absurd (user_lt hop.1.1).1 (Nat.not_lt.mpr hM)
    · rcases hr with ⟨hop, -⟩ | ⟨⟨-, hlt⟩, -⟩
      · exact absurd (user_lt hop.1.1).1 (Nat.not_lt.mpr hM)
      · have := h.size
        have h64 : TRAPFRAME < MAXVA := by decide
        omega
  · obtain ⟨r, u, hrun, e₁, hu, hf, hs, hb, hnone, hoff, hpa⟩ :=
      userPage_spec (PGROUNDDOWN va) h
    have hready : ∀ k, Ready s e sz va k → r.isSome ∧ Supply u k := fun k hr => by
      obtain ⟨r', u', hrun', hq⟩ := userPage_ready h hr
      rw [hrun] at hrun'
      obtain ⟨rfl, rfl⟩ : r = r' ∧ u = u' := by simpa using hrun'
      exact hq
    refine wp_bind.mpr ⟨r, u, hrun, ?_⟩
    rw [hdiv] at hoff
    cases r with
    | none =>
      refine wp_pure.mpr ⟨⟨e₁, hu, hf, hoff, hs, hb, fun hop => hnone rfl ?_⟩, fun k hr => ?_⟩
      · unfold Open
        rw [hdiv]
        exact hop.1
      · cases (hready k hr).1
    | some pa =>
      obtain ⟨hopen, rfl, hW'⟩ := hpa pa rfl
      have hop : Open e₁ va := by
        unfold Open at hopen ⊢
        rwa [hdiv] at hopen
      refine wp.bind (hu.table.entries.walk_valid (by omega) hopen.2.1) ?_
      rintro r u' ⟨rfl, l, rfl, -, hw⟩
      rw [hdiv] at hw hW' ⊢
      simp only [readPte, wp_bind, wp_get, wp_pure, hw]
      cases hW : has (e₁ (va / PGSIZE)) PTE_W with
      | false =>
        simp only [Bool.not_false, if_true]
        refine wp_pure.mpr ⟨⟨e₁, hu, hf, hoff, hs, hb, fun hop => ?_⟩, fun k hr => ?_⟩
        · rw [hop.2] at hW
          cases hW
        · rcases hr with ⟨hop, -⟩ | ⟨⟨hv, -⟩, -⟩
          · rw [(hop.fill hf).2] at hW
            cases hW
          · rw [hW' hv] at hW
            cases hW
      | true =>
        have hmem : PTE2PA (e₁ (va / PGSIZE)) ∈ leaves e₁ := mem_leaves hop.1 hop.2.1
        have hone : min (PGSIZE - (va - PGROUNDDOWN va)) [ch].length = chunk va [ch].length := rfl
        have hchunk : chunk va [ch].length = 1 :=
          Nat.le_antisymm (chunk_le _ _) (chunk_pos va (by simp))
        simp only [Bool.not_true, Bool.false_eq_true, if_false, writeBytes, wp_bind, wp_modify,
          copyoutLoop, hone]
        refine wp_pure.mpr ⟨⟨e₁, ⟨hu.table.store (Multiset.mem_add.mpr (.inl hmem)) _, hu.size,
          hu.user⟩, hf, hoff, hs.trans (store_same (fun hF => leaves_not_frame hu.table hmem hF) _),
          ⟨hop, hW⟩, fun b hlt => ?_⟩, fun k hr => ⟨rfl, (hready k hr).2.store _ _⟩⟩
        rw [byteAt_write hu.table hop hlt rfl, hb b hlt, hchunk]
        by_cases hbv : b = va
        · subst hbv
          simp
        · rw [if_neg (by omega), if_neg hbv]

/-! ### The copy loop -/

/-- What the copy loop does in at most `k` rounds: it stores the first `j` bytes of the ring from
`addr` on, and takes these out of it, and one more if a `copyout` failed. -/
structure Transfer (s : Mach) (e : ℕ → ℕ) (u : Mach) (e' : ℕ → ℕ) (addr k : ℕ)
    (ring ring' : Ring UInt8 32 PIPESIZE) (j : ℕ) (failed : Bool) : Prop where
  left : contents ring' = (contents ring).drop (j + failed.toNat)
  count : if failed then j < min k (used ring) else j = min k (used ring)
  opened : ∀ i < j, OpenW e' (addr + i)
  stuck : failed = true → ¬ OpenW e' (addr + j)
  bytes : ∀ b, b / PGSIZE < UPAGES → byteAt u e' b =
    if addr ≤ b ∧ b < addr + j then (contents ring).getD (b - addr) 0 else byteAt s e b

omit [Layout] in
lemma transfer_none (hb : SameBytes s e u e') (addr : ℕ) {k : ℕ} {ring : Ring UInt8 32 PIPESIZE}
    (h0 : min k (used ring) = 0) : Transfer s e u e' addr k ring ring 0 false :=
  ⟨rfl, h0.symm, fun i hi => by omega, by simp,
    fun b hlt => by rw [if_neg (by omega)]; exact hb b hlt⟩

omit [Layout] in
lemma transfer_failed (hb : SameBytes s e u e') {addr : ℕ} (hno : ¬ OpenW e' addr) (k : ℕ)
    {ring : Ring UInt8 32 PIPESIZE} (h0 : used ring ≠ 0) :
    Transfer s e u e' addr (k + 1) ring (pop ring) 0 true := by
  refine ⟨?_, ?_, fun i hi => by omega, fun _ => hno,
    fun b hlt => by rw [if_neg (by omega)]; exact hb b hlt⟩
  · rw [contents_pop PIPESIZE_dvd h0]
    rfl
  · rw [if_pos rfl]
    omega

omit [Layout] in
lemma transfer_cons {v : Mach} {e₁ : ℕ → ℕ} {addr k j : ℕ} {ring ring' : Ring UInt8 32 PIPESIZE}
    {failed : Bool} (h0 : used ring ≠ 0) (hf : Filled sz e₁ e')
    (hone : StoredOne s e addr (front ring) true v e₁)
    (h : Transfer v e₁ u e' (addr + 1) k (pop ring) ring' j failed) :
    Transfer s e u e' addr (k + 1) ring ring' (j + 1) failed := by
  obtain ⟨hopen, hbyte⟩ := hone
  have hc := contents_pop PIPESIZE_dvd h0
  have hu := used_pop h0
  refine ⟨?_, ?_, fun i hi => ?_, fun hfail => ?_, fun b hlt => ?_⟩
  · rw [h.left, hc, Nat.add_right_comm, List.drop_succ_cons]
  · have := h.count
    split_ifs at this ⊢ <;> omega
  · rcases Nat.eq_zero_or_pos i with rfl | hi0
    · exact hopen.fill hf
    · have := h.opened (i - 1) (by omega)
      rwa [show addr + 1 + (i - 1) = addr + i by omega] at this
  · rw [← Nat.add_assoc, Nat.add_right_comm]
    exact h.stuck hfail
  · rw [h.bytes b hlt, hbyte b hlt, hc]
    by_cases hb : b = addr
    · subst hb
      rw [if_neg (by omega), if_pos rfl, if_pos (by omega), Nat.sub_self, List.getD_cons_zero]
    · rw [if_neg hb]
      by_cases hin : addr ≤ b ∧ b < addr + (j + 1)
      · rw [if_pos (by omega), if_pos hin, show b - addr = b - (addr + 1) + 1 by omega,
          List.getD_cons_succ]
      · rw [if_neg (by omega), if_neg hin]

lemma copyLoop_spec (h : UserTable s root e sz F) (addr k : ℕ) (ring : Ring UInt8 32 PIPESIZE)
    (i : ℕ) :
    wp (copyLoop ⟨sz, root⟩ addr k ring i) s fun r u => ∃ e' j failed, UserTable u root e' sz F ∧
      Filled sz e e' ∧ Same F s u ∧ r.1 = i + j ∧
      Transfer s e u e' (addr + i) k ring r.2 j failed := by
  induction k generalizing s e ring i with
  | zero =>
    exact wp_pure.mpr ⟨e, 0, false, h, Filled.refl sz e, Same.refl F s, rfl,
      transfer_none (SameBytes.refl s e) _ (Nat.zero_min _)⟩
  | succ k ih =>
    rw [copyLoop]
    by_cases h0 : ring.nread = ring.nwrite
    · rw [if_pos h0]
      refine wp_pure.mpr ⟨e, 0, false, h, Filled.refl sz e, Same.refl F s, rfl, ?_⟩
      exact transfer_none (SameBytes.refl s e) _ (by rw [used_eq_zero.mpr h0, Nat.min_zero])
    · rw [if_neg h0]
      have hused : used ring ≠ 0 := used_eq_zero.not.mpr h0
      refine wp.bind (copyout_one h _ _) ?_
      rintro r v ⟨⟨e₁, hv, hf, -, hs, hone⟩, -⟩
      cases r with
      | false =>
        refine wp_pure.mpr ⟨e₁, 0, true, hv, hf, hs, rfl, ?_⟩
        exact transfer_failed hone.1 hone.2 k hused
      | true =>
        refine (ih hv (pop ring) (i + 1)).mono ?_
        rintro r x ⟨e₂, j, failed, hx, hf', hs', hi, ht⟩
        exact ⟨e₂, j + 1, failed, hx, hf.trans hf', hs.trans hs', by omega,
          transfer_cons hused hf' hone ht⟩

def missing (e : ℕ → ℕ) (addr m : ℕ) : Finset ℕ :=
  ((Finset.range m).image fun i => (addr + i) / PGSIZE).filter fun a => has (e a) PTE_V = false

lemma copyLoop_ready (h : UserTable s root e sz F) (addr k : ℕ) (ring : Ring UInt8 32 PIPESIZE)
    (i : ℕ) (hall : ∀ j < min k (used ring), OpenW e (addr + i + j) ∨ Lazy sz e (addr + i + j))
    (hs : Supply s (3 * (missing e (addr + i) (min k (used ring))).card)) :
    wp (copyLoop ⟨sz, root⟩ addr k ring i) s fun r _ => r.1 = i + min k (used ring) := by
  induction k generalizing s e ring i with
  | zero => exact wp_pure.mpr (by simp)
  | succ k ih =>
    rw [copyLoop]
    by_cases h0 : ring.nread = ring.nwrite
    · rw [if_pos h0]
      exact wp_pure.mpr (by rw [used_eq_zero.mpr h0, Nat.min_zero]; rfl)
    · rw [if_neg h0]
      have hused : used ring ≠ 0 := used_eq_zero.not.mpr h0
      have hpop := used_pop hused
      have hmin : min (k + 1) (used ring) = min k (used (pop ring)) + 1 := by omega
      rw [hmin] at hall hs ⊢
      generalize hm : min k (used (pop ring)) = m at hall hs ⊢
      -- a page that is faulted in now is missing no more
      have hcard : ∀ e₁, Filled sz e e₁ → OpenW e₁ (addr + i) →
          (missing e₁ (addr + (i + 1)) m).card + (if has (e ((addr + i) / PGSIZE)) PTE_V then 0
            else 1) ≤ (missing e (addr + i) (m + 1)).card := by
        intro e₁ hf hop
        have hsub : missing e₁ (addr + (i + 1)) m ⊆
            (missing e (addr + i) (m + 1)).erase ((addr + i) / PGSIZE) := by
          intro a ha
          obtain ⟨himg, hv⟩ := Finset.mem_filter.mp ha
          obtain ⟨j, hj, rfl⟩ := Finset.mem_image.mp himg
          refine Finset.mem_erase.mpr ⟨fun hc => ?_, Finset.mem_filter.mpr
            ⟨Finset.mem_image.mpr ⟨j + 1, ?_, ?_⟩, ?_⟩⟩
          · rw [hc, hop.1.2.1] at hv
            cases hv
          · exact Finset.mem_range.mpr (Nat.succ_lt_succ (Finset.mem_range.mp hj))
          · congr 1
            omega
          · by_contra hv'
            have hv' : has (e ((addr + (i + 1) + j) / PGSIZE)) PTE_V = true := by simpa using hv'
            rw [hf.keep _ hv', hv'] at hv
            cases hv
        have hle := Finset.card_le_card hsub
        split_ifs with hv
        · exact hle.trans (Finset.card_erase_le)
        · have hmem : (addr + i) / PGSIZE ∈ missing e (addr + i) (m + 1) :=
            Finset.mem_filter.mpr ⟨Finset.mem_image.mpr ⟨0, by simp, by simp⟩, by simpa using hv⟩
          have := Finset.card_erase_add_one hmem
          omega
      have hready : ∃ c, Ready s e sz (addr + i) c ∧ ∀ e₁, Filled sz e e₁ → OpenW e₁ (addr + i) →
          3 * (missing e₁ (addr + (i + 1)) m).card ≤ c := by
        rcases hall 0 (Nat.succ_pos _) with hop | hlazy
        · refine ⟨_, .inl ⟨hop, hs⟩, fun e₁ hf ho => ?_⟩
          have := hcard e₁ hf ho
          omega
        · have hmem : (addr + i) / PGSIZE ∈ missing e (addr + i) (m + 1) :=
            Finset.mem_filter.mpr ⟨Finset.mem_image.mpr ⟨0, by simp, by simp⟩, hlazy.1⟩
          have hpos := Finset.card_pos.mpr ⟨_, hmem⟩
          refine ⟨3 * ((missing e (addr + i) (m + 1)).card - 1), .inr ⟨hlazy, hs.mono (by omega)⟩,
            fun e₁ hf ho => ?_⟩
          have := hcard e₁ hf ho
          have hv : has (e ((addr + i) / PGSIZE)) PTE_V = false := hlazy.1
          rw [hv, if_neg (by simp)] at this
          omega
      obtain ⟨c, hready, hleft⟩ := hready
      refine wp.bind (copyout_one h _ _) ?_
      rintro r v ⟨⟨e₁, hv, hf, hoff, -, hone⟩, hr⟩
      obtain ⟨rfl, hsv⟩ := hr c hready
      have hop : OpenW e₁ (addr + i) := hone.1
      refine (ih hv (pop ring) (i + 1) ?_ (hsv.mono ?_)).mono fun r _ hr => by omega
      · intro j hj
        rw [← Nat.add_assoc, Nat.add_right_comm _ 1 j]
        have hthis := hall (j + 1) (by omega)
        by_cases hpage : (addr + i + (j + 1)) / PGSIZE = (addr + i) / PGSIZE
        · refine .inl ?_
          unfold OpenW Open at hop ⊢
          rw [show addr + i + j + 1 = addr + i + (j + 1) by omega, hpage]
          exact hop
        · refine hthis.imp (fun ho => ho.fill hf) fun hl => ?_
          unfold Lazy at hl ⊢
          rwa [show addr + i + j + 1 = addr + i + (j + 1) by omega, hoff _ hpage]
      · rw [hm]
        exact hleft e₁ hf hop

/-- All bytes that have left the pipe are among the `stored` ones, and the answer 0 means that
there was nothing to read. -/
def Lossless (pi pi' : Pipe) (n ret : ℤ) (stored : ℕ) : Prop :=
  contents pi.ring = (contents pi.ring).take stored ++ contents pi'.ring ∧
    used pi.ring = stored + used pi'.ring ∧ (ret = 0 → n ≤ 0 ∨ used pi.ring = 0)

omit [Layout] in
lemma Transfer.lossless_iff {pi : Pipe} {n : ℤ} {addr j : ℕ} {ring : Ring UInt8 32 PIPESIZE}
    {failed : Bool} (h : Transfer s e u e' addr n.toNat pi.ring ring j failed) :
    Lossless pi { pi with ring := ring } n j j ↔ failed = false := by
  have hlen : ∀ ring : Ring UInt8 32 PIPESIZE, (contents ring).length = used ring := fun ring => by
    simp [contents]
  have hleft := congrArg List.length h.left
  rw [List.length_drop, hlen, hlen] at hleft
  have hcount := h.count
  cases failed with
  | false =>
    simp only [Bool.false_eq_true, if_false, Bool.toNat_false, Nat.add_zero] at hleft hcount
    refine iff_of_true ⟨?_, ?_, fun h0 => by omega⟩ rfl
    · rw [h.left, Bool.toNat_false, Nat.add_zero, List.take_append_drop]
    · change used pi.ring = j + used ring
      omega
  | true =>
    simp only [if_true, Bool.toNat_true] at hleft hcount
    refine iff_of_false ?_ (by simp)
    rintro ⟨-, hused, -⟩
    change used pi.ring = j + used ring at hused
    omega

omit [Layout] in
lemma Transfer.open_iff {addr k j : ℕ} {ring ring' : Ring UInt8 32 PIPESIZE} {failed : Bool}
    (h : Transfer s e u e' addr k ring ring' j failed) :
    (∀ i < min k (used ring), OpenW e' (addr + i)) ↔ failed = false := by
  have hcount := h.count
  cases failed with
  | false =>
    simp only [Bool.false_eq_true, if_false] at hcount
    exact iff_of_true (hcount ▸ h.opened) rfl
  | true =>
    simp only [if_true] at hcount
    exact iff_of_false (fun hall => h.stuck rfl (hall j hcount)) (by simp)

omit [Layout] in
lemma openW_before (h : OpenW e' va) (hf : Filled sz e e') : OpenW e va ∨ Lazy sz e va := by
  cases hv : has (e (va / PGSIZE)) PTE_V with
  | true =>
    have hkeep := hf.keep _ hv
    unfold OpenW Open at h ⊢
    rw [hkeep] at h
    exact .inl h
  | false =>
    refine .inr ⟨hv, ?_⟩
    by_contra hsz
    have hpage : pages sz ≤ va / PGSIZE := by
      unfold PGROUNDDOWN PGSIZE at hsz
      unfold pages PGSIZE
      omega
    have hhigh := hf.high (va / PGSIZE) hpage
    have := h.1.2.1
    rw [hhigh, hv] at this
    cases this

/-- **What a read takes out of a pipe.** For every pipe, address and length, `piperead` that does
not sleep stores the first bytes of the pipe in the caller's buffer, as many as it says it has
read, and no other byte changes. It loses no byte exactly if all pages of the range, as far as
the pipe has bytes for it, are for the user to write to when it is done. With free memory for the
pages that are not there yet, these are the ranges whose pages the user can write to before the
call, or that can be faulted in. -/
theorem piperead_loses_nothing (h : UserTable s root e sz F) (pi : Pipe) (killed : Bool)
    (addr : ℕ) (n : ℤ) :
    wp (piperead ⟨sz, root⟩ pi killed addr n) s fun r u => ∃ e', UserTable u root e' sz F ∧
      Filled sz e e' ∧ Same F s u ∧ ∀ ret pi', r = some (ret, pi') → ∃ stored : ℕ,
        (0 ≤ ret → ret = stored) ∧ (∀ i < stored, OpenW e' (addr + i)) ∧
        (∀ b, b / PGSIZE < UPAGES → byteAt u e' b =
          if addr ≤ b ∧ b < addr + stored then (contents pi.ring).getD (b - addr) 0
          else byteAt s e b) ∧
        (Lossless pi pi' n ret stored ↔
          ∀ i < min n.toNat (used pi.ring), OpenW e' (addr + i)) ∧
        (Supply s (3 * (missing e addr (min n.toNat (used pi.ring))).card) →
          (Lossless pi pi' n ret stored ↔
            ∀ i < min n.toNat (used pi.ring), OpenW e (addr + i) ∨ Lazy sz e (addr + i))) := by
  rw [piperead]
  by_cases hw : pi.ring.nread = pi.ring.nwrite ∧ pi.writeopen
  · have h0 : used pi.ring = 0 := used_eq_zero.mpr hw.1
    have hkeep : Lossless pi pi n (-1) 0 := ⟨by simp, by simp, by simp⟩
    rw [if_pos hw]
    cases killed with
    | false =>
      exact wp_pure.mpr ⟨e, h, Filled.refl sz e, Same.refl F s, by simp⟩
    | true =>
      refine wp_pure.mpr ⟨e, h, Filled.refl sz e, Same.refl F s, ?_⟩
      rintro ret pi' hr
      obtain ⟨rfl, rfl⟩ : -1 = ret ∧ pi = pi' := by simpa using hr
      refine ⟨0, by simp, fun i hi => by omega, fun b _ => by rw [if_neg (by omega)], ?_,
        fun _ => ?_⟩
      all_goals exact iff_of_true hkeep fun i hi => by omega
  · rw [if_neg hw, wp_bind]
    have hspec := copyLoop_spec h addr n.toNat pi.ring 0
    obtain ⟨⟨i, ring⟩, u, hrun, e', j, failed, hu, hf, hs, hi, ht⟩ := hspec
    refine ⟨_, _, hrun, wp_pure.mpr ⟨e', hu, hf, hs, ?_⟩⟩
    rintro ret pi' hr
    obtain ⟨rfl, rfl⟩ : (i : ℤ) = ret ∧ { pi with ring := ring } = pi' := by simpa using hr
    dsimp only at hi ht
    obtain rfl : i = j := by omega
    refine ⟨i, fun _ => rfl, ht.opened, ht.bytes, ht.lossless_iff.trans ht.open_iff.symm,
      fun hsup => ht.lossless_iff.trans ⟨fun hfail i hi => ?_, fun hall => ?_⟩⟩
    · exact openW_before (ht.open_iff.mpr hfail i hi) hf
    · obtain ⟨r, v, hrun', hr'⟩ := copyLoop_ready h addr n.toNat pi.ring 0 hall hsup
      rw [hrun] at hrun'
      obtain ⟨rfl, rfl⟩ : (i, ring) = r ∧ u = v := by simpa using hrun'
      have hcount := ht.count
      cases failed with
      | false => rfl
      | true =>
        simp only [if_true] at hcount
        omega

end

def sevenPipe : Pipe := ⟨⟨fun k => if k.val = 0 then 7 else 8, 0, 2⟩, true, true⟩

set_option maxRecDepth 100000 in
lemma reads_across :
    (match @piperead eightPages ⟨2 * PGSIZE, 0x87fff⟩ sevenPipe false (PGSIZE - 1) 5 blankMach with
    | .ok (some (ret, _), _) => ret = 2
    | _ => false) = true := by decide +kernel

/-- A read of all bytes to two pages of the process that are not there yet. -/
theorem piperead_loses_nothing_seven :
    @UserTable eightPages blankMach 0x87fff (fun _ => 0) (2 * PGSIZE) 0 ∧
    ∃ pi' u, @piperead eightPages ⟨2 * PGSIZE, 0x87fff⟩ sevenPipe false (PGSIZE - 1) 5 blankMach =
        .ok (some (2, pi'), u) ∧ Lossless sevenPipe pi' 5 2 2 ∧
      ∃ e', byteAt u e' (PGSIZE - 1) = 7 ∧ byteAt u e' PGSIZE = 8 := by
  let _ : Layout := eightPages
  refine ⟨blank_userTable, ?_⟩
  have hacross := reads_across
  obtain ⟨r, u, hrun, e', -, -, -, hr⟩ :=
    piperead_loses_nothing blank_userTable sevenPipe false (PGSIZE - 1) 5
  rw [hrun] at hacross
  rcases r with _ | ⟨ret, pi'⟩
  · cases hacross
  · obtain rfl : ret = 2 := of_decide_eq_true hacross
    obtain ⟨stored, hret, -, hbytes, -, hiff⟩ := hr 2 pi' rfl
    obtain rfl : stored = 2 := by have := hret (by decide); omega
    refine ⟨pi', u, hrun, (hiff ⟨by decide, fun _ => rfl⟩).mpr fun i hi => .inr ?_, e', ?_, ?_⟩
    · have hused : used sevenPipe.ring = 2 := by decide
      rw [hused] at hi
      refine ⟨by change has 0 PTE_V = false; decide, ?_⟩
      unfold PGROUNDDOWN PGSIZE
      omega
    · rw [hbytes _ (by decide), if_pos (by decide)]
      decide
    · rw [hbytes _ (by decide), if_pos (by decide)]
      decide

/-- A read to an address beyond the process: the answer is 0, the value for the end of the file,
and a byte is gone. -/
theorem faulting_read_loses_byte :
    ∃ pi' u, @piperead eightPages ⟨2 * PGSIZE, 0x87fff⟩ sevenPipe false (2 * PGSIZE) 1 blankMach =
      .ok (some (0, pi'), u) ∧ used sevenPipe.ring = 2 ∧ used pi'.ring = 1 := by
  refine ⟨_, _, rfl, by decide, by decide⟩

end Xv6.PipeRead
