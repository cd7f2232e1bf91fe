import Xv6.MemInv
import Xv6.UserCopy

/-!
Every call that a process can make keeps the invariant of the memory.
-/

namespace Xv6.MemCalls

open Bytes Hoare Params PageTree VmModel VmTable VmUser VmCopy
open Function MemModel MemSpace MemExec MemFiles MemInv UserCopy
open ProcModel (ProcState scan scan_some)

variable [Layout] {n : ℕ} {s s' : Sys n} {p q : Fin n} {y : Multiset (Fin NFILE)}
  {H H' : Multiset ℕ} {T : Fin n → Option ℕ} {t tf : ℕ}

/-! ### Slots -/

def Quiet (s s' : Sys n) : Prop := ∀ i, (s'.mm i).ofile = (s.mm i).ofile

lemma free_trapframe_wp (ho : Owns s.vm (procPages s.vm (s.mm p) + H)) :
    wp (whenSome (s.mm p).trapframe fun tf => onVm (kfree tf)) s fun _ s₁ =>
      ∃ u, s₁ = { s with vm := u } ∧
        Same (tablePages s.vm (s.mm p) + userPages s.vm (s.mm p) + H) s.vm u ∧
        Owns u (tablePages s.vm (s.mm p) + userPages s.vm (s.mm p) + H) := by
  cases htf : (s.mm p).trapframe with
  | none =>
    rw [procPages, framePages, htf, Option.elim_none, add_zero] at ho
    exact wp_pure.mpr ⟨s.vm, rfl, Same.refl _ _, ho⟩
  | some tf =>
    rw [procPages, framePages_some htf, add_right_comm, add_comm _ ({tf} : Multiset ℕ)] at ho
    simp only [whenSome_some, onVm, wp_zoom]
    refine (kfree_wp ho).mono ?_
    rintro _ u ⟨hs, hu⟩
    exact ⟨u, rfl, hs, hu⟩

lemma free_pagetable_wp {v : Mach} {m : Mm}
    (hsame : Same (tablePages v m + userPages v m + H) v s.vm)
    (ho : Owns s.vm (tablePages v m + userPages v m + H))
    (hsp : ∀ t, m.pagetable = some t → Wf sv39 2 (words v.mem) t ∧
      ∃ tf, Space (mappings v t) m.sz tf) :
    wp (whenSome m.pagetable fun t => onVm (procFreepagetable t m.sz)) s fun _ s₁ =>
      ∃ w, s₁ = { s with vm := w } ∧ Same H v w ∧ Owns w H := by
  have hH : H ≤ tablePages v m + userPages v m + H := Multiset.le_add_left _ _
  cases ht : m.pagetable with
  | none =>
    rw [tablePages, userPages, ht, Option.elim_none, Option.elim_none, zero_add, zero_add] at ho
    exact wp_pure.mpr ⟨s.vm, rfl, hsame.mono hH, ho⟩
  | some t =>
    obtain ⟨hwf, tf, hspace⟩ := hsp t ht
    have hT : Same (tables sv39 2 (words v.mem) t) v s.vm := by
      rw [← tablePages_some ht]
      exact hsame.mono ((Multiset.le_add_right _ _).trans (Multiset.le_add_right _ _))
    have htable : Table s.vm t (mappings v t) (leaves (mappings v t) + H) := by
      refine ⟨every_congr sv39 hwf fun p hp => words_congr (hT p hp), fun a _ => ?_, ?_⟩
      · exact congrFun (mappings_congr hT) a
      · rw [tables_same hT, ← tablePages_some ht, ← userPages_some ht, ← add_assoc]
        exact ho
    simp only [whenSome_some, onVm, wp_zoom]
    refine (procFreepagetable_wp htable hspace).mono ?_
    rintro _ w ⟨hs, hw⟩
    refine ⟨w, rfl, ?_, hw⟩
    exact (hsame.mono hH).trans hs

lemma freeproc_wp (h : Rest s p y T)
    (ho : Owns s.vm (procPages s.vm (s.mm p) + (others s p + H)))
    (hsp : ∀ t, (s.mm p).pagetable = some t → Wf sv39 2 (words s.vm.mem) t ∧
      ∃ tf, Space (mappings s.vm t) (s.mm p).sz tf)
    (hfd : ∀ fd, (s.mm p).ofile fd = none) :
    wp (freeproc p) s fun _ s' => Inv s' y H T ∧ Quiet s s' ∧ Frame p s s' ∧
      (s'.tbl.procs p).state = .UNUSED := by
  simp only [freeproc, wp_bind, wp_get]
  refine (free_trapframe_wp ho).mono ?_
  rintro _ _ ⟨u, rfl, hsame, hu⟩
  simp only [wp_modify, Sys.setMm, update_self]
  refine (free_pagetable_wp (s := { s with
    vm := u, mm := update s.mm p { s.mm p with trapframe := none } }) (m := { s.mm p with
      trapframe := none }) hsame hu hsp).mono ?_
  rintro _ _ ⟨w, rfl, hs, hw⟩
  simp only [update_self, update_idem, Sys.setTbl]
  have hf : Frame p s { s with
      vm := w, tbl := s.tbl.freeproc p,
      mm := update s.mm p
        { s.mm p with trapframe := none, pagetable := none, sz := 0 } } := by
    refine ⟨hs.left, fun i hi => update_of_ne hi _ _,
      fun i hi => ?_, rfl, rfl⟩
    simp only [ProcModel.Table.freeproc, ProcModel.Table.set_procs_ne _ hi]
  refine ⟨(h.frame hf).inv ?_ ?_, fun i => ?_, hf, by simp [ProcModel.Table.freeproc]⟩
  · simp only [update_self]
    refine ⟨by simp [ProcModel.Table.freeproc], fun _ => ⟨rfl, rfl⟩, by simp, fun _ => hfd, by simp⟩
  · rw [hf.others, procPages_none (by simp), framePages]
    simpa using hw
  · by_cases e : i = p
    · simp [e]
    · simp [e]

def claimed (s : Sys n) (p : Fin n) (v : Mach) (tf t : Option ℕ) : Sys n :=
  { s with
    vm := v
    tbl := s.tbl.claim p
    mm := update s.mm p { s.mm p with trapframe := tf, pagetable := t } }

omit [Layout] in
lemma claimed_frame {v : Mach} (h : Same (others s p) s.vm v) (tf t : Option ℕ) :
    Frame p s (claimed s p v tf t) := by
  refine ⟨h, fun i hi => update_of_ne hi _ _, fun i hi => ?_, rfl, rfl⟩
  simp only [claimed, ProcModel.Table.claim, ProcModel.Table.allocpid]
  rw [ProcModel.Table.set_procs_ne _ hi]

omit [Layout] in
@[simp] lemma claimed_mm {v : Mach} {tf t : Option ℕ} : (claimed s p v tf t).mm p =
    { s.mm p with trapframe := tf, pagetable := t } := update_self _ _ _

omit [Layout] in
lemma claimed_quiet {v : Mach} {tf t : Option ℕ} : Quiet s (claimed s p v tf t) := fun i => by
  by_cases e : i = p
  · rw [e, claimed_mm]
  · simp [claimed, e]

lemma claimed_freeproc_wp {v : Mach} {tf : Option ℕ} (h : Rest s p y T)
    (hfd : ∀ fd, (s.mm p).ofile fd = none) (hs : Same (others s p) s.vm v)
    (ho : Owns v (tf.elim 0 (fun x => {x}) + (others s p + H))) :
    wp (freeproc p) (claimed s p v tf none) fun _ s' => Inv s' y H T ∧ Quiet s s' ∧
      Frame p s s' ∧ (s'.tbl.procs p).state = .UNUSED := by
  have hf := claimed_frame hs tf none
  refine (freeproc_wp (H := H) (h.frame hf) ?_ (by simp) (by simpa using hfd)).mono ?_
  · rw [hf.others, procPages_none (by simp), framePages, claimed_mm]
    exact ho
  · rintro _ s' ⟨hi, hq, hf', hst⟩
    exact ⟨hi, fun i => (hq i).trans (claimed_quiet i), hf.trans hf', hst⟩

/-- A call has taken the first unused slot and given it back, or has found none. -/
def Undone (s s' : Sys n) : Prop := s' = s ∨ ∃ q, Frame q s s' ∧
  (s.tbl.procs q).state = .UNUSED ∧ (s'.tbl.procs q).state = .UNUSED

lemma allocproc_wp (h : Inv s y H T) (hT : ∀ i, (s.tbl.procs i).state = .UNUSED → T i = none) :
    wp allocproc s fun r s' => Quiet s s' ∧ (r = none → Inv s' y H T ∧ Undone s s') ∧
      ∀ p, r = some p →
      Inv s' y H T ∧ (s.tbl.procs p).state = .UNUSED ∧ (s'.tbl.procs p).state = .USED ∧
        (s'.mm p).sz = 0 ∧ Frame p s s' ∧
        scan (fun i => (s.tbl.procs i).state = .UNUSED) = some p := by
  simp only [allocproc, wp_bind, wp_get]
  cases hscan : scan fun i => (s.tbl.procs i).state = .UNUSED with
  | none => exact wp_pure.mpr ⟨fun _ => rfl, fun _ => ⟨h, .inl rfl⟩, by simp⟩
  | some p =>
    have hst : (s.tbl.procs p).state = .UNUSED := by simpa using scan_some hscan
    have hnone := (h.slots p).unused.mpr hst
    obtain ⟨htf, hsz⟩ := (h.slots p).empty hnone
    have hfd := (h.slots p).closed (.inl hst)
    obtain ⟨hrest, ho⟩ := h.rest p
    have hpages : procPages s.vm (s.mm p) = 0 := by
      rw [procPages_none hnone, framePages, htf, Option.elim_none]
    rw [hpages, zero_add] at ho
    have hle : others s p ≤ others s p + H := Multiset.le_add_right _ _
    simp only [wp_bind, wp_modify, onVm, wp_zoom]
    refine (kalloc_wp ho).mono ?_
    rintro r u ⟨hs, hn, hsome⟩
    have hs₁ := hs.mono hle
    have heq : ∀ x, ({ s with
        vm := u, tbl := s.tbl.claim p,
        mm := update s.mm p { s.mm p with trapframe := x } } : Sys n) =
        claimed s p u x none := fun x => by rw [claimed, ← hnone]
    simp only [Sys.setTbl, Sys.setMm, heq]
    cases r with
    | none =>
      refine wp.bind (claimed_freeproc_wp (H := H) hrest hfd hs₁ ?_) ?_
      · rw [Option.elim_none, zero_add]
        exact hn rfl
      · rintro _ s' ⟨hi, hq, hf, hst'⟩
        exact wp_pure.mpr ⟨hq, fun _ => ⟨hi, .inr ⟨p, hf, hst, hst'⟩⟩, by simp⟩
    | some tf =>
      have ho₁ := hsome tf rfl
      have htf52 := allocatable_lt (ho₁.mem (mem_own tf _))
      simp only [wp_bind, wp_zoom, wp_modify]
      refine (procPagetable_wp ho₁ htf52).mono ?_
      rintro r v ⟨hsv, hnv, hsomev⟩
      have hs₂ := hs₁.trans (hsv.right.mono hle)
      have heq₂ : ∀ x, ({ claimed s p u (some tf) none with
          vm := v, mm := update (claimed s p u (some tf) none).mm p
            { (claimed s p u (some tf) none).mm p with pagetable := x } } : Sys n) =
          claimed s p v (some tf) x := fun x => by
        rw [claimed_mm, claimed, claimed, update_idem]
      simp only [heq₂]
      cases r with
      | none =>
        refine wp.bind (claimed_freeproc_wp (H := H) hrest hfd hs₂ ?_) ?_
        · rw [Option.elim_some]
          exact hnv rfl
        · rintro _ s' ⟨hi, hq, hf, hst'⟩
          exact wp_pure.mpr ⟨hq, fun _ => ⟨hi, .inr ⟨p, hf, hst, hst'⟩⟩, by simp⟩
      | some t =>
        obtain ⟨e, hTable, hspace⟩ := hsomev t rfl
        have hf := claimed_frame hs₂ (some tf) (some t)
        have hused : ((claimed s p v (some tf) (some t)).tbl.procs p).state = .USED := by
          simp [claimed, ProcModel.Table.claim, ProcModel.Table.allocpid]
        refine wp_pure.mpr ⟨claimed_quiet, by simp, fun q hq => ?_⟩
        cases hq
        refine ⟨?_, hst, hused, by simpa using hsz, hf, rfl⟩
        have hmm : ((claimed s p v (some tf) (some t)).mm p).trapframe = some tf := by simp
        refine (hrest.frame hf).close (t := t) (e := e) (by simp) hmm ?_ ?_ (by simp [hused])
          (by simp [hused]) (.inl (hT p hst))
        · rw [hf.others]
          exact hTable
        · simpa [hsz] using hspace

lemma freeproc_inv (h : Inv s y H T) (hfd : ∀ fd, (s.mm p).ofile fd = none) :
    wp (freeproc p) s fun _ s' => Inv s' y H T ∧ Quiet s s' ∧ Frame p s s' ∧
      (s'.tbl.procs p).state = .UNUSED := by
  obtain ⟨hrest, ho⟩ := h.rest p
  refine freeproc_wp hrest ho (fun t ht => ?_) hfd
  obtain ⟨hwf, tf, -, hsp⟩ := (h.slots p).space t ht
  exact ⟨hwf, tf, hsp⟩

lemma used_table (h : Inv s y H T) (hst : (s.tbl.procs p).state ≠ .UNUSED) :
    ∃ t, (s.mm p).pagetable = some t := by
  rw [← Option.ne_none_iff_exists']
  exact fun hn => hst ((h.slots p).unused.mp hn)

/-! ### The memory of the process -/

omit [Layout] in
lemma wp_myproc (ht : (s.mm p).pagetable = some t) {Q : Myproc → Sys n → Prop} :
    wp (myproc p) s Q ↔ Q ⟨(s.mm p).sz, t⟩ s := by
  simp only [myproc, deref, wp_bind, wp_get, ht, wp_pure]

section

variable (h : Inv s y H T) (ht : (s.mm p).pagetable = some t)
include h ht

lemma copyout_inv (dstva : ℕ)
    (src : List UInt8) : wp (onVm (copyout ⟨(s.mm p).sz, t⟩ t dstva src)) s fun _ s' =>
      ∃ v, s' = { s with vm := v } ∧ Inv s' y H T := by
  obtain ⟨tf, htf, hsp, hT⟩ := h.table ht
  simp only [onVm, wp_zoom]
  exact (copyout_wp (hsp.userTable hT) dstva src).mono fun _ v hv =>
    ⟨v, rfl, h.touched ht htf hsp hv⟩

lemma copyin_inv (srcva len : ℕ) :
    wp (onVm (copyin ⟨(s.mm p).sz, t⟩ t srcva len)) s fun _ s' =>
      ∃ v, s' = { s with vm := v } ∧ Inv s' y H T := by
  obtain ⟨tf, htf, hsp, hT⟩ := h.table ht
  simp only [onVm, wp_zoom]
  exact (copyin_wp (hsp.userTable hT) srcva len).mono fun _ v hv =>
    ⟨v, rfl, h.touched ht htf hsp hv⟩

lemma copyinstr_inv (srcva max : ℕ) :
    wp (onVm (copyinstr t srcva max)) s fun _ s' => s' = s := by
  obtain ⟨tf, -, hsp, hT⟩ := h.table ht
  simp only [onVm, wp_zoom]
  refine (copyinstr_wp hT.entries (hsp.userTable hT).user srcva max).mono ?_
  rintro _ _ ⟨rfl, -⟩
  rfl

lemma vmfault_inv (va : ℕ) :
    wp (onVm (vmfault ⟨(s.mm p).sz, t⟩ t va)) s fun _ s' =>
      ∃ v, s' = { s with vm := v } ∧ Inv s' y H T := by
  obtain ⟨tf, htf, hsp, hT⟩ := h.table ht
  simp only [onVm, wp_zoom]
  refine (vmfault_wp hT hsp.size).mono ?_
  rintro _ v ⟨hs, e, hv, hfill⟩
  refine ⟨v, rfl, ?_⟩
  exact h.touched ht htf hsp ⟨hs, e, (hsp.userTable hT).fill hv hfill, hfill⟩

lemma storeFrame_inv (htf : (s.mm p).trapframe = some tf) (b : Buf PGSIZE) :
    Inv { s with vm := s.vm.store tf b } y H T := by
  obtain ⟨tf', htf', hsp, hT⟩ := h.table ht
  obtain rfl : tf = tf' := Option.some.inj (htf.symm.trans htf')
  have ho : Owns s.vm ({tf} + (tables sv39 2 (words s.vm.mem) t + leaves (mappings s.vm t) +
      (others s p + H))) := by
    have := hT.owns
    rw [← add_assoc, add_left_comm] at this
    exact this
  refine h.touch ht htf (store_same (fun hm => ho.notMem ?_) b) (hT.store ?_ b) hsp
  · exact Multiset.mem_add.mpr (.inr (Multiset.mem_add.mpr (.inl hm)))
  · exact Multiset.mem_add.mpr (.inr (mem_own tf _))

end

/-! ### Growing and shrinking -/

omit [Layout] in
lemma argint_bounds (a : ℕ) : -2147483648 ≤ argint a ∧ argint a < 2147483648 := by
  have key : ∀ m : ℕ, m = 4294967296 →
      -2147483648 ≤ Int.bmod (a : ℤ) m ∧ Int.bmod (a : ℤ) m < 2147483648 := by
    intro m hm
    have h1 := Int.le_bmod (x := (a : ℤ)) (m := m) (by omega)
    have h2 := Int.bmod_lt (x := (a : ℤ)) (m := m) (by omega)
    omega
  exact key _ (by norm_num)

omit [Layout] in
lemma addInt_of_le {sz : ℕ} {k : ℤ} (h0 : 0 ≤ (sz : ℤ) + k) (h1 : (sz : ℤ) + k ≤ TRAPFRAME) :
    (addInt sz k : ℤ) = sz + k := by
  have hT : (TRAPFRAME : ℤ) < 2 ^ 64 := by decide
  rw [addInt, Int.toNat_of_nonneg (Int.emod_nonneg _ (by norm_num)),
    Int.emod_eq_of_lt h0 (by omega)]

lemma space_grow {e e' : ℕ → ℕ} {sz newsz f : ℕ} (h : Space e sz tf) (hle : sz ≤ newsz)
    (hn : newsz ≤ TRAPFRAME) (hext : Extends e e' (pages sz) (pages newsz) f) :
    Space e' newsz tf := by
  have hup := pages_le hn
  have htop := pages_top
  refine ⟨hn, ?_, ?_, fun a ha hv => ?_⟩
  · rw [hext.old _ (.inr (by omega)), h.trampoline]
  · rw [hext.old _ (.inr (by omega)), h.trapframe]
  · by_cases hp : a < pages newsz
    · exact .inl hp
    · rw [hext.old a (.inr (by omega))] at hv
      rcases h.low a ha hv with hlt | htop'
      · exact .inl (hlt.trans_le (pages_mono hle))
      · exact .inr htop'

lemma space_shrink {e : ℕ → ℕ} {sz newsz : ℕ} (h : Space e sz tf) (hle : newsz ≤ sz) :
    Space (cleared e (pages newsz) (pages sz - pages newsz)) newsz tf := by
  have hup := pages_le h.size
  have htop := pages_top
  have hmono := pages_mono hle
  have hout : ∀ a, pages sz ≤ a → cleared e (pages newsz) (pages sz - pages newsz) a = e a :=
    fun a ha => if_neg (by omega)
  refine ⟨hle.trans h.size, ?_, ?_, fun a ha hv => ?_⟩
  · rw [hout _ (by omega), h.trampoline]
  · rw [hout _ (by omega), h.trapframe]
  · by_cases hin : pages newsz ≤ a ∧ a < pages newsz + (pages sz - pages newsz)
    · rw [cleared, if_pos hin] at hv
      exact absurd hv (by decide)
    · rw [cleared, if_neg hin] at hv
      rcases h.low a ha hv with hlt | htop'
      · exact .inl (by omega)
      · exact .inr htop'

lemma space_lazy {e : ℕ → ℕ} {sz newsz : ℕ} (h : Space e sz tf) (hle : sz ≤ newsz)
    (hn : newsz ≤ TRAPFRAME) : Space e newsz tf := by
  refine ⟨hn, h.trampoline, h.trapframe, fun a ha hv => ?_⟩
  exact (h.low a ha hv).imp_left fun hlt => hlt.trans_le (pages_mono hle)

omit [Layout] in
lemma setMm_sz (ht : (s.mm p).pagetable = some t) (v : Mach) (sz : ℕ) :
    ({ s with vm := v } : Sys n).setMm p { s.mm p with sz := sz } = respace s p v t sz := by
  rw [Sys.setMm, respace, ← ht]

omit [Layout] in
lemma respace_quiet (s : Sys n) (p : Fin n) (v : Mach) (t sz : ℕ) :
    Quiet s (respace s p v t sz) := fun i => by
  by_cases e : i = p
  · simp [respace, e]
  · simp [respace, e]

/-- What a change of the size from `sz` to `sz'` may do to the bytes of a process. -/
structure Moved (v : Mach) (e : ℕ → ℕ) (sz : ℕ) (v' : Mach) (e' : ℕ → ℕ) (sz' : ℕ) : Prop where
  keep : ∀ va < min sz sz', byteAt v' e' va = byteAt v e va
  zero : ∀ va, PGROUNDUP sz ≤ va → va < sz' → byteAt v' e' va = 0

omit [Layout] in
lemma page_lt_pages {va sz : ℕ} (h : va < sz) : va / PGSIZE < pages sz := by
  unfold pages PGSIZE
  omega

omit [Layout] in
lemma pages_le_page {va sz : ℕ} (hsz : sz ≤ TRAPFRAME) (h : PGROUNDUP sz ≤ va) :
    pages sz ≤ va / PGSIZE := by
  rw [PGROUNDUP_eq hsz] at h
  exact (Nat.le_div_iff_mul_le (by decide)).mpr h

lemma moved_lazy {e : ℕ → ℕ} {v : Mach} {t sz newsz : ℕ} {R : Multiset ℕ} (h : Space e sz tf)
    (hT : Table v t e R) (hn : newsz ≤ TRAPFRAME) : Moved v e sz v e newsz := by
  refine ⟨fun _ _ => rfl, fun va h1 h2 => byteAt_not_valid ?_⟩
  have hup := pages_le hn
  have hlt := page_lt_pages h2
  rw [h.high hT (pages_le_page h.size h1) (by omega)]
  rfl

omit [Layout] in
lemma moved_shrink {e : ℕ → ℕ} {v u : Mach} {sz newsz : ℕ} (hsz : sz ≤ TRAPFRAME)
    (hle : newsz ≤ sz) (hs : Same (leaves (cleared e (pages newsz) (pages sz - pages newsz))) v u) :
    Moved v e sz u (cleared e (pages newsz) (pages sz - pages newsz)) newsz := by
  have hup := pages_le hsz
  have hmono := pages_mono hle
  refine ⟨fun va hva => ?_, fun va h1 h2 => ?_⟩
  · have hlt := page_lt_pages (show va < newsz by omega)
    have hout : cleared e (pages newsz) (pages sz - pages newsz) (va / PGSIZE) = e (va / PGSIZE) :=
      if_neg (by omega)
    rw [sameBytes_of_same hs va (by omega)]
    simp only [byteAt, hout]
  · have := page_lt_pages h2
    have := pages_le_page hsz h1
    omega

lemma moved_grow {e e' : ℕ → ℕ} {v u : Mach} {sz newsz f : ℕ} (h : Space e sz tf)
    (hle : sz ≤ newsz) (hn : newsz ≤ TRAPFRAME) (hs : Same (leaves e) v u)
    (hext : Extends e e' (pages sz) (pages newsz) (f ||| PTE_V))
    (hz : Zeroed u e' (pages sz) (pages newsz)) : Moved v e sz u e' newsz := by
  have hup := pages_le hn
  refine ⟨fun va hva => ?_, fun va h1 h2 => ?_⟩
  · have hlt := page_lt_pages (show va < sz by omega)
    have hmono := pages_mono hle
    rw [← sameBytes_of_same hs va (by omega)]
    simp only [byteAt, hext.old _ (.inl hlt)]
  · have hge := pages_le_page h.size h1
    have hlt := page_lt_pages h2
    rw [byteAt_valid (hext.valid hge hlt), hz _ hge hlt, Buf.get_fill_zero]

/-- The state after a call that has moved the size of process `p`. -/
def Resized (s : Sys n) (p : Fin n) (t tf : ℕ) (H : Multiset ℕ) (sz' : ℕ) (s' : Sys n) : Prop :=
  ∃ v e', s' = respace s p v t sz' ∧ Same (others s p) s.vm v ∧
    Table v t e' (leaves e' + ({tf} + (others s p + H))) ∧ Space e' sz' tf ∧
    Moved s.vm (mappings s.vm t) (s.mm p).sz v e' sz'

/-- The state after a call that has failed: a page of the table may be new, no mapping is. -/
def Unmoved (s : Sys n) (p : Fin n) (t tf : ℕ) (H : Multiset ℕ) (s' : Sys n) : Prop :=
  ∃ v, s' = { s with vm := v } ∧
    Same (leaves (mappings s.vm t) + ({tf} + (others s p + H))) s.vm v ∧
    Table v t (mappings s.vm t) (leaves (mappings s.vm t) + ({tf} + (others s p + H)))

/-- The size that `sbrk` of `k` bytes asks for; a size below zero is none. -/
def moveSize (sz : ℕ) (k : ℤ) : ℕ := if 0 ≤ (sz : ℤ) + k then (sz + k).toNat else sz

section

variable (ht : (s.mm p).pagetable = some t) (hsp : Space (mappings s.vm t) (s.mm p).sz tf)
include ht hsp

/-- **Growing and shrinking a process.** -/
theorem growproc_spec
   
    (hT : Table s.vm t (mappings s.vm t) (leaves (mappings s.vm t) + ({tf} + (others s p + H))))
    {k : ℤ} (hk : ((s.mm p).sz : ℤ) + k ≤ TRAPFRAME) (hlow : -2147483648 ≤ k) :
    wp (growproc p k) s fun r s' => (r = false → Unmoved s p t tf H s') ∧
      (r = true → Resized s p t tf H (moveSize (s.mm p).sz k) s') := by
  have hF : others s p ≤ {tf} + (others s p + H) :=
    (Multiset.le_add_right _ _).trans (Multiset.le_add_left _ _)
  have hF' := hF.trans (Multiset.le_add_left _ (leaves (mappings s.vm t)))
  simp only [growproc, wp_bind, wp_myproc ht]
  split_ifs with h1 h2
  · have hnew := addInt_of_le (by omega) hk
    have hmove : moveSize (s.mm p).sz k = addInt (s.mm p).sz k := by
      rw [moveSize, if_pos (by omega)]
      omega
    simp only [wp_bind, onVm, wp_zoom]
    refine (uvmalloc_spec hT hsp.size (by omega) (fun a => hsp.high hT)
      (show PTE_W < 2 ^ 10 by decide) (.inl (by omega))).mono ?_
    rintro r v ⟨hs, hr⟩
    rcases hr with ⟨rfl, hv⟩ | ⟨rfl, -, e', hv, hext, hz⟩
    · rw [if_pos rfl, wp_pure]
      exact ⟨fun _ => ⟨v, rfl, hs, hv⟩, by simp⟩
    · rw [if_neg (by omega)]
      simp only [wp_bind, wp_modify, wp_pure]
      rw [setMm_sz ht, hmove]
      refine ⟨by simp, fun _ => ⟨v, e', rfl, hs.mono hF', hv,
        space_grow hsp (by omega) (by omega) hext, ?_⟩⟩
      exact moved_grow hsp (by omega) (by omega) hs.left hext hz
  · simp only [wp_bind, onVm, wp_zoom, wp_modify, wp_pure]
    by_cases h0 : 0 ≤ ((s.mm p).sz : ℤ) + k
    · have hnew := addInt_of_le h0 hk
      have hmove : moveSize (s.mm p).sz k = addInt (s.mm p).sz k := by
        rw [moveSize, if_pos h0]
        omega
      refine (uvmdealloc_wp hT hsp.size (by omega)).mono ?_
      rintro _ v ⟨rfl, hs, hv⟩
      rw [setMm_sz ht, hmove]
      refine ⟨by simp, fun _ => ⟨v, _, rfl, hs.mono (hF.trans (Multiset.le_add_left _ _)), hv,
        space_shrink hsp (by omega), ?_⟩⟩
      exact moved_shrink hsp.size (by omega) hs.left
    · -- a size below zero is a large `uint64`, and `uvmdealloc` keeps the old one
      have hge : (s.mm p).sz ≤ addInt (s.mm p).sz k := by
        have hsz := hsp.size
        have hT64 : (TRAPFRAME : ℤ) < 2 ^ 63 := by decide
        have : ((s.mm p).sz + k) % 2 ^ 64 = (s.mm p).sz + k + 2 ^ 64 := by omega
        rw [addInt, this]
        omega
      rw [uvmdealloc, if_pos hge, wp_pure, setMm_sz ht, moveSize, if_neg h0]
      exact ⟨by simp, fun _ => ⟨_, _, rfl, Same.refl _ _, hT, hsp, moved_lazy hsp hT hsp.size⟩⟩
  · have hk0 : moveSize (s.mm p).sz k = (s.mm p).sz := by
      rw [moveSize, if_pos (by omega)]
      omega
    refine wp_pure.mpr ⟨by simp, fun _ => ?_⟩
    rw [hk0]
    refine ⟨s.vm, _, ?_, Same.refl _ _, hT, hsp, moved_lazy hsp hT hsp.size⟩
    rw [respace, show ({ s.mm p with pagetable := some t, sz := (s.mm p).sz } : Mm) =
      s.mm p by rw [← ht], update_eq_self]

/-- **`sbrk`**, as long as the size stays below the trapframe. -/
theorem sysSbrk_spec
   
    (hT : Table s.vm t (mappings s.vm t) (leaves (mappings s.vm t) + ({tf} + (others s p + H))))
    {a0 : ℕ} (a1 : ℕ) (hk : ((s.mm p).sz : ℤ) + argint a0 ≤ TRAPFRAME) :
    wp (sysSbrk p a0 a1) s fun r s' => r = none ∧ Unmoved s p t tf H s' ∨
      r = some (s.mm p).sz ∧ Resized s p t tf H (moveSize (s.mm p).sz (argint a0)) s' := by
  simp only [sysSbrk, wp_bind, wp_get]
  split_ifs with h1 h2
  · rw [wp_bind]
    refine (growproc_spec ht hsp hT hk (argint_bounds a0).1).mono ?_
    rintro r s' ⟨h0, h1⟩
    cases r with
    | false => exact wp_pure.mpr (.inl ⟨rfl, h0 rfl⟩)
    | true => exact wp_pure.mpr (.inr ⟨rfl, h1 rfl⟩)
  · exact wp_pure.mpr (.inl ⟨rfl, s.vm, rfl, Same.refl _ _, hT⟩)
  · have hnew := addInt_of_le (by omega) hk
    have hmove : moveSize (s.mm p).sz (argint a0) = addInt (s.mm p).sz (argint a0) := by
      rw [moveSize, if_pos (by omega)]
      omega
    simp only [wp_bind, wp_modify, wp_pure]
    have hs := setMm_sz ht s.vm (addInt (s.mm p).sz (argint a0))
    rw [show s.setMm p { s.mm p with sz := addInt (s.mm p).sz (argint a0) } = _ from hs, hmove]
    exact .inr ⟨trivial, s.vm, _, rfl, Same.refl _ _, hT, space_lazy hsp (by omega) (by omega),
      moved_lazy hsp hT (by omega)⟩

end

lemma Inv.resized (h : Inv s y H T) (ht : (s.mm p).pagetable = some t)
    (htf : (s.mm p).trapframe = some tf) {sz' : ℕ} (hs : Resized s p t tf H sz' s') :
    Inv s' y H T ∧ Quiet s s' := by
  obtain ⟨v, e', rfl, hsame, hT, hsp, -⟩ := hs
  exact ⟨h.update ht htf hsame hT hsp, respace_quiet s p v t _⟩

lemma Inv.unmoved (h : Inv s y H T) (ht : (s.mm p).pagetable = some t)
    (htf : (s.mm p).trapframe = some tf) (hsp : Space (mappings s.vm t) (s.mm p).sz tf)
    (hs : Unmoved s p t tf H s') : Inv s' y H T ∧ Quiet s s' := by
  obtain ⟨v, rfl, hsame, hT⟩ := hs
  refine ⟨h.touch ht htf (hsame.mono ?_) hT hsp, fun _ => rfl⟩
  exact ((Multiset.le_add_right _ _).trans (Multiset.le_add_left _ _)).trans
    (Multiset.le_add_left _ _)

lemma sysSbrk_wp (h : Inv s y H T) (hst : (s.tbl.procs p).state ≠ .UNUSED) {a0 a1 : ℕ}
    (hk : ((s.mm p).sz : ℤ) + argint a0 ≤ TRAPFRAME) :
    wp (sysSbrk p a0 a1) s fun _ s' => Inv s' y H T ∧ Quiet s s' := by
  obtain ⟨t, ht⟩ := used_table h hst
  obtain ⟨tf, htf, hsp, hT⟩ := h.table ht
  refine (sysSbrk_spec ht hsp hT _ hk).mono ?_
  rintro r s' (⟨-, hs⟩ | ⟨-, hs⟩)
  · exact Inv.unmoved h ht htf hsp hs
  · exact Inv.resized h ht htf hs

/-! ### Files -/

lemma closeFd_wp {f : Fin NFILE} {fd : Fin NOFILE} (h : Inv s (fdRefs s.mm) H T)
    (hf : (s.mm p).ofile fd = some f) :
    wp (do
      fileclose f
      modify fun s => s.setFd p fd none) s fun _ s' => Inv s' (fdRefs s'.mm) H T ∧
        s'.tbl = s.tbl ∧ s'.mm = (s.setFd p fd none).mm := by
  rw [fdRefs_close hf] at h
  rw [wp_bind]
  refine h.fileclose.mono ?_
  rintro _ s₁ ⟨h₁, ho⟩
  have hmm : (s₁.setFd p fd none).mm = (s.setFd p fd none).mm := by
    simp only [Sys.setFd, Sys.setMm, ho.mm]
  rw [wp_modify]
  refine ⟨?_, ho.tbl, hmm⟩
  rw [hmm]
  exact h₁.setFd fd (.inr rfl)

lemma closeAll_wp (h : Inv s (fdRefs s.mm) H T) :
    wp (each (fun fd => do
      whenSome (((← get).mm p).ofile fd) fun f => do
        fileclose f
        modify fun s => s.setFd p fd none) (List.finRange NOFILE)) s fun _ s' =>
      Inv s' (fdRefs s'.mm) H T ∧ s'.tbl = s.tbl ∧ ∀ fd, (s'.mm p).ofile fd = none := by
  -- the descriptors that are not among those left have been closed
  refine (wp_each (I := fun xs u => Inv u (fdRefs u.mm) H T ∧ u.tbl = s.tbl ∧
    ∀ fd ∉ xs, (u.mm p).ofile fd = none) ⟨h, rfl, fun fd hfd => absurd (List.mem_finRange fd) hfd⟩
    ?_).mono fun _ u hu => ⟨hu.1, hu.2.1, fun fd => hu.2.2 fd (by simp)⟩
  rintro fd xs u ⟨hu, ht, hn⟩
  simp only [wp_bind, wp_get]
  cases hf : (u.mm p).ofile fd with
  | none =>
    refine wp_pure.mpr ⟨hu, ht, fun k hk => ?_⟩
    by_cases e : k = fd
    · rw [e, hf]
    · exact hn k (by simp [e, hk])
  | some f =>
    refine (closeFd_wp hu hf).mono ?_
    rintro _ w ⟨hw, htw, hmm⟩
    refine ⟨hw, htw.trans ht, fun k hk => ?_⟩
    rw [hmm]
    by_cases e : k = fd
    · simp [Sys.setFd, Sys.setMm, e]
    · have := hn k (by simp [e, hk])
      simpa [Sys.setFd, Sys.setMm, e] using this

omit [Layout] in
lemma wp_argfd {a : ℕ} {Q : Option (Fin NOFILE × Fin NFILE) → Sys n → Prop} (h0 : Q none s)
    (h1 : ∀ fd f, (s.mm p).ofile fd = some f → Q (some (fd, f)) s) : wp (argfd p a) s Q := by
  simp only [argfd, wp_bind, wp_get]
  split_ifs with hr
  · rw [wp_pure]
    cases hf : (s.mm p).ofile ⟨_, hr.2⟩ with
    | none => exact h0
    | some f => exact h1 _ f hf
  · exact wp_pure.mpr h0

lemma sysClose_wp (h : Inv s (fdRefs s.mm) H T) (a0 : ℕ) :
    wp (sysClose p a0) s fun _ s' => Inv s' (fdRefs s'.mm) H T := by
  rw [sysClose, wp_bind]
  refine wp_argfd (wp_pure.mpr h) fun fd f hf => ?_
  simp only [wp_bind, wp_modify, wp_pure]
  rw [fdRefs_close hf] at h
  refine (h.setFd fd (.inr rfl)).fileclose.mono ?_
  rintro _ s' ⟨hs', ho⟩
  rw [ho.mm]
  exact hs'

lemma sysDup_wp (h : Inv s (fdRefs s.mm) H T)
    (hst : ¬ ((s.tbl.procs p).state = .UNUSED ∨ (s.tbl.procs p).state = .ZOMBIE)) (a0 : ℕ) :
    wp (sysDup p a0) s fun _ s' => Inv s' (fdRefs s'.mm) H T := by
  rw [sysDup, wp_bind]
  refine wp_argfd (wp_pure.mpr h) fun fd f hf => ?_
  refine wp.bind fdalloc_wp ?_
  rintro r s₁ ⟨hn, hs₁⟩
  cases r with
  | none =>
    obtain rfl := hn rfl
    exact wp_pure.mpr h
  | some fd' =>
    obtain ⟨rfl, hfree⟩ := hs₁ fd' rfl
    refine wp.bind ((h.setFd fd' (.inl hst)).filedup (mem_fdRefs hf)) ?_
    rintro _ s₂ ⟨h₂, ho⟩
    rw [wp_pure, ho.mm, fdRefs_open hfree]
    exact h₂

lemma setType_inv {f : Fin NFILE} {x : FdType} {w : Bool} (h : Inv s y H T) (hf : f ∈ y)
    (hp : ¬ IsPipe (s.ftable f)) (hx : x ≠ .FD_PIPE) :
    Inv (s.setFile f { s.ftable f with type := x, writable := w }) y H T := by
  have hpos := Multiset.count_pos.mpr hf
  have hr := h.files.refs f
  have hset := h.files.set (f := f) (x := { s.ftable f with type := x, writable := w }) hx hp
    (fun h0 => by dsimp only at h0; omega)
  refine (h.fileStep (Step.setFile h.ownsFiles hset) ?_).1
  dsimp only
  rw [hr, update_eq_self]

lemma openFile_wp (h : Inv s (fdRefs s.mm) H T)
    (hst : ¬ ((s.tbl.procs p).state = .UNUSED ∨ (s.tbl.procs p).state = .ZOMBIE))
    {x : FdType} (hx : x ≠ .FD_PIPE) (w : Bool) :
    wp (openFile p x w) s fun _ s' => Inv s' (fdRefs s'.mm) H T := by
  refine wp.bind h.filealloc ?_
  rintro r s₁ ⟨hn, hs₁⟩
  cases r with
  | none =>
    obtain rfl := hn rfl
    exact wp_pure.mpr h
  | some f =>
    obtain ⟨h₁, ho, hp⟩ := hs₁ f rfl
    refine wp.bind fdalloc_wp ?_
    rintro r s₂ ⟨hn, hs₂⟩
    cases r with
    | none =>
      obtain rfl := hn rfl
      refine wp.bind h₁.fileclose ?_
      rintro _ s₃ ⟨h₃, ho₃⟩
      rw [wp_pure, (ho.trans ho₃).mm]
      exact h₃
    | some fd =>
      obtain ⟨rfl, hfree⟩ := hs₂ fd rfl
      have h₂ := h₁.setFd fd (o := some f) (.inl (by rw [ho.tbl]; exact hst))
      simp only [wp_bind, wp_modify, wp_pure]
      have h₃ := setType_inv (w := w) h₂ (Multiset.mem_cons_self f _) hp hx
      have hmm : fdRefs ((s₁.setFd p fd (some f)).setFile f
          { (s₁.setFd p fd (some f)).ftable f with type := x, writable := w }).mm =
          f ::ₘ fdRefs s.mm := by
        rw [← ho.mm, ← fdRefs_open hfree]
        rfl
      rw [hmm]
      exact h₃

lemma closeBoth_wp {f₀ f₁ : Fin NFILE} (h : Inv s (f₀ ::ₘ f₁ ::ₘ y) H T)
    (hy : y = fdRefs s.mm) :
    wp (do
      fileclose f₀
      fileclose f₁
      return false) s fun _ s' => Inv s' (fdRefs s'.mm) H T := by
  refine wp.bind h.fileclose ?_
  rintro _ s₁ ⟨h₁, ho₁⟩
  refine wp.bind h₁.fileclose ?_
  rintro _ s₂ ⟨h₂, ho₂⟩
  rw [wp_pure, (ho₁.trans ho₂).mm, ← hy]
  exact h₂

lemma sysPipe_wp (h : Inv s (fdRefs s.mm) H T)
    (hst : ¬ ((s.tbl.procs p).state = .UNUSED ∨ (s.tbl.procs p).state = .ZOMBIE)) (fdarray : ℕ) :
    wp (sysPipe p fdarray) s fun _ s' => Inv s' (fdRefs s'.mm) H T := by
  obtain ⟨t, ht⟩ := used_table h fun e => hst (.inl e)
  refine wp.bind h.pipealloc ?_
  rintro r s₁ ⟨ho, hn, hs⟩
  cases r with
  | none =>
    rw [wp_pure, ho.mm]
    exact hn rfl
  | some r =>
    obtain ⟨rf, wf⟩ := r
    have h₁ := hs rf wf rfl
    rw [← ho.mm] at h₁ ht
    rw [← ho.tbl] at hst
    refine wp.bind fdalloc_wp ?_
    rintro r s₂ ⟨hn₂, hs₂⟩
    cases r with
    | none =>
      obtain rfl := hn₂ rfl
      exact closeBoth_wp h₁ rfl
    | some fd0 =>
      obtain ⟨rfl, hfree⟩ := hs₂ fd0 rfl
      have h₂ := h₁.setFd fd0 (o := some rf) (.inl hst)
      have hfd0 : ((s₁.setFd p fd0 (some rf)).mm p).ofile fd0 = some rf := by
        simp [Sys.setFd, Sys.setMm]
      have hy₂ := fdRefs_open (f := rf) hfree
      refine wp.bind fdalloc_wp ?_
      rintro r s₃ ⟨hn₃, hs₃⟩
      cases r with
      | none =>
        obtain rfl := hn₃ rfl
        have hy₃ := fdRefs_close hfd0
        rw [hy₂, Multiset.cons_inj_right] at hy₃
        rw [wp_bind, wp_modify]
        exact closeBoth_wp (h₂.setFd (p := p) fd0 (.inr rfl)) hy₃
      | some fd1 =>
        obtain ⟨rfl, hfree₁⟩ := hs₃ fd1 rfl
        have hne : fd0 ≠ fd1 := fun e => by
          rw [← e, hfd0] at hfree₁
          cases hfree₁
        have h₃ := h₂.setFd fd1 (o := some wf) (p := p) (.inl hst)
        have ht₃ : (((s₁.setFd p fd0 (some rf)).setFd p fd1 (some wf)).mm p).pagetable =
          some t := by
          simpa [Sys.setFd, Sys.setMm] using ht
        have hy₃ := (fdRefs_open (f := wf) hfree₁).trans (congrArg (wf ::ₘ ·) hy₂)
        have hfd₃ : (((s₁.setFd p fd0 (some rf)).setFd p fd1 (some wf)).mm p).ofile fd0 =
            some rf := by
          simp [Sys.setFd, Sys.setMm, hne]
        have hfd₃' : ((((s₁.setFd p fd0 (some rf)).setFd p fd1 (some wf)).setFd p fd0 none).mm
            p).ofile fd1 = some wf := by
          simp [Sys.setFd, Sys.setMm, hne.symm]
        generalize (s₁.setFd p fd0 (some rf)).setFd p fd1 (some wf) = s₃ at *
        -- whatever the two copies do, the descriptors are these
        have hend : ∀ (ok : Bool) (s₄ : Sys n), (∃ v, s₄ = { s₃ with vm := v }) →
            Inv s₄ (rf ::ₘ wf ::ₘ fdRefs s₁.mm) H T →
            wp (if ok = true then pure true else do
              modify fun s => s.setFd p fd0 none
              modify fun s => s.setFd p fd1 none
              fileclose rf
              fileclose wf
              pure false) s₄ fun _ s' => Inv s' (fdRefs s'.mm) H T := by
          rintro ok _ ⟨v, rfl⟩ h₄
          cases ok with
          | true =>
            rw [if_pos rfl, wp_pure]
            rw [Multiset.cons_swap, ← hy₃] at h₄
            exact h₄
          | false =>
            rw [if_neg (by simp), wp_bind, wp_modify, wp_bind, wp_modify]
            refine closeBoth_wp ((h₄.setFd fd0 (.inr rfl)).setFd (p := p) fd1 (.inr rfl)) ?_
            have e₁ := fdRefs_close hfd₃
            have e₂ := fdRefs_close hfd₃'
            rw [e₂, hy₃, Multiset.cons_swap, Multiset.cons_inj_right,
              Multiset.cons_inj_right] at e₁
            exact e₁
        rw [wp_bind, wp_myproc ht₃, wp_bind]
        refine (copyout_inv h₃ ht₃ _ _).mono ?_
        rintro ok0 _ ⟨v, rfl, h₄⟩
        cases ok0 with
        | false => exact hend false _ ⟨v, rfl⟩ h₄
        | true =>
          rw [if_pos rfl, wp_bind]
          refine (copyout_inv h₄ ht₃ _ _).mono ?_
          rintro ok1 _ ⟨w, rfl, h₅⟩
          exact hend ok1 _ ⟨w, rfl⟩ h₅

/-! ### Fork, exit, wait -/

lemma uvmcopy_inv {nt ntf : ℕ} (h : Inv s y H T) (hne : p ≠ q) (ht : (s.mm p).pagetable = some t)
    (hnt : (s.mm q).pagetable = some nt) (hntf : (s.mm q).trapframe = some ntf)
    (hsz : (s.mm q).sz = 0) :
    wp (uvmcopy t nt (s.mm p).sz) s.vm fun r v =>
      Inv (respace s q v nt (if r then (s.mm p).sz else 0)) y H T ∧ Same (others s q) s.vm v ∧
      (r = true → ∃ e', Table v nt e' (leaves e' + ({ntf} + (others s q + H))) ∧
        Copied s.vm v (mappings s.vm t) e' (pages (s.mm p).sz)) := by
  obtain ⟨tf, -, hsp, hT⟩ := h.table ht
  obtain ⟨ntf', hntf', hspq, hTq⟩ := h.table hnt
  obtain rfl : ntf = ntf' := Option.some.inj (hntf.symm.trans hntf')
  have hle : others s q ≤ {ntf} + (others s q + H) :=
    (Multiset.le_add_right _ _).trans (Multiset.le_add_left _ _)
  have hpages := (procPages_le_others hne).trans hle
  have htables : tables sv39 2 (words s.vm.mem) t ≤ {ntf} + (others s q + H) :=
    (tables_le_procPages ht).trans hpages
  have hleaves : leaves (mappings s.vm t) ≤ {ntf} + (others s q + H) := by
    refine le_trans ?_ hpages
    rw [procPages, userPages_some ht]
    exact (Multiset.le_add_left _ _).trans (Multiset.le_add_right _ _)
  rw [hsz] at hspq
  have h0 : ∀ a < UPAGES, mappings s.vm nt a = 0 := fun a ha =>
    hspq.high hTq (by simp [pages, PGSIZE]) ha
  refine (uvmcopy_spec hT.entries (fun a ha hv => hT.leaf ha hv) htables hTq h0 hsp.size).mono
    ?_
  rintro r v ⟨hs, hfail, hok⟩
  cases r with
  | false => exact ⟨h.update hnt hntf (hs.mono hle) (hfail rfl) hspq, hs.mono hle, by simp⟩
  | true =>
    obtain ⟨e', hT', hhigh, hcopy⟩ := hok rfl
    have hup := pages_le hsp.size
    have htop := pages_top
    refine ⟨h.update hnt hntf (hs.mono hle) hT' ⟨hsp.size, ?_, ?_, fun a ha hv => ?_⟩,
      hs.mono hle, fun _ => ⟨e', hT', hcopy hleaves⟩⟩
    · rw [hhigh _ (by omega), hspq.trampoline]
    · rw [hhigh _ (by omega), hspq.trapframe]
    · by_cases ha' : a < pages (s.mm p).sz
      · exact .inl ha'
      · rw [hhigh a (by omega)] at hv
        rcases hspq.low a ha hv with hlt | htop'
        · exact absurd hlt (by simp [pages, PGSIZE])
        · exact .inr htop'

omit [Layout] in
lemma filedup_vm {f : Fin NFILE} {x : Unit} (h : filedup f s = .ok (x, s')) : s'.vm = s.vm := by
  have hwp : wpOr (fun _ => True) (filedup f) s fun _ s' => s'.vm = s.vm := by
    simp only [filedup, wpOr_bind, wpOr_get]
    split_ifs
    · exact wpOr_throw trivial
    · rw [wpOr_modify]
      rfl
  exact hwp.of_ok h

lemma dupAll_wp (h : Inv s (fdRefs s.mm) H T) (hne : p ≠ q)
    (hst : ¬ ((s.tbl.procs q).state = .UNUSED ∨ (s.tbl.procs q).state = .ZOMBIE))
    (hfd : ∀ fd, (s.mm q).ofile fd = none) :
    wp (each (fun fd => do
      whenSome (((← get).mm p).ofile fd) fun f => do
        filedup f
        modify fun s => s.setFd q fd (some f)) (List.finRange NOFILE)) s fun _ s' =>
      Inv s' (fdRefs s'.mm) H T ∧ s'.tbl = s.tbl ∧ s'.vm = s.vm ∧
        s'.mm = update s.mm q { s.mm q with ofile := (s.mm p).ofile } := by
  -- the descriptors that are left are still free in the child, the others are its parent's
  refine (wp_each (I := fun xs u => Inv u (fdRefs u.mm) H T ∧ u.tbl = s.tbl ∧ u.vm = s.vm ∧
    xs.Nodup ∧ ∃ o, u.mm = update s.mm q { s.mm q with ofile := o } ∧
      (∀ fd ∈ xs, o fd = none) ∧ ∀ fd, fd ∉ xs → o fd = (s.mm p).ofile fd)
    ⟨h, rfl, rfl, List.nodup_finRange _, (s.mm q).ofile, by simp, fun fd _ => hfd fd,
      fun fd hc => absurd (List.mem_finRange fd) hc⟩ ?_).mono ?_
  · rintro fd xs u ⟨hu, ht, hvm, hnd, o, hmm, hnone, hdone⟩
    obtain ⟨hfdxs, hnd⟩ := List.nodup_cons.mp hnd
    have hp : (u.mm p).ofile = (s.mm p).ofile := by rw [hmm, update_of_ne hne]
    simp only [wp_bind, wp_get, hp]
    cases hf : (s.mm p).ofile fd with
    | none =>
      refine wp_pure.mpr ⟨hu, ht, hvm, hnd, o, hmm,
        fun k hk => hnone k (List.mem_cons_of_mem _ hk), fun k hk => ?_⟩
      by_cases e : k = fd
      · rw [e, hf]
        exact hnone fd List.mem_cons_self
      · exact hdone k (by simp [e, hk])
    | some f =>
      obtain ⟨_, w, hrun, hw, ho⟩ := hu.filedup
        (mem_fdRefs (show (u.mm p).ofile fd = _ by rw [hp, hf]))
      have hfree : (w.mm q).ofile fd = none := by
        rw [ho.mm, hmm, update_self]
        exact hnone fd List.mem_cons_self
      rw [whenSome_some, wp_bind]
      refine ⟨_, w, hrun, wp_modify.mpr ?_⟩
      refine ⟨?_, ho.tbl.trans ht, (filedup_vm hrun).trans hvm, hnd, update o fd (some f),
        ?_, fun k hk => ?_, fun k hk => ?_⟩
      · rw [fdRefs_open hfree, ho.mm]
        exact hw.setFd fd (.inl (by rw [ho.tbl, ht]; exact hst))
      · rw [Sys.setFd, Sys.setMm, ho.mm, hmm, update_self, update_idem]
      · have hk' : k ≠ fd := fun e => hfdxs (e ▸ hk)
        rw [update_of_ne hk']
        exact hnone k (List.mem_cons_of_mem _ hk)
      · by_cases e : k = fd
        · rw [e, update_self, hf]
        · rw [update_of_ne e]
          exact hdone k (by simp [e, hk])
  · rintro _ u ⟨hu, ht, hvm, -, o, hmm, -, hdone⟩
    refine ⟨hu, ht, hvm, ?_⟩
    rw [hmm, show o = (s.mm p).ofile from funext fun fd => hdone fd List.not_mem_nil]

lemma runnable_inv (h : Inv s y H T) (hst : (s.tbl.procs q).state = .USED) {x : ProcModel.Proc n}
    (hx : x.state = .USED ∨ x.state = .RUNNABLE) : Inv (s.setTbl (s.tbl.set q x)) y H T := by
  have hother : ∀ i, i ≠ q → ((s.tbl.set q x).procs i) = s.tbl.procs i := fun i hi =>
    ProcModel.Table.set_procs_ne _ hi _
  refine h.setTbl (fun i => ?_) (fun i hi => ?_)
  · by_cases e : i = q
    · rcases hx with hx | hx <;> simp [e, hst, hx]
    · rw [hother i e]
  · by_cases e : i = q
    · rw [e, ProcModel.Table.set_procs_self] at hi
      rcases hx with hx | hx <;> simp [hx] at hi
    · rw [hother i e] at hi
      exact .inl hi

omit [Layout] in
lemma setWord_store (v : Mach) (p : ℕ) (b : Buf PGSIZE) (i w : ℕ) :
    (v.store p b).setWord p i w = v.store p (b.setLE (8 * i) 8 w) := by
  rw [Mach.setWord, store_mem_self]
  simp only [Mach.store, update_idem]

omit [Layout] in
lemma copyTrapframe_spec {v : Mach} {ntf : ℕ} : wp (copyTrapframe tf ntf) v fun _ u =>
    (∃ b, u = v.store ntf b) ∧
      ∀ i < 36, words u.mem ntf i = if i = 14 then 0 else words v.mem tf i := by
  simp only [copyTrapframe, readBytes, writeBytes, wp_bind, wp_get, wp_pure, wp_modify]
  refine ⟨⟨_, setWord_store v ntf _ 14 0⟩, fun i hi => ?_⟩
  · rw [words_setWord _ _ (by decide) (by decide), put]
    by_cases h14 : i = 14
    · rw [if_pos ⟨rfl, h14⟩, if_pos h14]
    · rw [if_neg (by tauto), if_neg h14, words, store_mem_self, words]
      refine Buf.getLE_congr fun j h1 h2 => ?_
      have hj : j < PGSIZE := by
        unfold PGSIZE
        omega
      rw [Buf.get_of_lt _ hj]
      simp only [List.length_map, List.length_range, Nat.zero_le, Nat.zero_add, true_and,
        Nat.sub_zero]
      rw [if_pos (by omega), List.getD_eq_getElem?_getD, List.getElem?_map,
        List.getElem?_range (by omega)]
      rfl

/-- What `kfork` has made: slot `np` is a child of process `p`. -/
structure Forked (s : Sys n) (p np : Fin n) (s' : Sys n) : Prop where
  slot : scan (fun i => (s.tbl.procs i).state = .UNUSED) = some np
  runnable : (s'.tbl.procs np).state = .RUNNABLE
  parent : (s'.tbl.procs np).parent = some p
  same : Same (others s np) s.vm s'.vm
  mm : ∀ i ≠ np, s'.mm i = s.mm i
  size : (s'.mm np).sz = (s.mm p).sz
  files : (s'.mm np).ofile = (s.mm p).ofile
  space : ∀ t tf, (s.mm p).pagetable = some t → (s.mm p).trapframe = some tf → ∃ nt ntf e',
    (s'.mm np).pagetable = some nt ∧ (s'.mm np).trapframe = some ntf ∧ Maps s'.vm nt e' ∧
    Copied s.vm s'.vm (mappings s.vm t) e' (pages (s.mm p).sz) ∧
    ∀ i < 36, words s'.vm.mem ntf i = if i = 14 then 0 else words s.vm.mem tf i

omit [Layout] in
lemma Copied.frame {s₀ s₁ v w : Mach} {eo e' : ℕ → ℕ} {k : ℕ} (h : Copied s₁ v eo e' k)
    (hk : k ≤ UPAGES) (h₀ : Same (leaves eo) s₀ s₁) (h₁ : Same (leaves e') v w) :
    Copied s₀ w eo e' k := by
  intro a ha
  obtain ⟨h1, h2⟩ := h a ha
  refine ⟨h1, fun hv => ⟨(h2 hv).1, ?_⟩⟩
  rw [h₁ _ (mem_leaves (by omega) (by rw [h1]; exact hv)), (h2 hv).2,
    h₀ _ (mem_leaves (by omega) hv)]

/-- **Fork.** -/
theorem kfork_spec (h : Inv s (fdRefs s.mm) H T)
    (hT : ∀ i, (s.tbl.procs i).state = .UNUSED → T i = none)
    (hst : (s.tbl.procs p).state ≠ .UNUSED) :
    wp (kfork p) s fun r s' => Inv s' (fdRefs s'.mm) H T ∧
      (r = -1 ∧ Undone s s' ∨ ∃ np, r = (s'.tbl.procs np).pid ∧ Forked s p np s') := by
  refine wp.bind (allocproc_wp h hT) ?_
  rintro r s₁ ⟨hq, hn, hs⟩
  rw [← fdRefs_congr hq] at hn hs
  cases r with
  | none => exact wp_pure.mpr ⟨(hn rfl).1, .inl ⟨rfl, (hn rfl).2⟩⟩
  | some np =>
    obtain ⟨h₁, hun, hused, hsz, hf, hscan⟩ := hs np rfl
    have hne : p ≠ np := fun e => hst (by rw [e]; exact hun)
    have hfd : ∀ fd, (s₁.mm np).ofile fd = none := fun fd => by
      rw [hq np]
      exact (h.slots np).closed (.inl hun) fd
    obtain ⟨t, ht⟩ := used_table h₁ (p := p) (by rw [hf.state p hne]; exact hst)
    obtain ⟨nt, hnt⟩ := used_table h₁ (p := np) (by simp [hused])
    obtain ⟨tf, htf, -, hTp⟩ := h₁.table ht
    obtain ⟨ntf, hntf, -, -⟩ := h₁.table hnt
    -- the pages of the parent are as before
    have hpar : Same (procPages s.vm (s.mm p)) s.vm s₁.vm := hf.same.mono (procPages_le_others hne)
    have hmmp : s₁.mm p = s.mm p := hf.mm p hne
    have hmap : mappings s₁.vm t = mappings s.vm t :=
      mappings_congr (hpar.mono (tables_le_procPages (by rw [← hmmp]; exact ht)))
    simp only [wp_bind, wp_get, ht, hnt, htf, hntf, deref, wp_pure]
    rw [onVm, wp_zoom]
    refine (uvmcopy_inv h₁ hne ht hnt hntf hsz).mono ?_
    rintro r v ⟨hv, hsv, hcopy⟩
    cases r with
    | false =>
      have heq : respace s₁ np v nt (if false = true then (s₁.mm p).sz else 0) =
          { s₁ with vm := v } := by
        rw [← setMm_sz hnt, if_neg (by simp), ← hsz]
        simp [Sys.setMm]
      rw [heq] at hv
      simp only [Bool.not_false, if_true]
      refine wp.bind (freeproc_inv hv hfd) ?_
      rintro _ s₂ ⟨h₂, hq₂, hf₂, hst₂⟩
      rw [wp_pure, fdRefs_congr hq₂]
      refine ⟨h₂, .inl ⟨rfl, .inr ⟨np, (hf.trans ?_).trans hf₂, hun, hst₂⟩⟩⟩
      exact ⟨hsv, fun _ _ => rfl, fun _ _ => rfl, rfl, rfl⟩
    | true =>
      obtain ⟨e', hTn, hcp⟩ := hcopy rfl
      rw [if_pos rfl] at hv
      simp only [Bool.not_true, Bool.false_eq_true, if_false, wp_bind, wp_modify]
      rw [setMm_sz hnt, wp_pure, wp_pure]
      have hnt₂ : ((respace s₁ np v nt (s₁.mm p).sz).mm np).pagetable = some nt := by
        simp [respace]
      have hntf₂ : ((respace s₁ np v nt (s₁.mm p).sz).mm np).trapframe = some ntf := by
        simpa [respace] using hntf
      have hfd₂ : ∀ fd, ((respace s₁ np v nt (s₁.mm p).sz).mm np).ofile fd = none := by
        simpa [respace] using hfd
      rw [← fdRefs_congr (respace_quiet s₁ np v nt (s₁.mm p).sz)] at hv
      rw [onVm, wp_zoom]
      refine copyTrapframe_spec.mono ?_
      rintro _ w ⟨⟨b, rfl⟩, hregs⟩
      have h₃ := storeFrame_inv hv hnt₂ hntf₂ b
      refine (dupAll_wp (p := p) h₃ hne (by simp [respace, hused]) hfd₂).mono ?_
      rintro _ s₄ ⟨h₄, htbl, hvm, hmm⟩
      have hst₄ : (s₄.tbl.procs np).state = .USED := by
        rw [htbl]
        exact hused
      simp only [wp_get, wp_pure]
      have h₅ := runnable_inv h₄ hst₄ (x := { s₄.tbl.procs np with parent := some p }) (.inl hst₄)
      refine ⟨runnable_inv h₅ (by simpa [Sys.setTbl] using hst₄) (.inr rfl), .inr ⟨np, rfl, ?_⟩⟩
      have hnodup := (Multiset.nodup_add.mp (Multiset.nodup_add.mp hTn.owns.nodup).2.1).2.1
      have hntf' : ntf ∉ leaves e' + others s₁ np := by
        rw [add_left_comm, Multiset.singleton_add, Multiset.nodup_cons, ← add_assoc] at hnodup
        exact fun hm => hnodup.1 (Multiset.mem_add.mpr (.inl hm))
      have hothers : Same (others s np) s₁.vm (v.store ntf b) := by
        rw [← hf.others]
        refine hsv.trans (store_same (fun hm => hntf' (Multiset.mem_add.mpr (.inr hm))) b)
      have hall : Same (procPages s.vm (s.mm p)) s.vm (v.store ntf b) :=
        (hf.same.trans hothers).mono (procPages_le_others hne)
      refine ⟨hscan, by simp [Sys.setTbl], by simp [Sys.setTbl], ?_, fun i hi => ?_, ?_, ?_, ?_⟩
      · change Same _ _ s₄.vm
        rw [hvm]
        exact hf.same.trans hothers
      · change s₄.mm i = _
        rw [hmm, update_of_ne hi]
        exact (update_of_ne hi _ _).trans (hf.mm i hi)
      · change (s₄.mm np).sz = _
        rw [hmm, update_self, ← hmmp]
        simp [respace]
      · change (s₄.mm np).ofile = _
        rw [hmm, update_self, ← hmmp]
        simp [respace, hne]
      · intro t' tf' ht' htf'
        obtain rfl : t = t' := Option.some.inj (ht.symm.trans (hmmp ▸ ht'))
        obtain rfl : tf = tf' := Option.some.inj (htf.symm.trans (hmmp ▸ htf'))
        refine ⟨nt, ntf, e', ?_, ?_, ?_, ?_, fun i hi => ?_⟩
        · change (s₄.mm np).pagetable = _
          rw [hmm, update_self]
          exact hnt₂
        · change (s₄.mm np).trapframe = _
          rw [hmm, update_self]
          exact hntf₂
        · change Maps s₄.vm nt e'
          rw [hvm]
          exact (hTn.store (Multiset.mem_add.mpr (.inr (mem_own ntf _))) b).entries
        · change Copied s.vm s₄.vm _ _ _
          rw [hvm, ← hmap, ← hmmp]
          obtain ⟨_, _, hsp', _⟩ := h₁.table ht
          refine Copied.frame hcp (pages_le hsp'.size) ?_
            (store_same (fun hm => hntf' (Multiset.mem_add.mpr (.inl hm))) b)
          rw [hmap, ← userPages_some (v := s.vm) ht']
          exact hpar.mono ((Multiset.le_add_left _ _).trans (Multiset.le_add_right _ _))
        · change words s₄.vm.mem ntf i = _
          rw [hvm]
          refine (hregs i hi).trans ?_
          have hm : tf ∈ procPages s.vm (s.mm p) := by
            rw [procPages, framePages_some htf']
            exact Multiset.mem_add.mpr (.inr (Multiset.mem_singleton_self tf))
          have hv' : v.mem tf = s.vm.mem tf := by
            have hne' : tf ≠ ntf := fun e => hntf' (Multiset.mem_add.mpr (.inr (by
              rw [hf.others]
              exact Multiset.mem_of_le (procPages_le_others hne) (e ▸ hm))))
            rw [← hall tf hm, store_mem_ne v hne' b]
          have hw : words (respace s₁ np v nt (s₁.mm p).sz).vm.mem tf = words s.vm.mem tf :=
            words_congr hv'
          rw [hw]

lemma kexit_wp (h : Inv s (fdRefs s.mm) H T) (hp : p ≠ s.tbl.initproc)
    (hst : (s.tbl.procs p).state ≠ .UNUSED) (status : ℤ) :
    wp (kexit p status) s fun _ s' => Inv s' (fdRefs s'.mm) H T := by
  simp only [kexit, wp_bind, wp_get, if_neg hp]
  refine (closeAll_wp h).mono ?_
  rintro _ s₁ ⟨h₁, htbl, hfd⟩
  cases hk : s₁.tbl.kexit p status with
  | none =>
    rw [htbl, ProcModel.Table.kexit, if_neg hp] at hk
    cases hk
  | some t' =>
    rw [wp_modify]
    refine h₁.setTbl (fun i => ?_) (fun i hi => ?_)
    · rw [ProcModel.Table.kexit_state (by decide) (by decide) hk]
      split_ifs with e
      · rw [e, htbl]
        simp [hst]
      · rfl
    · rw [ProcModel.Table.kexit_state (by decide) (by decide) hk] at hi
      split_ifs at hi with e
      · exact .inr (e ▸ hfd)
      · exact .inl hi

lemma kwait_wp (h : Inv s (fdRefs s.mm) H T) (hst : (s.tbl.procs p).state ≠ .UNUSED) (addr : ℕ) :
    wp (kwait p addr) s fun _ s' => Inv s' (fdRefs s'.mm) H T := by
  obtain ⟨t, ht⟩ := used_table h hst
  simp only [kwait, wp_bind, wp_get]
  cases hz : s.tbl.zombieOf p with
  | none => exact wp_pure.mpr h
  | some pp =>
    have hpp : (s.tbl.procs pp).state = .ZOMBIE := by
      have := scan_some hz
      simp only [decide_eq_true_eq] at this
      exact this.2
    have hfd := (h.slots pp).closed (.inr hpp)
    have hend : ∀ (ok : Bool) (v : Mach), Inv { s with vm := v } (fdRefs s.mm) H T →
        wp (if (!ok) = true then pure (-1) else do
          freeproc pp
          pure (s.tbl.procs pp).pid) { s with vm := v } fun _ s' => Inv s' (fdRefs s'.mm) H T := by
      intro ok v hv
      cases ok with
      | false => exact wp_pure.mpr hv
      | true =>
        rw [if_neg (by simp), wp_bind]
        refine (freeproc_inv hv hfd).mono ?_
        rintro _ s' ⟨h', hq, -⟩
        rw [wp_pure, fdRefs_congr hq]
        exact h'
    simp only [wp_bind, wp_get, wp_myproc ht]
    split_ifs with ha
    · rw [wp_bind]
      refine (copyout_inv h ht addr _).mono ?_
      rintro ok _ ⟨v, rfl, hv⟩
      exact hend ok v hv
    · exact hend true s.vm h

/-! ### Exec -/

/-- Pages are taken in hand or given back; nobody's contents change. -/
lemma pages_inv {v : Mach} (h : Inv s y H T)
    (hs : Same (procPages s.vm (s.mm p) + others s p) s.vm v)
    (ho : Owns v (procPages s.vm (s.mm p) + (others s p + H'))) :
      Inv { s with vm := v } y H' T := by
  have hf : Frame p s { s with vm := v } :=
    ⟨hs.right, fun _ _ => rfl, fun _ _ => rfl, rfl, rfl⟩
  have hown := hs.left
  refine ((h.rest p).1.frame hf).inv ((h.slots p).congr hown) ?_
  rw [hf.others, show procPages v (s.mm p) = _ from procPages_congr hown]
  exact ho

lemma frame_notMem (h : Inv s y H T) (ht : (s.mm p).pagetable = some t)
    (htf : (s.mm p).trapframe = some tf) :
    tf ∉ tables sv39 2 (words s.vm.mem) t + others s p := by
  have ho := (h.rest p).2
  have hperm : procPages s.vm (s.mm p) + (others s p + H) = {tf} +
      ((tables sv39 2 (words s.vm.mem) t + others s p) + (leaves (mappings s.vm t) + H)) := by
    rw [procPages_eq ht htf]
    abel
  rw [hperm] at ho
  exact fun hm => ho.notMem (Multiset.mem_add.mpr (.inl hm))

/-- The end of `kexec`: the process gets the new table, and the old one is freed. -/
lemma commitImage_wp {u w : Mach} {root sz : ℕ} {e : ℕ → ℕ} (h : Inv s y H T)
    (ht : (s.mm p).pagetable = some t) (htf : (s.mm p).trapframe = some tf)
    (hu : Same (procPages s.vm (s.mm p) + (others s p + H)) s.vm u)
    (hw : Same (tables sv39 2 (words s.vm.mem) t + others s p) u w)
    (hT : Table w root e (leaves e + (procPages s.vm (s.mm p) + (others s p + H))))
    (hsp : Space e sz tf) :
    wp (procFreepagetable t (s.mm p).sz) w fun _ z => Inv (respace s p z root sz) y H T ∧
      Same (tables sv39 2 (words w.mem) root + leaves e + {tf}) w z := by
  obtain ⟨tf', htf', hspo, hTo⟩ := h.table ht
  obtain rfl : tf = tf' := Option.some.inj (htf.symm.trans htf')
  have htables : Same (tables sv39 2 (words s.vm.mem) t) s.vm w := by
    refine (hu.mono ?_).trans hw.left
    exact (tables_le_procPages ht).trans (Multiset.le_add_right _ _)
  have hothers : Same (others s p) s.vm w := by
    refine (hu.mono ?_).trans hw.right
    exact (Multiset.le_add_right _ _).trans (Multiset.le_add_left _ _)
  have hold : Table w t (mappings s.vm t) (leaves (mappings s.vm t) +
      (tables sv39 2 (words w.mem) root + (leaves e + ({tf} + (others s p + H))))) := by
    refine (hTo.congr htables ?_).1
    refine cast (congrArg (Owns w) ?_) hT.owns
    rw [procPages_eq ht htf]
    abel
  refine (procFreepagetable_wp hold hspo).mono ?_
  rintro _ z ⟨hs, ho⟩
  have hroot := hs.left
  refine ⟨h.update ht htf (hothers.trans (hs.mono ?_)) (hT.congr hroot ho).1 hsp, hs.mono ?_⟩
  · exact (Multiset.le_add_right _ H).trans ((Multiset.le_add_left _ _).trans
      ((Multiset.le_add_left _ _).trans (Multiset.le_add_left _ _)))
  · rw [← add_assoc, ← add_assoc]
    exact Multiset.le_add_right _ _

/-- What a successful `kexec` has done: the process has the image that was built, and its
trapframe the entry point, the stack pointer and the address of `argv`. -/
structure Executed (s : Sys n) (p : Fin n) (t tf : ℕ) (file : List UInt8)
    (argv : List (List UInt8)) (s' : Sys n) (root sz sp : ℕ) (u : Mach) (e : ℕ → ℕ) : Prop where
  image : buildImage ⟨(s.mm p).sz, t⟩ tf file argv s.vm = .ok (some (root, sz, sp), u)
  table : ∃ R, Table u root e (leaves e + R)
  space : Space e sz tf
  mm : s'.mm p = { s.mm p with pagetable := some root, sz := sz }
  same : Same (tables sv39 2 (words u.mem) root + leaves e) u s'.vm
  frame : s'.vm.mem tf = (((u.setWord tf 15 sp).setWord tf 3
    (field (readi file 0 elfhdrSize) 24 8)).setWord tf 6 sp).mem tf

lemma kexec_wp (h : Inv s y H T) (ht : (s.mm p).pagetable = some t)
    (htf : (s.mm p).trapframe = some tf) (file : Option (List UInt8)) {argv : List (List UInt8)}
    (hargs : ∀ arg ∈ argv, arg.length < PGSIZE) :
    wp (kexec p file argv) s fun r s' => Inv s' y H T ∧ Quiet s s' ∧ s'.tbl = s.tbl ∧
      s'.first = s.first ∧ (r = -1 → ∀ f, file = some f → ∃ u,
        buildImage ⟨(s.mm p).sz, t⟩ tf f argv s.vm = .ok (none, u)) ∧
      (r = -1 → ∃ u, s' = { s with vm := u } ∧
        Same (procPages s.vm (s.mm p) + (others s p + H)) s.vm u) ∧
      (r ≠ -1 → r = argv.length ∧ ∃ f root sz sp u e, file = some f ∧
        Executed s p t tf f argv s' root sz sp u e) := by
  have ho := (h.rest p).2
  have hframe : tf ∈ procPages s.vm (s.mm p) := by
    rw [procPages_eq ht htf]
    exact Multiset.mem_add.mpr (.inr (Multiset.mem_singleton_self tf))
  have htf52 := allocatable_lt (ho.mem (Multiset.mem_add.mpr (.inl hframe)))
  cases file with
  | none =>
    exact wp_pure.mpr ⟨h, fun _ => rfl, rfl, rfl, by simp, fun _ => ⟨s.vm, rfl, Same.refl _ _⟩,
      fun hr => absurd rfl hr⟩
  | some file =>
    simp only [kexec, wp_bind, wp_myproc ht, wp_get, htf, deref, wp_pure]
    rw [onVm, wp_zoom]
    obtain ⟨r, u, hrun, hs, hn, hsome⟩ := buildImage_wp ho
      htf52 hargs
    refine ⟨r, u, hrun, ?_⟩
    cases r with
    | none =>
      refine wp_pure.mpr ⟨pages_inv h (hs.mono ?_) (hn rfl), fun _ => rfl, rfl, rfl, ?_,
        fun _ => ⟨u, rfl, hs⟩, fun hr => absurd rfl hr⟩
      · rw [← add_assoc]
        exact Multiset.le_add_right _ _
      · rintro - f ⟨⟩
        exact ⟨u, hrun⟩
    | some r =>
      obtain ⟨root, sz, sp⟩ := r
      obtain ⟨e, hTe, hspe⟩ := hsome root sz sp rfl
      simp only [wp_bind, wp_zoom, wp_modify, onVm]
      have hmem : tf ∈ leaves e + (procPages s.vm (s.mm p) + (others s p + H)) :=
        Multiset.mem_add.mpr (.inr (Multiset.mem_add.mpr (.inl hframe)))
      have hnot := frame_notMem h ht htf
      have hnew : tf ∉ tables sv39 2 (words u.mem) root + leaves e := by
        have hperm : tables sv39 2 (words u.mem) root +
            (leaves e + (procPages s.vm (s.mm p) + (others s p + H))) = {tf} +
            (tables sv39 2 (words u.mem) root + leaves e +
              (tables sv39 2 (words s.vm.mem) t + leaves (mappings s.vm t) +
                (others s p + H))) := by
          rw [procPages_eq ht htf]
          abel
        have hown := hTe.owns
        rw [hperm] at hown
        exact fun hm => hown.notMem (Multiset.mem_add.mpr (.inl hm))
      have hset : ∀ x i a, Same (tables sv39 2 (words s.vm.mem) t + others s p) u x ∧
          Same (tables sv39 2 (words u.mem) root + leaves e) u x ∧
          Table x root e (leaves e + (procPages s.vm (s.mm p) + (others s p + H))) →
          Same (tables sv39 2 (words s.vm.mem) t + others s p) u (x.setWord tf i a) ∧
          Same (tables sv39 2 (words u.mem) root + leaves e) u (x.setWord tf i a) ∧
          Table (x.setWord tf i a) root e
            (leaves e + (procPages s.vm (s.mm p) + (others s p + H))) :=
        fun x i a hx => ⟨hx.1.trans (store_same hnot _), hx.2.1.trans (store_same hnew _),
          hx.2.2.store hmem _⟩
      obtain ⟨hw, hnw, hT₁⟩ := hset _ 6 sp (hset _ 3 (field (readi file 0 elfhdrSize) 24 8)
        (hset u 15 sp ⟨Same.refl _ _, Same.refl _ _, hTe⟩))
      refine (commitImage_wp h ht htf hs hw hT₁ hspe).mono ?_
      rintro _ z ⟨hz, hsame⟩
      rw [tables_same hnw.left] at hsame
      refine wp_pure.mpr ⟨hz, respace_quiet s p z root sz, rfl, rfl, fun hr => by omega,
        fun hr => by omega, fun _ => ⟨rfl, file, root, sz, sp, u, e, rfl, hrun, ⟨_, hTe⟩, hspe,
          ?_, ?_, ?_⟩⟩
      · exact update_self _ _ _
      · exact hnw.trans hsame.left
      · exact hsame tf (by simp)

lemma sysExec_wp (h : Inv s (fdRefs s.mm) H T) (hst : (s.tbl.procs p).state ≠ .UNUSED)
    (path uargv : ℕ) (file : Option (List UInt8)) :
    wp (sysExec p path uargv file) s fun _ s' => Inv s' (fdRefs s'.mm) H T := by
  obtain ⟨t, ht⟩ := used_table h hst
  obtain ⟨tf, htf, hsp, hT⟩ := h.table ht
  rw [sysExec, wp_bind, wp_myproc ht, wp_bind]
  refine (copyinstr_inv h ht path MAXPATH).mono fun r s₀ hs₀ => ?_
  rw [hs₀]
  cases r with
  | none => exact wp_pure.mpr h
  | some str =>
    have hfetched : Fetched s.vm t (mappings s.vm t) (s.mm p).sz ({tf} + (others s p + H)) [] := by
      refine ⟨?_, by simp⟩
      rw [List.map_nil, Multiset.coe_nil, zero_add]
      exact hsp.userTable hT
    rw [wp_bind, onVm, wp_zoom]
    refine (fetchArgs_spec uargv MAXARG 0 [] hfetched).mono ?_
    rintro ⟨ok, argv⟩ u ⟨e, hf⟩
    have hs := hf.same
    have hargv := hf.fetched
    have hfill := hf.filled
    have hu : Inv { s with vm := u } (fdRefs s.mm) (↑(argv.map Prod.fst) + H) T := by
      refine h.touch ht htf (hs.mono ?_) ?_ (hsp.fill hfill)
      · exact (Multiset.le_add_right _ _).trans (Multiset.le_add_left _ _)
      · refine cast (congrArg (Table u t e) ?_) hargv.user.table
        abel
    -- the pages of the arguments are freed, whatever came of it
    have hend : ∀ (ret : ℤ) (s₁ : Sys n),
        Inv s₁ (fdRefs s.mm) (↑(argv.map Prod.fst) + H) T ∧ Quiet s s₁ →
        wp (do
          onVm (each kfree (argv.map Prod.fst))
          pure ret) s₁ fun _ s' => Inv s' (fdRefs s'.mm) H T := by
      rintro ret s₁ ⟨h₁, hq⟩
      have ho := (h₁.rest p).2
      rw [← add_assoc, add_left_comm] at ho
      rw [wp_bind, onVm, wp_zoom]
      refine (each_kfree_wp _ ho).mono ?_
      rintro _ v ⟨hsv, hov⟩
      rw [add_assoc] at hov
      have hv := pages_inv h₁ hsv.left hov
      rw [wp_pure, show fdRefs ({ s₁ with vm := v } : Sys n).mm = fdRefs s.mm from fdRefs_congr hq]
      exact hv
    cases ok with
    | false => exact hend _ _ ⟨hu, fun _ => rfl⟩
    | true =>
      dsimp only
      rw [if_pos rfl, wp_bind]
      refine (kexec_wp hu ht htf file hargv.short).mono ?_
      rintro r s₁ ⟨h₁, hq, _⟩
      exact hend r s₁ ⟨h₁, hq⟩

end Xv6.MemCalls
