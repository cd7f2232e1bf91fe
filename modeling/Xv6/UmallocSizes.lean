import Xv6.MemSafe
import Xv6.UmallocRuns

/-!
The sizes that `malloc` passes to the kernel: `sbrk` takes an `int`, `sys_sbrk` reads it with
`argint`, and a negative amount is a shrink that succeeds.

Here the system under the heap is the kernel of `MemModel`, and the process is its process `p`.
Between two calls of the allocator the kernel may come into any other state in which the process
has not been shrunk.
-/

namespace Xv6.Umalloc

open FreeList Hoare Runs VmModel MemModel MemInv MemCalls
open MemSafe (Safe)

section

variable [Layout] {n : ℕ} {p : Fin n} {s : Sys n} {h : Heap (Sys n)}

/-! ### The system call -/

/-- The system call that `sbrk` of `k` bytes makes. -/
def sbrkCall (p : Fin n) (k : ℤ) : K n (Option ℕ) := sysSbrk p (k % 2 ^ 32).toNat 1

/-- `sbrk`, with the kernel's answer to the process `p`. There is none after a panic, which stops
the machine: `malloc_sizes` says that none occurs. -/
def kernel (p : Fin n) : Os (Sys n) where
  sbrk s k :=
    match sbrkCall p k s with
    | .ok (r, s') => (r, s')
    | .error _ => (none, s)

lemma kernel_ok {k : ℤ} {r : Option ℕ} {s' : Sys n} (h : sbrkCall p k s = .ok (r, s')) :
    (kernel p).sbrk s k = (r, s') := by
  simp only [kernel, h]

def Running (p : Fin n) (s : Sys n) : Prop :=
  (∃ y H T, MemInv.Inv s y H T) ∧ (s.tbl.procs p).state ≠ .UNUSED

omit [Layout] in
lemma argint_int {k : ℤ} (h1 : -2 ^ 31 ≤ k) (h2 : k < 2 ^ 31) :
    argint (k % 2 ^ 32).toNat = k := by
  have key : ∀ m : ℕ, m = 4294967296 → Int.bmod ((k % 2 ^ 32).toNat : ℤ) m = k := by
    intro m hm
    rw [Int.toNat_of_nonneg (by omega), Int.bmod_def]
    subst hm
    split_ifs <;> omega
  exact key _ (by norm_num)

/-- **What `sbrk` does.** It fails, or it answers the old size and moves the size by the amount; a
negative amount shrinks the process. -/
lemma kernel_sbrk (hs : Running p s) {k : ℤ} (h1 : -2 ^ 31 ≤ k) (h2 : k < 2 ^ 31)
    (hk : ((s.mm p).sz : ℤ) + k ≤ TRAPFRAME) :
    ∃ r s', sbrkCall p k s = .ok (r, s') ∧ Running p s' ∧
      (r = none ∧ (s'.mm p).sz = (s.mm p).sz ∨
        r = some (s.mm p).sz ∧ (s'.mm p).sz = moveSize (s.mm p).sz k) := by
  obtain ⟨⟨y, H, T, hi⟩, hst⟩ := hs
  obtain ⟨t, ht⟩ := used_table hi hst
  obtain ⟨tf, htf, hsp, hT⟩ := hi.table ht
  have hroom : ((s.mm p).sz : ℤ) + argint (k % 2 ^ 32).toNat ≤ TRAPFRAME := by
    rwa [argint_int h1 h2]
  obtain ⟨r, s', hrun, hr⟩ := sysSbrk_spec ht hsp hT 1 hroom
  rw [argint_int h1 h2] at hr
  refine ⟨r, s', hrun, ?_⟩
  rcases hr with ⟨rfl, hu⟩ | ⟨rfl, hu⟩
  · have hi' := (Inv.unmoved hi ht htf hsp hu).1
    obtain ⟨v, rfl, -⟩ := hu
    exact ⟨⟨⟨y, H, T, hi'⟩, hst⟩, .inl ⟨rfl, rfl⟩⟩
  · have hi' := (Inv.resized hi ht htf hu).1
    obtain ⟨v, e', rfl, -⟩ := hu
    exact ⟨⟨⟨y, H, T, hi'⟩, hst⟩, .inr ⟨rfl, by simp [respace]⟩⟩

/-! ### Histories of a process -/

/-- A step of the allocator, or what the rest of the system does. -/
inductive Event (n : ℕ)
  | act (a : Act)
  | other (s : Sys n)

def stepIn (p : Fin n) (h : Heap (Sys n)) : Event n → Option (Heap (Sys n))
  | .act a => step (kernel p) h a
  | .other s => some { h with os := s }

def Begins (p : Fin n) (h : Heap (Sys n)) : Prop :=
  Fresh h ∧ Running p h.os ∧ h.base + HEADER ≤ (h.os.mm p).sz

/-- Requests of less than 2^31 bytes that keep the process below 2^36 bytes. -/
def Within (p : Fin n) (h : Heap (Sys n)) : Event n → Prop
  | .act (.malloc nbytes) => HEADER * ((nbytes + HEADER - 1) / HEADER + 1) < 2 ^ 31 ∧
      (h.os.mm p).sz + coreBytes nbytes < 2 ^ 36
  | .act a => Allowed (kernel p) h a
  | .other s => Running p s ∧ (h.os.mm p).sz ≤ (s.mm p).sz

/-- The heap is sound, and all that was obtained is below the size of the process. -/
structure Owned (p : Fin n) (h : Heap (Sys n)) : Prop where
  good : Good h
  running : Running p h.os
  top : top h ≤ (h.os.mm p).sz
  total : total h.regions ≤ (h.os.mm p).sz

lemma Begins.owned (hb : Begins p h) : Owned p h := by
  obtain ⟨hf, hr, hsz⟩ := hb
  refine ⟨⟨.inl hf, ?_⟩, hr, ?_, ?_⟩
  · rw [hf.regions]
    decide
  · rw [top, hf.regions]
    exact hsz
  · rw [hf.regions]
    exact Nat.zero_le _

lemma Owned.sbrk (ho : Owned p h) {nbytes : ℕ} (hw : Within p h (.act (.malloc nbytes))) :
    ∃ r s', sbrkCall p (int (coreBytes nbytes)) h.os = .ok (r, s') ∧ Running p s' ∧
      (r = none ∧ (s'.mm p).sz = (h.os.mm p).sz ∨
        r = some (h.os.mm p).sz ∧ (s'.mm p).sz = (h.os.mm p).sz + coreBytes nbytes) := by
  obtain ⟨hsize, hsz⟩ := hw
  obtain ⟨h1, h2⟩ := coreBytes_lt hsize
  have htf : (2 : ℕ) ^ 36 ≤ TRAPFRAME := by decide
  rw [int_of_lt h2]
  obtain ⟨r, s', hs, hr, hres⟩ := kernel_sbrk ho.running (k := coreBytes nbytes) (by omega)
    (by omega) (by omega)
  refine ⟨r, s', hs, hr, hres.imp_right fun ⟨h3, h4⟩ => ⟨h3, ?_⟩⟩
  rw [h4, moveSize, if_pos (by omega)]
  omega

/-- The amount of a `malloc`, and the memory after it. -/
structure Grows (p : Fin n) (h t : Heap (Sys n)) (nbytes : ℕ) : Prop where
  owned : Owned p t
  inv : ∃ L, Inv t L t.live
  served : Served h t nbytes
  size : t.regions = h.regions ∧ (t.os.mm p).sz = (h.os.mm p).sz ∨
    t.regions = ((h.os.mm p).sz, coreBytes nbytes) :: h.regions ∧
      (t.os.mm p).sz = (h.os.mm p).sz + coreBytes nbytes

lemma Owned.malloc (ho : Owned p h) {nbytes : ℕ} (hw : Within p h (.act (.malloc nbytes))) :
    ∃ t, step (kernel p) h (.malloc nbytes) = some t ∧ Grows p h t nbytes := by
  obtain ⟨r, s', hcall, hrun, hres⟩ := ho.sbrk hw
  have hs := kernel_ok hcall
  have hanswer : ∀ a ∈ ((kernel p).sbrk h.os (int (coreBytes nbytes))).1, a = (h.os.mm p).sz := by
    intro a ha
    rw [hs] at ha
    rcases hres with ⟨rfl, -⟩ | ⟨rfl, -⟩
    · cases ha
    · exact (Option.some.inj ha).symm
  have hallow : Allowed (kernel p) h (.malloc nbytes) :=
    ⟨hw.1, fun _ a ha => by rw [hanswer a ha]; exact ho.top⟩
  have hbound : Bounded (kernel p) h (.malloc nbytes) := fun _ _ _ => by
    have := hw.2
    have := ho.total
    unfold HEADER
    omega
  obtain ⟨t, ht, hinv, hlt, hserved, hbase, hasked⟩ := ho.good.malloc hallow hbound
  have hgood : Good t := ⟨.inr hinv, hlt⟩
  have htop := ho.top
  have htotal := ho.total
  refine ⟨t, ht, ?_⟩
  cases hasked with
  | no hos hregions =>
    refine ⟨⟨hgood, hos ▸ ho.running, ?_, ?_⟩, hinv, hserved, .inl ⟨hregions, by rw [hos]⟩⟩
    · rwa [top_congr hbase hregions, hos]
    · rwa [hregions, hos]
  | refused hos hregions =>
    obtain ⟨rfl, rfl⟩ := Prod.mk.inj (hs.symm.trans hos)
    rcases hres with ⟨-, hsz⟩ | ⟨h0, -⟩
    · refine ⟨⟨hgood, hrun, ?_, ?_⟩, hinv, hserved, .inl ⟨hregions, hsz⟩⟩
      · rwa [top_congr hbase hregions, hsz]
      · rwa [hregions, hsz]
    · cases h0
  | given a hos hregions =>
    obtain ⟨rfl, rfl⟩ := Prod.mk.inj (hs.symm.trans hos)
    rcases hres with ⟨h0, -⟩ | ⟨ha, hsz⟩
    · cases h0
    · cases ha
      refine ⟨⟨hgood, hrun, ?_, ?_⟩, hinv, hserved, .inr ⟨hregions, hsz⟩⟩
      · rw [top_cons hbase hregions, hsz]
        dsimp only
        omega
      · rw [hregions, FreeList.total_cons, hsz]
        dsimp only
        omega

lemma Owned.step {t : Heap (Sys n)} (ho : Owned p h) {e : Event n} (hw : Within p h e)
    (ht : stepIn p h e = some t) : Owned p t := by
  cases e with
  | other s =>
    cases ht
    obtain ⟨hr, hsz⟩ := hw
    exact ⟨⟨ho.good.1.imp (fun hf => ⟨hf.freep, hf.base, hf.live, hf.regions⟩) fun ⟨L, hi⟩ =>
      ⟨L, hi.congr rfl rfl rfl rfl⟩, ho.good.2⟩, hr, ho.top.trans hsz, ho.total.trans hsz⟩
  | act a =>
    have hkeeps : ∀ t', Umalloc.step (kernel p) h a = some t' → Good t' → Keeps h t' →
        Owned p t := by
      intro t' ht' hgood hk
      obtain rfl : t' = t := Option.some.inj (ht'.symm.trans ht)
      have htop := ho.top
      have htotal := ho.total
      refine ⟨hgood, hk.os ▸ ho.running, ?_, ?_⟩
      · rwa [top_congr hk.base hk.regions, hk.os]
      · rwa [hk.regions, hk.os]
    cases a with
    | malloc nbytes =>
      obtain ⟨t', ht', hg⟩ := ho.malloc hw
      obtain rfl : t' = t := Option.some.inj (ht'.symm.trans ht)
      exact hg.owned
    | free ap =>
      obtain ⟨t', ht', hgood, hk⟩ := ho.good.free hw
      exact hkeeps t' ht' hgood hk
    | store a c =>
      obtain ⟨t', ht', hgood, hk⟩ := ho.good.store hw
      exact hkeeps t' ht' hgood hk

/-- **The sizes of `malloc`.** In every history of requests below 2^31 bytes that keeps the process
below 2^36 bytes, the amount for `sbrk` is positive and the one recorded in the header, and the
system call does not panic; `malloc` returns, never shrinks the process, and what it obtains is
recorded as it is; and its answer is 0 or a block whose bytes are all below the size of the
process. -/
theorem malloc_sizes (p : Fin n) (h : Heap (Sys n))
    (hr : Reach (stepIn p) (Within p) (Begins p) h) (nbytes : ℕ)
    (hw : Within p h (.act (.malloc nbytes))) :
    0 < int (coreBytes nbytes) ∧ argint (int (coreBytes nbytes) % 2 ^ 32).toNat =
      (coreUnits (unitsFor nbytes) * HEADER : ℕ) ∧
    (∃ r s', sbrkCall p (int (coreBytes nbytes)) h.os = .ok (r, s')) ∧
    ∃ t, malloc (kernel p) h nbytes = some t ∧
      (t.regions = h.regions ∧ (t.os.mm p).sz = (h.os.mm p).sz ∨
        t.regions = ((h.os.mm p).sz, coreUnits (unitsFor nbytes) * HEADER) :: h.regions ∧
          (t.os.mm p).sz = (h.os.mm p).sz + coreUnits (unitsFor nbytes) * HEADER) ∧
      (∃ L, Inv t L t.live) ∧
      (t.ret = 0 ∧ t.live = h.live ∨ ∃ z, t.live = z :: h.live ∧ t.ret = z.1 + HEADER ∧
        t.ret + nbytes ≤ stop HEADER z ∧ stop HEADER z ≤ (t.os.mm p).sz) := by
  have ho : Owned p h := hr.invariant (fun _ => Begins.owned) fun _ _ _ ho hw ht => ho.step hw ht
  obtain ⟨h1, h2⟩ := coreBytes_lt hw.1
  refine ⟨?_, ?_, ?_, ?_⟩
  · rw [int_of_lt h2]
    omega
  · rw [int_of_lt h2, argint_int (by omega) (by omega)]
    rfl
  · obtain ⟨r, s', hcall, -⟩ := ho.sbrk hw
    exact ⟨r, s', hcall⟩
  · obtain ⟨t, ht, hg⟩ := ho.malloc hw
    refine ⟨t, ht, hg.size, hg.inv, ?_⟩
    rcases hg.served with h0 | ⟨z, hz, hret, hroom, -⟩
    · exact .inl h0
    · obtain ⟨L, hi⟩ := hg.inv
      exact .inr ⟨z, hz, hret, hroom, (hi.bounds (by simp [hz])).2.trans hg.owned.top⟩

end

open MemSafe (freshSys fresh_booted start_safe)
open ProcModel (ProcState)

def unused (s : Sys 4) : Heap (Sys 4) := ⟨4096, fun _ => ⟨0, 0⟩, 0, s, 0, [], []⟩

/-- The first process is made, and `p` gets 65536 bytes with `sbrklazy`. -/
def lazyProcess (p : Fin 4) : K 4 (Option ℕ) := do
  userinit
  sysSbrk p 65536 2

def sizeState (p : Fin 4) (s : Sys 4) : ℕ × ProcState := ((s.mm p).sz, (s.tbl.procs p).state)

set_option maxRecDepth 100000 in
lemma userinit_state :
    (userinit freshSys).toOption.map (fun r => sizeState 0 r.2) = some (0, .RUNNABLE) := by
  decide +kernel

set_option maxRecDepth 100000 in
lemma lazyProcess_state :
    (lazyProcess 0 freshSys).toOption.map (fun r => sizeState 0 r.2) = some (65536, .RUNNABLE) := by
  decide +kernel

def sizesAfter (p : Fin 4) (nbytes : ℕ) (r : Option ℕ × Sys 4) : Option (ℕ × List Block) :=
  (malloc (kernel p) (unused r.2) nbytes).map fun t => ((t.os.mm p).sz, t.live)

set_option maxRecDepth 100000 in
lemma lazyProcess_shrinks : ((lazyProcess 0 freshSys).toOption.bind fun r =>
    (sbrkCall 0 (int (coreBytes (2 ^ 32 - 65536))) r.2).toOption.map fun x =>
      (x.1, (x.2.mm 0).sz)) = some (some 65536, 16) := by
  decide +kernel

set_option maxRecDepth 100000 in
lemma lazyProcess_short : (lazyProcess 0 freshSys).toOption.bind (sizesAfter 0 (2 ^ 32 - 1)) =
    some (65552, [(65536, 2 ^ 28 + 1)]) := by
  decide +kernel

lemma lazyProcess_running : ∃ r, lazyProcess 0 freshSys = .ok r ∧ Running 0 r.2 ∧
    (r.2.mm 0).sz = 65536 := by
  have h1 := userinit_state
  have h2 := lazyProcess_state
  cases hu : userinit freshSys with
  | error e =>
    rw [hu] at h1
    cases h1
  | ok x =>
    obtain ⟨⟨⟩, s⟩ := x
    rw [hu] at h1
    obtain ⟨hsz, hst⟩ := Prod.mk.inj (Option.some.inj h1)
    have hsafe : Safe s := start_safe ⟨freshSys, fresh_booted, hu⟩
    have hused : (s.tbl.procs 0).state ≠ .UNUSED := by
      rw [show (s.tbl.procs 0).state = .RUNNABLE from hst]
      decide
    have hroom : ((s.mm 0).sz : ℤ) + argint 65536 ≤ TRAPFRAME := by
      rw [show (s.mm 0).sz = 0 from hsz]
      decide
    have hwp : wp (lazyProcess 0) freshSys fun _ t => ∃ y H T, MemInv.Inv t y H T := by
      rw [lazyProcess, wp_bind]
      refine ⟨(), s, hu, (sysSbrk_wp hsafe hused hroom).mono ?_⟩
      exact fun _ t ht => ⟨_, _, _, ht.1⟩
    obtain ⟨a, t, hfirst, hinv⟩ := hwp
    rw [hfirst] at h2
    obtain ⟨hsz', hst'⟩ := Prod.mk.inj (Option.some.inj h2)
    refine ⟨(a, t), hfirst, ⟨hinv, ?_⟩, hsz'⟩
    rw [show (t.tbl.procs 0).state = .RUNNABLE from hst']
    decide

/-- **Requests near 2^32 wrap.** The `sbrk` of `malloc(4294901760)` shrinks a process of 65536 bytes
to 16, and `malloc(4294967295)` records a block of 2^28 + 1 units for which it has obtained 16
bytes. -/
theorem large_requests_wrap : ∃ s : Sys 4, Running 0 s ∧ (s.mm 0).sz = 65536 ∧
    (∃ s', sbrkCall 0 (int (coreBytes 4294901760)) s = .ok (some 65536, s') ∧
      (s'.mm 0).sz = 16) ∧
    ∃ t, malloc (kernel 0) (unused s) 4294967295 = some t ∧ (t.os.mm 0).sz = 65536 + 16 ∧
      t.live = [(65536, 2 ^ 28 + 1)] := by
  obtain ⟨r, hr, hrun, hsz⟩ := lazyProcess_running
  have h1 := lazyProcess_shrinks
  have h2 := lazyProcess_short
  rw [hr] at h1 h2
  obtain ⟨⟨a, s'⟩, hs, h3⟩ := Option.map_eq_some_iff.mp h1
  obtain ⟨u, hu, h4⟩ := Option.map_eq_some_iff.mp h2
  obtain ⟨rfl, h3⟩ := Prod.mk.inj h3
  refine ⟨r.2, hrun, hsz, ⟨s', ?_, h3⟩, u, hu, ?_, ?_⟩
  · cases hcall : sbrkCall 0 (int (coreBytes (2 ^ 32 - 65536))) r.2 with
    | error e =>
      rw [hcall] at hs
      cases hs
    | ok x =>
      rw [hcall] at hs
      exact congrArg Except.ok (Option.some.inj hs)
  · exact (Prod.mk.inj h4).1
  · exact (Prod.mk.inj h4).2

theorem malloc_sizes_first : ∃ (s : Sys 4) (t : Heap (Sys 4)), (s.mm 0).sz = 65536 ∧
    malloc (kernel 0) (unused s) 100 = some t ∧
    ∀ z ∈ t.live.head?, stop HEADER z ≤ (t.os.mm 0).sz := by
  obtain ⟨r, -, hrun, hsz⟩ := lazyProcess_running
  have hb : Begins 0 (unused r.2) := by
    refine ⟨⟨rfl, Nat.succ_pos _, rfl, rfl⟩, hrun, ?_⟩
    change 4096 + HEADER ≤ (r.2.mm 0).sz
    rw [hsz]
    decide
  have hw : Within 0 (unused r.2) (.act (.malloc 100)) := by
    refine ⟨by decide, ?_⟩
    change (r.2.mm 0).sz + _ < _
    rw [hsz]
    decide
  obtain ⟨-, -, -, t, ht, -, -, hserved⟩ := malloc_sizes 0 (unused r.2) (.init hb) 100 hw
  refine ⟨r.2, t, hsz, ht, fun z hz => ?_⟩
  rcases hserved with ⟨-, hl⟩ | ⟨y, hl, -, -, hy⟩
  · rw [hl] at hz
    cases hz
  · rw [hl] at hz
    obtain rfl : y = z := Option.some.inj hz
    exact hy

end Xv6.Umalloc
