import Mathlib.Algebra.BigOperators.Fin
import Xv6.MemExec
import Xv6.MemFiles

/-!
The pages of the whole system, and the invariant of all processes.

Each process has the pages of its page table, the user pages that the table maps, and its
trapframe. `Inv s y H T` says that these, the pages of pipes, those taken at boot and the
pages `H` in hand are what is not on the free list, each page once; that every process has an
address space; and that `y` are the references to files. `T` are the trapframes at some
earlier time: a process keeps its trapframe.

A call works on one process `p`. `Rest s p y T` is the part of the invariant that is not about
`p`, and `Frame p s s'` what `p` has to leave alone for it to stay true.
-/

namespace Xv6.MemInv

open Function Bytes Hoare PageTree VmModel VmTable VmUser VmCopy
open Params MemModel MemSpace MemFiles
open ProcModel (ProcState)

variable {n : ℕ}

/-! ### Whose pages -/

def mappings (v : Mach) (t : ℕ) : ℕ → ℕ := fun a => mapping (entry sv39 2 (words v.mem) t a)

def tablePages (v : Mach) (m : Mm) : Multiset ℕ :=
  m.pagetable.elim 0 fun t => tables sv39 2 (words v.mem) t

def userPages (v : Mach) (m : Mm) : Multiset ℕ := m.pagetable.elim 0 fun t => leaves (mappings v t)

def framePages (m : Mm) : Multiset ℕ := m.trapframe.elim 0 fun tf => {tf}

def procPages (v : Mach) (m : Mm) : Multiset ℕ := tablePages v m + userPages v m + framePages m

def fdRefs (mm : Fin n → Mm) : Multiset (Fin NFILE) :=
  ∑ x : Fin n × Fin NOFILE, ((mm x.1).ofile x.2).elim 0 fun f => {f}

section

variable [Layout]

/-- What holds of a slot: its process has an address space and a trapframe, unless the slot is
unused, and no files once it has exited. -/
structure Slot (v : Mach) (m : Mm) (st : ProcState) (tf₀ : Option ℕ) : Prop where
  unused : m.pagetable = none ↔ st = .UNUSED
  empty : m.pagetable = none → m.trapframe = none ∧ m.sz = 0
  space : ∀ t, m.pagetable = some t → Wf sv39 2 (words v.mem) t ∧
    ∃ tf, m.trapframe = some tf ∧ Space (mappings v t) m.sz tf
  closed : st = .UNUSED ∨ st = .ZOMBIE → ∀ fd, m.ofile fd = none
  frame : ∀ tf, m.trapframe = some tf → tf₀ = none ∨ tf₀ = some tf

structure Inv (s : Sys n) (y : Multiset (Fin NFILE)) (H : Multiset ℕ) (T : Fin n → Option ℕ) :
    Prop where
  owns : Owns s.vm (↑s.boot + ∑ i, procPages s.vm (s.mm i) + pipePages s.ftable + H)
  slots : ∀ i, Slot s.vm (s.mm i) (s.tbl.procs i).state (T i)
  files : Files s.vm.mem s.ftable fun f => y.count f

end

def others (s : Sys n) (p : Fin n) : Multiset ℕ :=
  ↑s.boot + ∑ i ∈ Finset.univ.erase p, procPages s.vm (s.mm i) + pipePages s.ftable

/-- What changes from `s` to `s'` is about process `p` only. -/
structure Frame (p : Fin n) (s s' : Sys n) : Prop where
  same : Same (others s p) s.vm s'.vm
  mm : ∀ i ≠ p, s'.mm i = s.mm i
  state : ∀ i ≠ p, (s'.tbl.procs i).state = (s.tbl.procs i).state
  ftable : s'.ftable = s.ftable
  boot : s'.boot = s.boot

structure Rest [Layout] (s : Sys n) (p : Fin n) (y : Multiset (Fin NFILE)) (T : Fin n → Option ℕ) :
    Prop where
  slots : ∀ i ≠ p, Slot s.vm (s.mm i) (s.tbl.procs i).state (T i)
  files : Files s.vm.mem s.ftable fun f => y.count f

variable {s s' s'' : Sys n} {p q i : Fin n} {y : Multiset (Fin NFILE)} {H H' : Multiset ℕ}
  {T : Fin n → Option ℕ} {v u : Mach} {m : Mm} {t tf : ℕ} {e : ℕ → ℕ}

lemma tablePages_some (ht : m.pagetable = some t) :
    tablePages v m = tables sv39 2 (words v.mem) t := by
  rw [tablePages, ht, Option.elim_some]

-- by rewriting, since comparing the two sides by unfolding would count all pages
lemma userPages_some (ht : m.pagetable = some t) : userPages v m = leaves (mappings v t) := by
  rw [userPages, ht, Option.elim_some]

lemma framePages_some (htf : m.trapframe = some tf) : framePages m = {tf} := by
  rw [framePages, htf, Option.elim_some]

lemma procPages_eq (ht : m.pagetable = some t) (htf : m.trapframe = some tf) : procPages v m =
    tables sv39 2 (words v.mem) t + leaves (mappings v t) + {tf} := by
  rw [procPages, tablePages_some ht, userPages_some ht, framePages_some htf]

lemma procPages_none (ht : m.pagetable = none) : procPages v m = framePages m := by
  rw [procPages, tablePages, userPages, ht, Option.elim_none, Option.elim_none, zero_add, zero_add]

lemma tables_le_procPages (ht : m.pagetable = some t) :
    tables sv39 2 (words v.mem) t ≤ procPages v m := by
  rw [procPages, tablePages_some ht]
  exact (Multiset.le_add_right _ _).trans (Multiset.le_add_right _ _)

/-! ### A slot whose pages stay as they are -/

lemma mappings_congr (h : Same (tables sv39 2 (words v.mem) t) v u) :
    mappings u t = mappings v t := by
  funext a
  rw [mappings, mappings, entry_congr sv39 fun p hp => words_congr (h p hp)]

lemma tables_same (h : Same (tables sv39 2 (words v.mem) t) v u) :
    tables sv39 2 (words u.mem) t = tables sv39 2 (words v.mem) t :=
  tables_congr sv39 fun p hp => words_congr (h p hp)

lemma procPages_congr (h : Same (procPages v m) v u) : procPages u m = procPages v m := by
  cases ht : m.pagetable with
  | none => rw [procPages_none ht, procPages_none ht]
  | some t =>
    have h' := h.mono (tables_le_procPages ht)
    rw [procPages, procPages, tablePages_some ht, tablePages_some ht, userPages_some ht,
      userPages_some ht, tables_same h', mappings_congr h']

lemma Slot.congr [Layout] {st : ProcState} {tf₀ : Option ℕ} (h : Slot v m st tf₀)
    (hs : Same (procPages v m) v u) : Slot u m st tf₀ := by
  refine ⟨h.unused, h.empty, fun t ht => ?_, h.closed, h.frame⟩
  obtain ⟨hwf, hsp⟩ := h.space t ht
  have h' := hs.mono (tables_le_procPages ht)
  rw [mappings_congr h']
  exact ⟨every_congr sv39 hwf fun p hp => words_congr (h' p hp), hsp⟩

lemma procPages_le_others (h : i ≠ p) : procPages s.vm (s.mm i) ≤ others s p := by
  have := Finset.single_le_sum (f := fun i => procPages s.vm (s.mm i))
    (fun _ _ => Multiset.zero_le _) (Finset.mem_erase.mpr ⟨h, Finset.mem_univ i⟩)
  unfold others
  exact this.trans ((Multiset.le_add_left _ _).trans (Multiset.le_add_right _ _))

/-! ### The frame rule -/

lemma Frame.others (h : Frame p s s') : others s' p = others s p := by
  have hsum : ∑ i ∈ Finset.univ.erase p, procPages s'.vm (s'.mm i) =
      ∑ i ∈ Finset.univ.erase p, procPages s.vm (s.mm i) := by
    refine Finset.sum_congr rfl fun i hi => ?_
    have hi := (Finset.mem_erase.mp hi).1
    rw [h.mm i hi]
    exact procPages_congr (h.same.mono (procPages_le_others hi))
  rw [MemInv.others, MemInv.others, hsum, h.ftable, h.boot]

lemma Frame.trans (h : Frame p s s') (h' : Frame p s' s'') : Frame p s s'' := by
  refine ⟨h.same.trans ?_, fun i hi => (h'.mm i hi).trans (h.mm i hi),
    fun i hi => (h'.state i hi).trans (h.state i hi), h'.ftable.trans h.ftable,
    h'.boot.trans h.boot⟩
  rw [← h.others]
  exact h'.same

variable [Layout]

/-- **The frame rule.** -/
theorem Rest.frame (h : Rest s p y T) (hf : Frame p s s') : Rest s' p y T := by
  refine ⟨fun i hi => ?_, ?_⟩
  · rw [hf.mm i hi, hf.state i hi]
    exact (h.slots i hi).congr (hf.same.mono (procPages_le_others hi))
  · rw [hf.ftable]
    refine h.files.congr fun q hq => hf.same q ?_
    exact Multiset.mem_add.mpr (.inr hq)

omit [Layout] in
lemma total_eq (s : Sys n) (p : Fin n) (H : Multiset ℕ) :
    ↑s.boot + ∑ i, procPages s.vm (s.mm i) + pipePages s.ftable + H =
      procPages s.vm (s.mm p) + (others s p + H) := by
  rw [← Finset.add_sum_erase _ _ (Finset.mem_univ p), others]
  abel

lemma Inv.rest (h : Inv s y H T) (p : Fin n) : Rest s p y T ∧
    Owns s.vm (procPages s.vm (s.mm p) + (others s p + H)) :=
  ⟨⟨fun i _ => h.slots i, h.files⟩, by rw [← total_eq]; exact h.owns⟩

lemma Rest.inv (h : Rest s p y T) (hs : Slot s.vm (s.mm p) (s.tbl.procs p).state (T p))
    (ho : Owns s.vm (procPages s.vm (s.mm p) + (others s p + H))) : Inv s y H T := by
  refine ⟨by rw [total_eq s p]; exact ho, fun i => ?_, h.files⟩
  by_cases e : i = p
  · rw [e]
    exact hs
  · exact h.slots i e

/-! ### One process -/

lemma Inv.table (h : Inv s y H T) (ht : (s.mm p).pagetable = some t) : ∃ tf,
    (s.mm p).trapframe = some tf ∧ Space (mappings s.vm t) (s.mm p).sz tf ∧
    Table s.vm t (mappings s.vm t) (leaves (mappings s.vm t) + ({tf} + (others s p + H))) := by
  obtain ⟨hwf, tf, htf, hsp⟩ := (h.slots p).space t ht
  refine ⟨tf, htf, hsp, hwf, fun _ _ => rfl, ?_⟩
  have ho := (h.rest p).2
  rw [procPages_eq ht htf] at ho
  rw [← add_assoc, ← add_assoc]
  exact ho

lemma mappings_eq {R : Multiset ℕ} (h : Table v t e R) : ∀ a < 512 ^ 3, mappings v t a = e a :=
  h.entries

lemma leaves_mappings {R : Multiset ℕ} (h : Table v t e R) : leaves (mappings v t) = leaves e :=
  leaves_congr fun a ha => mappings_eq h a (user_lt ha).2

lemma Space.mappings {R : Multiset ℕ} {sz : ℕ} (hs : Space e sz tf) (h : Table v t e R) :
    Space (mappings v t) sz tf := by
  have htop : trapframePage < 512 ^ 3 ∧ trampolinePage < 512 ^ 3 := by decide
  refine ⟨hs.size, ?_, ?_, fun a ha hv => ?_⟩
  · rw [mappings_eq h _ htop.2, hs.trampoline]
  · rw [mappings_eq h _ htop.1, hs.trapframe]
  · rw [mappings_eq h a ha] at hv
    exact hs.low a ha hv

lemma Rest.close (h : Rest s p y T) (ht : (s.mm p).pagetable = some t)
    (htf : (s.mm p).trapframe = some tf)
    (hT : Table s.vm t e (leaves e + ({tf} + (others s p + H)))) (hsp : Space e (s.mm p).sz tf)
    (hst : (s.tbl.procs p).state ≠ .UNUSED)
    (hz : (s.tbl.procs p).state = .ZOMBIE → ∀ fd, (s.mm p).ofile fd = none)
    (hfr : T p = none ∨ T p = some tf) : Inv s y H T := by
  refine h.inv ⟨by simp [ht, hst], by simp [ht], fun t' ht' => ?_, fun hc => ?_, fun x hx => ?_⟩ ?_
  · obtain rfl : t = t' := Option.some.inj (ht.symm.trans ht')
    exact ⟨hT.wf, tf, htf, Space.mappings hsp hT⟩
  · exact hz (hc.resolve_left hst)
  · obtain rfl : tf = x := Option.some.inj (htf.symm.trans hx)
    exact hfr
  · rw [procPages_eq ht htf, leaves_mappings hT, add_assoc, add_assoc]
    exact hT.owns

/-- The system with new memory, and a new page table and size of process `p`. -/
def respace (s : Sys n) (p : Fin n) (v : Mach) (t sz : ℕ) : Sys n :=
  { s with vm := v, mm := update s.mm p { s.mm p with pagetable := some t, sz := sz } }

section

variable (h : Inv s y H T) (ht : (s.mm p).pagetable = some t) (htf : (s.mm p).trapframe = some tf)
include h ht htf

/-- A call that changes only the memory and the page table of its process keeps the
invariant. -/
theorem Inv.update
    {t' sz : ℕ}
    (hsame : Same (others s p) s.vm v)
    (hT : Table v t' e (leaves e + ({tf} + (others s p + H')))) (hsp : Space e sz tf) :
    Inv (respace s p v t' sz) y H' T := by
  have hf : Frame p s (respace s p v t' sz) :=
    ⟨hsame, fun i hi => update_of_ne hi _ _, fun _ _ => rfl, rfl, rfl⟩
  have hused : (s.tbl.procs p).state ≠ .UNUSED := fun e => by
    have := (h.slots p).unused.mpr e
    rw [ht] at this
    cases this
  refine ((h.rest p).1.frame hf).close (t := t') (e := e) ?_ ?_ ?_ ?_ hused ?_
    ((h.slots p).frame tf htf)
  · simp [respace]
  · simpa [respace] using htf
  · rw [hf.others]
    exact hT
  · simpa [respace] using hsp
  · simpa [respace] using fun hz => (h.slots p).closed (.inr hz)

lemma Inv.touch
    (hsame : Same (others s p) s.vm v)
    (hT : Table v t e (leaves e + ({tf} + (others s p + H'))))
    (hsp : Space e (s.mm p).sz tf) : Inv { s with vm := v } y H' T := by
  have := h.update ht htf hsame hT hsp
  rwa [respace, show ({ s.mm p with pagetable := some t, sz := (s.mm p).sz } : Mm) =
    s.mm p by rw [← ht], update_eq_self] at this

lemma Inv.touched
    (hsp : Space (mappings s.vm t) (s.mm p).sz tf)
    (hv : Touched s.vm t (mappings s.vm t) (s.mm p).sz ({tf} + (others s p + H)) v) :
    Inv { s with vm := v } y H T := by
  obtain ⟨hsame, e', hu, hfill⟩ := hv
  refine h.touch ht htf (hsame.mono ?_) hu.table (hsp.fill hfill)
  exact (Multiset.le_add_right _ _).trans (Multiset.le_add_left _ _)

end

/-! ### Descriptors and files -/

variable {c' : Fin NFILE → ℕ} {f : Fin NFILE} {fd : Fin NOFILE} {o : Option (Fin NFILE)}

def Only (s s' : Sys n) : Prop := s' = { s with vm := s'.vm, ftable := s'.ftable }

omit [Layout] in
lemma Only.trans (h : Only s s') (h' : Only s' s'') : Only s s'' := by
  rw [Only, h', h]

omit [Layout] in
lemma Only.mm (h : Only s s') : s'.mm = s.mm := by rw [h]

omit [Layout] in
lemma Only.tbl (h : Only s s') : s'.tbl = s.tbl := by rw [h]

/-- The pages that no file has to do with. -/
def kept (s : Sys n) : Multiset ℕ := ↑s.boot + ∑ i, procPages s.vm (s.mm i)

lemma Inv.ownsFiles (h : Inv s y H T) : Owns s.vm (pipePages s.ftable + (kept s + H)) := by
  have ho := h.owns
  rwa [add_comm (_ + _ : Multiset ℕ) (pipePages s.ftable), add_assoc] at ho

omit [Layout] in
lemma procPages_le_kept (i : Fin n) : procPages s.vm (s.mm i) ≤ kept s :=
  (Finset.single_le_sum (f := fun i => procPages s.vm (s.mm i)) (fun _ _ => Multiset.zero_le _)
    (Finset.mem_univ i)).trans (Multiset.le_add_left _ _)

lemma Inv.fileStep {y' : Multiset (Fin NFILE)} (h : Inv s y H T) (st : Step (kept s + H) s s' c')
    (hc : c' = fun f => y'.count f) : Inv s' y' H T ∧ Only s s' := by
  have hk : kept s ≤ kept s + H := Multiset.le_add_right _ _
  have hpages : ∀ i, Same (procPages s.vm (s.mm i)) s.vm s'.vm := fun i =>
    st.same.mono ((procPages_le_kept i).trans hk)
  have hmm : s'.mm = s.mm := by rw [st.eq]
  have htbl : s'.tbl = s.tbl := by rw [st.eq]
  have hboot : s'.boot = s.boot := by rw [st.eq]
  refine ⟨⟨?_, fun i => ?_, hc ▸ st.files⟩, st.eq⟩
  · have hkept : ↑s'.boot + ∑ i, procPages s'.vm (s'.mm i) = kept s := by
      rw [kept, hboot, hmm, Finset.sum_congr rfl fun i _ => procPages_congr (hpages i)]
    rw [hkept, add_comm (kept s), add_assoc]
    exact st.owns
  · rw [hmm, htbl]
    exact (h.slots i).congr (hpages i)

omit [Layout] in
lemma count_cons_eq (y : Multiset (Fin NFILE)) (f : Fin NFILE) :
    update (fun g => y.count g) f (y.count f + 1) = fun g => (f ::ₘ y).count g := by
  funext g
  by_cases e : g = f
  · rw [e, update_self, Multiset.count_cons_self]
  · rw [update_of_ne e, Multiset.count_cons_of_ne e]

lemma Inv.filedup (h : Inv s y H T) (hf : f ∈ y) :
    wp (filedup f) s fun _ s' => Inv s' (f ::ₘ y) H T ∧ Only s s' := by
  refine (filedup_wp h.files h.ownsFiles (Multiset.count_pos.mpr hf)).mono fun _ s' st => ?_
  exact h.fileStep st (count_cons_eq y f)

lemma Inv.fileclose (h : Inv s (f ::ₘ y) H T) :
    wp (fileclose f) s fun _ s' => Inv s' y H T ∧ Only s s' := by
  have hpos : 0 < (f ::ₘ y).count f := Multiset.count_pos.mpr (Multiset.mem_cons_self f y)
  refine (fileclose_wp h.files h.ownsFiles hpos).mono fun _ s' st => h.fileStep st ?_
  rw [← count_cons_eq, update_idem, Multiset.count_cons_self, Nat.add_sub_cancel,
    update_eq_self]

lemma Inv.filealloc (h : Inv s y H T) : wp filealloc s fun r s' => (r = none → s' = s) ∧
    ∀ f, r = some f → Inv s' (f ::ₘ y) H T ∧ Only s s' ∧ ¬ IsPipe (s'.ftable f) := by
  refine (filealloc_wp h.files h.ownsFiles).mono ?_
  rintro r s' ⟨hn, hs⟩
  refine ⟨hn, fun f hr => ?_⟩
  obtain ⟨st, hc, hp, -⟩ := hs f hr
  have hcount := count_cons_eq y f
  rw [hc] at hcount
  obtain ⟨hi, ho⟩ := h.fileStep st hcount
  exact ⟨hi, ho, hp⟩

lemma Inv.pipealloc (h : Inv s y H T) : wp pipealloc s fun r s' => Only s s' ∧
    (r = none → Inv s' y H T) ∧ ∀ f₀ f₁, r = some (f₀, f₁) → Inv s' (f₀ ::ₘ f₁ ::ₘ y) H T := by
  refine (pipealloc_wp h.files h.ownsFiles).mono ?_
  rintro r s' ⟨hn, hs⟩
  cases r with
  | none =>
    obtain ⟨hi, ho⟩ := h.fileStep (hn rfl) rfl
    exact ⟨ho, fun _ => hi, by simp⟩
  | some r =>
    obtain ⟨f₀, f₁⟩ := r
    obtain ⟨hne, hc₀, hc₁, st⟩ := hs f₀ f₁ rfl
    have hcount : Function.update (Function.update (fun f => y.count f) f₀ 1) f₁ 1 =
        fun g => (f₀ ::ₘ f₁ ::ₘ y).count g := by
      rw [Multiset.cons_swap, ← count_cons_eq, Multiset.count_cons_of_ne hne.symm, ← count_cons_eq,
        hc₀, hc₁]
    obtain ⟨hi, ho⟩ := h.fileStep st hcount
    refine ⟨ho, by simp, fun g₀ g₁ hr => ?_⟩
    obtain ⟨rfl, rfl⟩ : f₀ = g₀ ∧ f₁ = g₁ := by simpa using hr
    exact hi

def refs (o : Option (Fin NFILE)) : Multiset (Fin NFILE) := o.elim 0 fun f => {f}

omit [Layout] in
lemma fdRefs_congr {mm mm' : Fin n → Mm} (h : ∀ i, (mm' i).ofile = (mm i).ofile) :
    fdRefs mm' = fdRefs mm :=
  Finset.sum_congr rfl fun x _ => by rw [h]

omit [Layout] in
lemma fdRefs_setFd (s : Sys n) (p : Fin n) (fd : Fin NOFILE) (o : Option (Fin NFILE)) :
    fdRefs (s.setFd p fd o).mm + refs ((s.mm p).ofile fd) = fdRefs s.mm + refs o := by
  have hself : (((s.setFd p fd o).mm p).ofile fd) = o := by simp [Sys.setFd, Sys.setMm]
  have hother : ∀ x ∈ Finset.univ.erase (p, fd), refs (((s.setFd p fd o).mm x.1).ofile x.2) =
      refs ((s.mm x.1).ofile x.2) := by
    rintro ⟨i, k⟩ hx
    have hne := (Finset.mem_erase.mp hx).1
    by_cases hi : i = p
    · subst hi
      have hk : k ≠ fd := fun e => hne (by rw [e])
      simp [Sys.setFd, Sys.setMm, hk]
    · simp [Sys.setFd, Sys.setMm, hi]
  calc fdRefs (s.setFd p fd o).mm + refs ((s.mm p).ofile fd)
      = refs o + ∑ x ∈ Finset.univ.erase (p, fd), refs ((s.mm x.1).ofile x.2) +
          refs ((s.mm p).ofile fd) := by
        rw [fdRefs, ← Finset.add_sum_erase _ _ (Finset.mem_univ (p, fd)),
          ← Finset.sum_congr rfl hother, hself]
        rfl
    _ = refs ((s.mm p).ofile fd) + ∑ x ∈ Finset.univ.erase (p, fd), refs ((s.mm x.1).ofile x.2) +
          refs o := by abel
    _ = fdRefs s.mm + refs o := by
        rw [fdRefs, ← Finset.add_sum_erase _ _ (Finset.mem_univ (p, fd))]
        rfl

omit [Layout] in
lemma mem_fdRefs (h : (s.mm p).ofile fd = some f) : f ∈ fdRefs s.mm := by
  refine Multiset.mem_of_le (Finset.single_le_sum (fun _ _ => Multiset.zero_le _)
    (Finset.mem_univ (p, fd))) ?_
  rw [h]
  exact Multiset.mem_singleton_self f

omit [Layout] in
lemma fdRefs_open (h : (s.mm p).ofile fd = none) :
    fdRefs (s.setFd p fd (some f)).mm = f ::ₘ fdRefs s.mm := by
  have := fdRefs_setFd s p fd (some f)
  rw [h] at this
  simpa [refs, add_comm] using this

omit [Layout] in
lemma fdRefs_close (h : (s.mm p).ofile fd = some f) :
    fdRefs s.mm = f ::ₘ fdRefs (s.setFd p fd none).mm := by
  have := fdRefs_setFd s p fd none
  rw [h] at this
  simpa [refs, add_comm] using this.symm

lemma Inv.setFd (h : Inv s y H T) (fd : Fin NOFILE)
    (ho : ¬ ((s.tbl.procs p).state = .UNUSED ∨ (s.tbl.procs p).state = .ZOMBIE) ∨ o = none) :
    Inv (s.setFd p fd o) y H T := by
  have hp : ∀ i, procPages s.vm ((s.setFd p fd o).mm i) = procPages s.vm (s.mm i) := fun i => by
    by_cases e : i = p
    · subst e
      simp only [Sys.setFd, Sys.setMm, update_self, procPages, tablePages, userPages,
        framePages]
    · simp only [Sys.setFd, Sys.setMm, update_of_ne e]
  refine ⟨?_, fun i => ?_, h.files⟩
  · have hsum : ∑ i, procPages s.vm ((s.setFd p fd o).mm i) = ∑ i, procPages s.vm (s.mm i) :=
      Finset.sum_congr rfl fun i _ => hp i
    have := h.owns
    rw [← hsum] at this
    exact this
  · by_cases e : i = p
    · subst e
      obtain ⟨h1, h2, h3, h4, h5⟩ := h.slots i
      simp only [Sys.setFd, Sys.setMm, update_self]
      refine ⟨h1, h2, h3, fun hz k => ?_, h5⟩
      rcases ho with ho | rfl
      · exact absurd hz ho
      · dsimp only
        by_cases hk : k = fd
        · rw [hk, update_self]
        · rw [update_of_ne hk]
          exact h4 hz k
    · simp only [Sys.setFd, Sys.setMm, update_of_ne e]
      exact h.slots i

omit [Layout] in
lemma fdalloc_wp : wp (fdalloc p f) s fun r s' => (r = none → s' = s) ∧
    ∀ fd, r = some fd → s' = s.setFd p fd (some f) ∧ (s.mm p).ofile fd = none := by
  simp only [fdalloc, wp_bind, wp_get]
  cases hs : ProcModel.scan fun fd => (s.mm p).ofile fd = none with
  | none => exact wp_pure.mpr ⟨fun _ => rfl, by simp⟩
  | some fd =>
    simp only [wp_bind, wp_modify, wp_pure]
    refine ⟨by simp, fun fd' hr => ?_⟩
    cases hr
    exact ⟨rfl, by simpa using ProcModel.scan_some hs⟩

/-! ### The process table -/

lemma Inv.setTbl (h : Inv s y H T) {t' : ProcModel.Table n}
    (hu : ∀ i, (t'.procs i).state = .UNUSED ↔ (s.tbl.procs i).state = .UNUSED)
    (hz : ∀ i, (t'.procs i).state = .ZOMBIE →
      (s.tbl.procs i).state = .ZOMBIE ∨ ∀ fd, (s.mm i).ofile fd = none) :
    Inv (s.setTbl t') y H T := by
  refine ⟨h.owns, fun i => ?_, h.files⟩
  obtain ⟨h1, h2, h3, h4, h5⟩ := h.slots i
  refine ⟨h1.trans (hu i).symm, h2, h3, fun hc => ?_, h5⟩
  rcases hc with hc | hc
  · exact h4 (.inl ((hu i).mp hc))
  · rcases hz i hc with hz | hz
    · exact h4 (.inr hz)
    · exact hz

end Xv6.MemInv
