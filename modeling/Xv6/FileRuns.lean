import Mathlib.Algebra.BigOperators.Group.Finset.Piecewise
import Mathlib.Data.Fintype.BigOperators
import Mathlib.Data.Fintype.Prod
import Xv6.FileTable

/-!
Runs of the calls on open files.
-/

namespace Xv6.FileRuns

open Function FileModel FileCounts FileTable Runs
open Params (FdType)
open ProcModel (scan scan_some)

variable {n F D : ℕ} {s t : St n F D} {p q : Fin n} {f g : Fin F} {d : Fin D}

structure Inv (s : St n F D) : Prop where
  refs : Refs s
  procs : Procs s
  pipes : Pipes s
  good : s.bad = false

/-! ### One process, and no end of a pipe -/

lemma Inv.own (h : Inv s) (hr : Refs t) (hlive : (s.proc p).status = .live) {c : Pc F D}
    {o : Fin D → Option (Fin F)}
    (hproc : t.proc = update s.proc p ⟨(s.proc p).status, o, c⟩)
    (hpc : ∀ k i, c ≠ .fork k i) (hp : pcEnd c = pcEnd (s.proc p).pc)
    (hf : ∀ f, fileEnd (t.file f) = fileEnd (s.file f)) (hpipe : t.pipe = s.pipe)
    (hpages : t.pages = s.pages) (hfreed : t.freed = s.freed) (hbad : t.bad = s.bad) : Inv t := by
  have hself : t.proc p = ⟨(s.proc p).status, o, c⟩ := by rw [hproc, update_self]
  have hother : ∀ q, q ≠ p → t.proc q = s.proc q := fun q hq => by
    rw [hproc, update_of_ne hq]
  refine ⟨hr, h.procs.own hlive hother (by rw [hself, hlive]) (by rwa [hself]),
    h.pipes.same hf (fun q => ?_) hpipe hpages hfreed, by rw [hbad, h.good]⟩
  by_cases e : q = p
  · rw [e, hself, hp]
  · rw [hother q e]

lemma Inv.goto (h : Inv s) {c : Pc F D} (hr : Refs (s.goto p c)) (hlive : (s.proc p).status = .live)
    (hpc : ∀ k i, c ≠ .fork k i) (hp : pcEnd c = pcEnd (s.proc p).pc) : Inv (s.goto p c) :=
  h.own hr hlive rfl hpc hp (fun _ => rfl) rfl rfl rfl rfl

lemma Inv.slot (h : Inv s) {c : Pc F D} {v : Option (Fin F)}
    (hr : Refs ((s.setOfile p d v).goto p c)) (hlive : (s.proc p).status = .live)
    (hpc : ∀ k i, c ≠ .fork k i) (hp : pcEnd c = pcEnd (s.proc p).pc) :
    Inv ((s.setOfile p d v).goto p c) :=
  h.own hr hlive (proc_setOfile_goto s p d v c) hpc hp (fun _ => rfl) rfl rfl rfl rfl

lemma Inv.file (h : Inv s) {c : Pc F D} {v : File} (hr : Refs ((s.setFile f v).goto p c))
    (hlive : (s.proc p).status = .live) (hpc : ∀ k i, c ≠ .fork k i)
    (hp : pcEnd c = pcEnd (s.proc p).pc) (hv : fileEnd v = fileEnd (s.file f)) :
    Inv ((s.setFile f v).goto p c) := by
  refine h.own (p := p) hr hlive rfl hpc hp (fun g => ?_) rfl rfl rfl rfl
  change fileEnd (update s.file f v g) = fileEnd (s.file g)
  rw [update_apply]
  split_ifs with e
  · rw [e, hv]
  · rfl

lemma filealloc_some {s' : St n F D} (h : s.filealloc = some (f, s')) :
    (s.file f).ref = 0 ∧ s' = s.setFile f { s.file f with ref := 1 } := by
  obtain ⟨g, hg, he⟩ := Option.map_eq_some_iff.mp h
  cases he
  exact ⟨by simpa using scan_some hg, rfl⟩

lemma Inv.alloc (h : Inv s) {c : Pc F D} (hlive : (s.proc p).status = .live)
    (h0 : (s.file f).ref = 0) (ho : owed c = owed (s.proc p).pc)
    (hi : ∀ g, (inflight c).count g = (inflight (s.proc p).pc).count g + [f].count g)
    (hpl : Placed ⟨(s.proc p).status, (s.proc p).ofile, c⟩)
    (hfr : ∀ g, g ∈ fresh c → g = f ∨ g ∈ fresh (s.proc p).pc) (hio : ∀ d f pi, c ≠ .io d f pi)
    (hpc : ∀ k i, c ≠ .fork k i) (hp : pcEnd c = pcEnd (s.proc p).pc) :
    Inv ((s.setFile f { s.file f with ref := 1 }).goto p c) := by
  refine h.file (h.refs.file (fun g => ?_) (fun _ => h0) (fun h2 => ?_) (fun h1 => ?_) hpl
    (fun g hg => ?_) hio) hlive hpc hp rfl
  · have := hi g
    by_cases e : g = f
    · subst e
      simp only [if_true, h0, ho, this, cont, List.count_singleton_self]
      omega
    · rw [List.count_singleton, if_neg (by simpa using Ne.symm e)] at this
      simp only [e, if_false, ho, this, cont]
      omega
  · omega
  · cases h1
  · by_cases e : g = f
    · exact .inl ⟨e, h.refs.none f h0, rfl⟩
    · exact .inr ⟨e, (hfr g hg).resolve_left e⟩

/-! ### `fileclose` -/

lemma fileclose_eq (h : 1 ≤ (s.file f).ref) :
    (2 ≤ (s.file f).ref ∧
      s.fileclose f = (none, s.setFile f { s.file f with ref := (s.file f).ref - 1 })) ∨
    (s.file f).ref = 1 ∧
      s.fileclose f =
        (some (s.file f), s.setFile f { s.file f with ref := 0, type := .FD_NONE }) := by
  unfold St.fileclose
  rw [if_neg (by omega)]
  by_cases h2 : (s.file f).ref - 1 > 0
  · exact .inl ⟨by omega, by rw [if_pos h2]⟩
  · exact .inr ⟨by omega, by rw [if_neg h2]⟩

/-- A process closes a file that it holds, and then goes on or calls `pipeclose`. -/
def closeThen (s : St n F D) (p : Fin n) (f : Fin F) (c : Pc F D) (k : ℕ → Bool → Pc F D) :
    St n F D :=
  match s.fileclose f with
  | (some ff, s) => if ff.type = .FD_PIPE then s.goto p (k ff.pipe ff.writable) else s.goto p c
  | (none, s) => s.goto p c

lemma Inv.fileclose (h : Inv s) {c : Pc F D} {k : ℕ → Bool → Pc F D}
    (hlive : (s.proc p).status = .live) (hheld : 1 ≤ cont (s.proc p) f)
    (hend : pcEnd (s.proc p).pc = none)
    (hcont : ∀ g, slots (s.proc p).ofile (owed c) g + (inflight c).count g + [f].count g =
      cont (s.proc p) g)
    (hpl : Placed ⟨(s.proc p).status, (s.proc p).ofile, c⟩) (hfr : fresh c = [])
    (hio : ∀ d f pi, c ≠ .io d f pi) (hpc : ∀ k i, c ≠ .fork k i) (hce : pcEnd c = none)
    (hk : ∀ pi w, owed (k pi w) = owed c ∧ inflight (k pi w) = inflight c ∧
      Placed ⟨(s.proc p).status, (s.proc p).ofile, k pi w⟩ ∧ fresh (k pi w) = [] ∧
      (∀ d f i, k pi w ≠ .io d f i) ∧ (∀ j i, k pi w ≠ .fork j i) ∧
      pcEnd (k pi w) = some (pi, w)) : Inv (closeThen s p f c k) := by
  have hone := h.refs.held hheld
  have hone1 : [f].count f = 1 := List.count_singleton_self
  -- the count goes down by the reference that the process gives up
  have hdown : ∀ (c' : Pc F D) (v : File), v.ref + 1 = (s.file f).ref → owed c' = owed c →
      inflight c' = inflight c → ∀ g, (if g = f then v.ref else (s.file g).ref) + cont
        (s.proc p) g =
        (s.file g).ref + (slots (s.proc p).ofile (owed c') g + (inflight c').count g) := by
    intro c' v hv ho hi g
    have := hcont g
    rw [ho, hi]
    by_cases e : g = f
    · subst e
      rw [if_pos rfl]
      omega
    · rw [List.count_singleton, if_neg (by simpa using Ne.symm e)] at this
      rw [if_neg e]
      omega
  unfold closeThen
  rcases fileclose_eq hone with ⟨h2, he⟩ | ⟨h1, he⟩
  · rw [he]
    refine h.file (h.refs.file (hdown c _ ?_ rfl rfl) (fun h0 => ?_) (fun _ => ⟨rfl, rfl⟩)
      (fun h0 => ?_) hpl (fun g hg => ?_) hio) hlive hpc (by rw [hce, hend]) rfl
    · change (s.file f).ref - 1 + 1 = _
      omega
    · omega
    · change (s.file f).ref - 1 = 0 at h0
      omega
    · rw [hfr] at hg
      cases hg
  · rw [he]
    have hrefs : ∀ c', owed c' = owed c → inflight c' = inflight c →
        Placed ⟨(s.proc p).status, (s.proc p).ofile, c'⟩ → fresh c' = [] →
        (∀ d f pi, c' ≠ .io d f pi) →
        Refs ((s.setFile f { s.file f with ref := 0, type := .FD_NONE }).goto p c') := by
      intro c' ho hi hpl' hfr' hio'
      refine h.refs.file (hdown c' _ ?_ ho hi) (fun h0 => ?_) (fun _ => ?_) (fun _ => rfl) hpl'
        (fun g hg => ?_) hio'
      · rw [h1]
      · omega
      · omega
      · rw [hfr'] at hg
        cases hg
    simp only []
    by_cases hty : (s.file f).type = .FD_PIPE
    · obtain ⟨ho, hi, hpl', hfr', hio', hpc', he'⟩ := hk (s.file f).pipe (s.file f).writable
      rw [if_pos hty]
      have hself : ((s.setFile f { s.file f with ref := 0, type := .FD_NONE }).goto p
          (k (s.file f).pipe (s.file f).writable)).proc p =
          ⟨(s.proc p).status, (s.proc p).ofile, k (s.file f).pipe (s.file f).writable⟩ :=
        update_self ..
      have hother : ∀ q, q ≠ p → ((s.setFile f { s.file f with ref := 0, type := .FD_NONE }).goto p
          (k (s.file f).pipe (s.file f).writable)).proc q = s.proc q :=
        fun q hq => update_of_ne hq ..
      refine ⟨hrefs _ ho hi hpl' hfr' hio', h.procs.own hlive hother ?_ ?_,
        h.pipes.handOver (p := p) (f := f) hend rfl rfl hother (by rw [hself]) ?_ rfl rfl rfl,
          h.good⟩
      · rw [hself]
        exact hlive
      · rw [hself]
        exact hpc'
      · rw [he', fileEnd, if_pos hty]
    · rw [if_neg hty]
      refine h.file (hrefs c rfl rfl hpl hfr hio) hlive hpc (by rw [hce, hend]) ?_
      rw [fileEnd, fileEnd, if_neg hty]
      rfl

/-! ### `pipeclose` -/

lemma Inv.pipeclose (h : Inv s) {c : Pc F D} {pi : ℕ} {w : Bool} (hlive : (s.proc p).status = .live)
    (hs : pcEnd (s.proc p).pc = some (pi, w)) (ho : owed c = owed (s.proc p).pc)
    (hi : inflight c = inflight (s.proc p).pc)
    (hpl : Placed ⟨(s.proc p).status, (s.proc p).ofile, c⟩) (hfr : fresh c = [])
    (hio : ∀ d f pi, c ≠ .io d f pi) (hpc : ∀ k i, c ≠ .fork k i) (hce : pcEnd c = none) :
    Inv ((s.pipeclose pi w).goto p c) := by
  have halive := (h.pipes.used (.inr p) pi w hs).1
  rw [pipeclose_eq halive]
  have hgoto : Refs (s.goto p c) :=
    h.refs.goto ho (fun f => by rw [hi]) hpl hfr fun d f pi hx => absurd hx (hio d f pi)
  have hself : (s.goto p c).proc p = ⟨(s.proc p).status, (s.proc p).ofile, c⟩ :=
    update_self ..
  have hother : ∀ q, q ≠ p → (s.goto p c).proc q = s.proc q := fun q hq =>
    update_of_ne hq ..
  refine ⟨hgoto.congr rfl rfl, h.procs.own hlive hother ?_ ?_,
    h.pipes.close (p := p) hs rfl hother ?_ rfl rfl rfl, h.good⟩
  · exact (congrArg Proc.status hself).trans hlive
  · intro k i hx
    exact hpc k i ((congrArg Proc.pc hself).symm.trans hx)
  · exact (congrArg (pcEnd ·.pc) hself).trans hce

lemma Inv.touch_io (h : Inv s) {pi : ℕ} (hpc : (s.proc p).pc = .io d f pi) : s.touch pi = s := by
  obtain ⟨h1, h2⟩ := h.refs.io p d f pi hpc
  have := (h.pipes.used (.inl f) pi (s.file f).writable (by
    change fileEnd (s.file f) = _
    rw [fileEnd, if_pos h1, h2])).1
  rw [St.touch, if_pos this]

/-! ### Children -/

lemma Refs.status (h : Refs s) {st : Status} (hidle : (s.proc p).pc = .idle) :
    Refs (s.setProc p ⟨st, (s.proc p).ofile, .idle⟩) :=
  h.quiet rfl rfl (cont_move (by rw [hidle]) fun f => by rw [hidle]) trivial (by simp [fresh])
    (by simp)

/-- A step of `kfork`: the parent goes to `c`, and its child is as `c` says. -/
lemma Procs.fork (h : Procs s) {child : Fin n} {c : Pc F D} {st : Status}
    (hlive : (s.proc p).status = .live) (hfree : ∀ q j, (s.proc q).pc = .fork child j → q = p)
    (hq : ∀ q, q ≠ p → q ≠ child → t.proc q = s.proc q)
    (hpp : t.proc p = ⟨(s.proc p).status, (s.proc p).ofile, c⟩) {o : Fin D → Option (Fin F)}
    (hcc : t.proc child = ⟨st, o, .idle⟩) (hcs : st = .embryo ∨ st = .live)
    (hc : ∀ k j, c = .fork k j → k = child.val ∧ st = .embryo ∧ ∀ d, j ≤ d.val → o d = none) :
    Procs t := by
  have hfork : ∀ q k j, (t.proc q).pc = .fork k j → q = p ∧ c = .fork k j ∨
      q ≠ p ∧ (s.proc q).pc = .fork k j := by
    intro q k j hx
    by_cases e : q = p
    · rw [e, hpp] at hx
      exact .inl ⟨e, hx⟩
    · by_cases e' : q = child
      · rw [e', hcc] at hx
        cases hx
      · rw [hq q e e'] at hx
        exact .inr ⟨e, hx⟩
  obtain ⟨g1, g2, g3, g4⟩ := h
  constructor
  · intro q hx
    by_cases e : q = p
    · rw [e, hpp] at hx
      exact absurd hlive hx
    · by_cases e' : q = child
      · rw [e', hcc]
      · rw [hq q e e'] at hx ⊢
        exact g1 q hx
  · intro q hx
    by_cases e : q = p
    · rw [e, hpp, hlive] at hx
      simp at hx
    · by_cases e' : q = child
      · rw [e', hcc] at hx
        rcases hcs with rfl | rfl <;> simp at hx
      · rw [hq q e e'] at hx ⊢
        exact g2 q hx
  · intro q k j hx
    rcases hfork q k j hx with ⟨-, h2⟩ | ⟨h2, h3⟩
    · obtain ⟨h4, h5⟩ := hc k j h2
      exact ⟨child, h4.symm, by rwa [hcc]⟩
    · obtain ⟨r, h4, h5, h6⟩ := g3 q k j h3
      have h7 : r ≠ p := by
        rintro rfl
        rw [hlive] at h5
        cases h5
      have h8 : r ≠ child := by
        rintro rfl
        rw [← h4] at h3
        exact h2 (hfree q j h3)
      refine ⟨r, h4, ?_⟩
      rw [hq r h7 h8]
      exact ⟨h5, h6⟩
  · intro q r k i j hx hy
    rcases hfork q k i hx with ⟨h2, h3⟩ | ⟨h2, h3⟩ <;>
    rcases hfork r k j hy with ⟨h4, h5⟩ | ⟨h4, h5⟩
    · rw [h2, h4]
    · rw [(hc k i h3).1] at h5
      exact absurd (hfree r j h5) h4
    · rw [(hc k j h5).1] at h3
      exact absurd (hfree q i h3) h2
    · exact g4 q r k i j h3 h5

lemma Inv.fork (h : Inv s) {child : Fin n} {c : Pc F D} {st : Status} {o : Fin D → Option (Fin F)}
    (hr : Refs t) (hlive : (s.proc p).status = .live)
    (hfree : ∀ q j, (s.proc q).pc = .fork child j → q = p) (hidle : (s.proc child).pc = .idle)
    (hne : p ≠ child)
    (hproc : t.proc = update (update s.proc child ⟨st, o, .idle⟩) p
      ⟨(s.proc p).status, (s.proc p).ofile, c⟩) (hcs : st = .embryo ∨ st = .live)
    (hc : ∀ k j, c = .fork k j → k = child.val ∧ st = .embryo ∧ ∀ d, j ≤ d.val → o d = none)
    (hpe : pcEnd c = pcEnd (s.proc p).pc) (hf : ∀ f, fileEnd (t.file f) = fileEnd (s.file f))
    (hpipe : t.pipe = s.pipe) (hpages : t.pages = s.pages) (hfreed : t.freed = s.freed)
    (hbad : t.bad = s.bad) : Inv t := by
  have hpp : t.proc p = ⟨(s.proc p).status, (s.proc p).ofile, c⟩ := by
    rw [hproc, update_self]
  have hcc : t.proc child = ⟨st, o, .idle⟩ := by
    rw [hproc, update_of_ne hne.symm, update_self]
  have hq : ∀ q, q ≠ p → q ≠ child → t.proc q = s.proc q := fun q h1 h2 => by
    rw [hproc, update_of_ne h1, update_of_ne h2]
  refine ⟨hr, Procs.fork h.procs hlive hfree hq hpp hcc hcs hc,
    h.pipes.same hf (fun q => ?_) hpipe hpages hfreed, by rw [hbad, h.good]⟩
  by_cases e : q = p
  · rw [e, hpp, hpe]
  · by_cases e' : q = child
    · rw [e', hcc, hidle]
    · rw [hq q e e']

lemma Inv.forkStart (h : Inv s) {child : Fin n} (hp : ready s p)
    (hc : (s.proc child).status = .unused) :
    Inv ((s.setProc child { s.proc child with status := .embryo, pc := .idle }).goto p
      (.fork child 0)) := by
  obtain ⟨hlive, hidle⟩ := hp
  have hne : p ≠ child := by
    rintro rfl
    rw [hlive] at hc
    cases hc
  have hcidle := h.procs.idle child (by rw [hc]; simp)
  have hnone := h.procs.empty child (.inl hc)
  have h1 : Refs (s.setProc child ⟨.embryo, (s.proc child).ofile, .idle⟩) :=
    Refs.status h.refs hcidle
  have hat : (s.setProc child ⟨.embryo, (s.proc child).ofile, .idle⟩).proc p = s.proc p :=
    update_of_ne hne ..
  have hr := h1.goto (p := p) (c := .fork child 0) (by rw [hat, hidle]; rfl)
    (fun f => by rw [hat, hidle]; rfl) trivial rfl (by simp)
  refine h.fork hr hlive (fun q j hx => ?_) hcidle hne (by rw [proc_goto, hat]; rfl) (.inl rfl)
    (fun k j hx => ?_) (by rw [hidle]; rfl) (fun _ => rfl) rfl rfl rfl rfl
  · -- the child is new, so nobody has it
    obtain ⟨r, hr, hs, -⟩ := h.procs.child q _ j hx
    rw [Fin.ext hr, hc] at hs
    cases hs
  · cases hx
    exact ⟨rfl, rfl, fun d _ => hnone d⟩

lemma filedup_eq (h : 1 ≤ (s.file f).ref) :
    s.filedup f = s.setFile f { s.file f with ref := (s.file f).ref + 1 } := by
  rw [St.filedup, if_neg (by omega)]

lemma Refs.forkCopy (h : Refs s) {child : Fin n} (hchild : (s.proc child).pc = .idle)
    (hnone : (s.proc child).ofile d = none) (hfr : fresh (s.proc p).pc = [])
    (hheld : 1 ≤ cont (s.proc p) f) :
    Refs ((s.setFile f { s.file f with ref := (s.file f).ref + 1 }).setOfile child d (some f)) := by
  have hself : ((s.setFile f { s.file f with ref := (s.file f).ref + 1 }).setOfile child d
      (some f)).proc child = ⟨(s.proc child).status,
        update (s.proc child).ofile d (some f),
        (s.proc child).pc⟩ := update_self ..
  have hfile : ∀ g, ((s.setFile f { s.file f with ref := (s.file f).ref + 1 }).setOfile child d
      (some f)).file g = if g = f then { s.file f with ref := (s.file f).ref + 1 } else s.file g :=
    fun g => update_apply ..
  refine h.change (p := child) ⟨fun q hq => update_of_ne hq .., fun g => ?_,
    fun q g hq hg => ?_, fun q e g pi _ _ => ?_, fun g h0 => ?_, ?_, fun g hg => ?_,
      fun e g pi hx => ?_⟩
  · rw [hself, hfile]
    simp only [cont, hchild, owed, inflight, List.count_nil, add_zero]
    rw [slots_none _ d, slots_none (update _ _ _) d, slots_update, hnone,
      update_self]
    by_cases e : g = f
    · subst e
      simp
      omega
    · simp [e, Ne.symm e]
  · rw [hfile, if_neg]
    rintro rfl
    by_cases e : q = p
    · rw [e, hfr] at hg
      cases hg
    · have := h.alone hg (Ne.symm e)
      omega
  · rw [hfile]
    split_ifs with e
    · rw [e]
      exact ⟨rfl, rfl⟩
    · exact ⟨rfl, rfl⟩
  · rw [hfile] at h0 ⊢
    by_cases e : g = f
    · rw [if_pos e] at h0
      exact absurd h0 (Nat.succ_ne_zero _)
    · rw [if_neg e] at h0 ⊢
      exact h.none g h0
  · rw [hself, hchild]
    trivial
  · rw [hself, hchild] at hg
    cases hg
  · rw [hself, hchild] at hx
    cases hx

lemma Inv.forking (h : Inv s) {child : Fin n} {i : ℕ} (hpc : (s.proc p).pc = .fork child i) :
    (s.proc p).status = .live ∧ p ≠ child ∧ (s.proc child).status = .embryo ∧
      (s.proc child).pc = .idle ∧ (∀ d, i ≤ d.val → (s.proc child).ofile d = none) ∧
      ∀ q j, (s.proc q).pc = .fork child j → q = p := by
  have hlive := h.procs.live (p := p) (by rw [hpc]; simp)
  obtain ⟨r, hr, hcs, hcd⟩ := h.procs.child p child i hpc
  obtain rfl := Fin.ext hr
  refine ⟨hlive, ?_, hcs, h.procs.idle r (by rw [hcs]; simp), hcd,
    fun q j hq => h.procs.parent q p r j i hq hpc⟩
  rintro rfl
  rw [hlive] at hcs
  cases hcs

lemma Inv.forkSkip (h : Inv s) {child : Fin n} {i : ℕ} (hpc : (s.proc p).pc = .fork child i) :
    Inv (s.goto p (.fork child (i + 1))) := by
  obtain ⟨hlive, hne, hcs, hcpc, hcd, hfree⟩ := h.forking hpc
  have hr := h.refs.goto (p := p) (c := .fork child (i + 1)) (by rw [hpc]; rfl)
    (fun f => by rw [hpc]; rfl) trivial rfl (by simp)
  have hcc : s.proc child = ⟨.embryo, (s.proc child).ofile, .idle⟩ := by rw [← hcs, ← hcpc]
  refine h.fork (c := .fork child (i + 1)) (o := (s.proc child).ofile) hr hlive hfree hcpc hne ?_
    (.inl rfl) (fun k j hx => ?_) (by rw [hpc]; rfl) (fun _ => rfl) rfl rfl rfl rfl
  · rw [← hcc, update_eq_self, proc_goto]
  · cases hx
    exact ⟨rfl, rfl, fun d hd => hcd d (by omega)⟩

lemma Inv.forkCopy (h : Inv s) {child : Fin n} {i : ℕ} (hpc : (s.proc p).pc = .fork child i)
    (hi : i < D) (hf : (s.proc p).ofile ⟨i, hi⟩ = some f) :
    Inv (((s.filedup f).setOfile child ⟨i, hi⟩ (some f)).goto p (.fork child (i + 1))) := by
  obtain ⟨hlive, hne, hcs, hcpc, hcd, hfree⟩ := h.forking hpc
  have hheld : 1 ≤ cont (s.proc p) f := cont_slot hf (by rw [hpc]; simp [owed])
  rw [filedup_eq (h.refs.held hheld)]
  have h1 := Refs.forkCopy h.refs hcpc (hcd ⟨i, hi⟩ le_rfl) (by rw [hpc]; rfl) hheld
  have hat : ((s.setFile f { s.file f with ref := (s.file f).ref + 1 }).setOfile child ⟨i, hi⟩
      (some f)).proc p = s.proc p := update_of_ne hne ..
  have hr := h1.goto (p := p) (c := .fork child (i + 1)) (by rw [hat, hpc]; rfl)
    (fun f => by rw [hat, hpc]; rfl) trivial rfl (by simp)
  refine h.fork hr hlive hfree hcpc hne (by rw [proc_goto, hat, ← hcpc]; rfl) (.inl hcs)
    (fun k j hx => ?_) (by rw [hpc]; rfl) (fun g => ?_) rfl rfl rfl rfl
  · cases hx
    refine ⟨rfl, hcs, fun d hd => ?_⟩
    change update (s.proc child).ofile ⟨i, hi⟩ (some f) d = none
    rw [update_of_ne]
    · exact hcd d (by omega)
    · rintro rfl
      change i + 1 ≤ i at hd
      omega
  · change fileEnd (update s.file f _ g) = _
    rw [update_apply]
    split_ifs with e
    · rw [e]
      rfl
    · rfl

lemma Inv.forkEnd (h : Inv s) {child : Fin n} {i : ℕ} (hpc : (s.proc p).pc = .fork child i) :
    Inv ((s.setProc child { s.proc child with status := .live }).goto p .idle) := by
  obtain ⟨hlive, hne, hcs, hcpc, hcd, hfree⟩ := h.forking hpc
  have h1 : Refs (s.setProc child ⟨.live, (s.proc child).ofile, .idle⟩) := Refs.status h.refs hcpc
  have heq : ({ s.proc child with status := .live } : Proc F D) =
      ⟨.live, (s.proc child).ofile, .idle⟩ := by
    rw [← hcpc]
  rw [heq]
  have hat : (s.setProc child ⟨.live, (s.proc child).ofile, .idle⟩).proc p = s.proc p :=
    update_of_ne hne ..
  have hr := h1.goto (p := p) (c := .idle) (by rw [hat, hpc]; rfl)
    (fun f => by rw [hat, hpc]; rfl) trivial rfl (by simp)
  exact h.fork hr hlive hfree hcpc hne (by rw [proc_goto, hat]; rfl) (.inr rfl)
    (fun k j hx => by cases hx) (by rw [hpc]; rfl) (fun _ => rfl) rfl rfl rfl rfl

lemma Inv.forkOne (h : Inv s) {child : Fin n} {i : ℕ} (hpc : (s.proc p).pc = .fork child i) :
    Inv (s.forkOne p child i) := by
  unfold St.forkOne
  split_ifs with hi
  · split
    · exact h.forkSkip hpc
    · rename_i f hf
      exact h.forkCopy hpc hi hf
  · exact h.forkEnd hpc

/-! ### The end of a process -/

lemma Inv.status (h : Inv s) {st : Status} (hpc : pcEnd (s.proc p).pc = none)
    (hemb : (s.proc p).status ≠ .embryo)
    (hr : Refs (s.setProc p ⟨st, (s.proc p).ofile, .idle⟩))
      (hnone : ∀ d, (s.proc p).ofile d = none) :
    Inv (s.setProc p ⟨st, (s.proc p).ofile, .idle⟩) := by
  have hself : (s.setProc p ⟨st, (s.proc p).ofile, .idle⟩).proc p = ⟨st, (s.proc p).ofile, .idle⟩ :=
    update_self ..
  have hother : ∀ q, q ≠ p → (s.setProc p ⟨st, (s.proc p).ofile, .idle⟩).proc q = s.proc q :=
    fun q hq => update_of_ne hq ..
  refine ⟨hr, ?_, h.pipes.same (fun _ => rfl) (fun q => ?_) rfl rfl rfl, h.good⟩
  · generalize s.setProc p ⟨st, (s.proc p).ofile, .idle⟩ = t at hself hother
    have hpcs : ∀ q c i, (t.proc q).pc = .fork c i → (s.proc q).pc = .fork c i := by
      intro q c i hx
      have e : q ≠ p := by
        rintro rfl
        rw [hself] at hx
        cases hx
      rwa [hother q e] at hx
    obtain ⟨g1, g2, g3, g4⟩ := h.procs
    refine ⟨fun q hx => ?_, fun q hx => ?_, fun q c i hx => ?_, fun q r c i j hx hy => ?_⟩
    · by_cases e : q = p
      · rw [e, hself]
      · rw [hother q e] at hx ⊢
        exact g1 q hx
    · by_cases e : q = p
      · rw [e, hself]
        exact hnone
      · rw [hother q e] at hx ⊢
        exact g2 q hx
    · obtain ⟨r, h1, h2, h3⟩ := g3 q c i (hpcs q c i hx)
      have e : r ≠ p := by
        rintro rfl
        exact hemb h2
      refine ⟨r, h1, ?_⟩
      rw [hother r e]
      exact ⟨h2, h3⟩
    · exact g4 q r c i j (hpcs q c i hx) (hpcs r c j hy)
  · by_cases e : q = p
    · rw [e, hself, hpc]
      rfl
    · rw [hother q e]

lemma Inv.exitOne (h : Inv s) {i : ℕ} (hpc : (s.proc p).pc = .exit i) : Inv (s.exitOne p i) := by
  have hlive := h.procs.live (p := p) (by rw [hpc]; simp)
  have hbelow : ∀ d, d.val < i → (s.proc p).ofile d = none := by
    have := h.refs.placed p
    rwa [Placed, hpc] at this
  have hcont : ∀ g, cont (s.proc p) g = slots (s.proc p).ofile none g := by
    intro g
    simp only [cont, hpc, owed, inflight, List.count_nil, add_zero]
  unfold St.exitOne
  split_ifs with hi
  · split
    · rename_i hnone
      refine h.goto (h.refs.goto (by rw [hpc]; rfl) (fun f => by rw [hpc]; rfl) ?_ rfl
        (by simp)) hlive (by simp) (by rw [hpc]; rfl)
      intro d hd
      rcases Nat.lt_succ_iff_lt_or_eq.mp hd with h1 | h1
      · exact hbelow d h1
      · obtain rfl : d = ⟨i, hi⟩ := Fin.ext h1
        exact hnone
    · rename_i f hf
      change Inv (closeThen s p f (.exitClear ⟨i, hi⟩) (.exitPipe ⟨i, hi⟩))
      refine h.fileclose hlive (cont_slot hf (by rw [hpc]; simp [owed])) (by rw [hpc]; rfl)
        (fun g => ?_) (fun d hd => hbelow d hd) rfl (by simp)
        (by simp) rfl fun pi w => ⟨rfl, rfl, fun d hd => hbelow d hd, rfl,
          fun d f i => by simp, fun j i => by simp, rfl⟩
      rw [hcont, slots_none _ ⟨i, hi⟩, hf, List.count_singleton]
      simp only [owed, inflight, List.count_nil, add_zero, Option.some.injEq, beq_iff_eq]
  · have hall : ∀ d, (s.proc p).ofile d = none := fun d => hbelow d (by omega)
    have hr : Refs (s.goto p .idle) := h.refs.goto (by rw [hpc]; rfl)
      (fun f => by rw [hpc]; rfl) trivial rfl (by simp)
    have h1 : Refs ((s.goto p .idle).setProc p ⟨.zombie, ((s.goto p .idle).proc p).ofile, .idle⟩) :=
      Refs.status hr (by rw [proc_goto, update_self])
    refine h.status (by rw [hpc]; rfl) (by rw [hlive]; simp) ?_ hall
    refine h1.congr rfl ?_
    simp [St.goto, St.setProc]

/-! ### Steps of calls -/

lemma cont_eq (hpc : owed (s.proc p).pc = none) (g : Fin F) :
    cont (s.proc p) g = slots (s.proc p).ofile none g + (inflight (s.proc p).pc).count g := by
  rw [cont, hpc]

lemma slots_fill {o : Fin D → Option (Fin F)} (h : o d = none) (f g : Fin F) :
    slots (update o d (some f)) none g = slots o none g + [f].count g := by
  rw [slots_none _ d, slots_none o d, slots_update, h, update_self, List.count_singleton]
  simp

lemma slots_clear {o : Fin D → Option (Fin F)} (h : o d = some f) (g : Fin F) :
    slots (update o d none) none g + [f].count g = slots o none g := by
  rw [slots_none _ d, slots_none o d, slots_update, h, update_self, List.count_singleton]
  simp

lemma Inv.giveUp (h : Inv s) (hne : (s.proc p).pc ≠ .idle) (ho : owed (s.proc p).pc = none)
    (he : pcEnd (s.proc p).pc = none) : Inv (s.goto p (.closing (inflight (s.proc p).pc))) :=
  h.goto (h.refs.goto (by rw [ho]; rfl) (fun f => rfl) trivial rfl (by simp))
    (h.procs.live hne) (by simp) (by rw [he]; rfl)

lemma Inv.goIdle (h : Inv s) (hne : (s.proc p).pc ≠ .idle) (ho : owed (s.proc p).pc = none)
    (hi : inflight (s.proc p).pc = []) (he : pcEnd (s.proc p).pc = none) : Inv (s.goto p .idle) :=
  h.goto (h.refs.goto (by rw [ho]; rfl) (fun f => by rw [hi]; rfl) trivial rfl
    (by simp)) (h.procs.live hne) (by simp) (by rw [he]; rfl)

lemma Inv.openFd (h : Inv s) {ty : FdType} {w : Bool} (hpc : (s.proc p).pc = .openFd f ty w)
    (hd : s.fdalloc p = some d) :
    Inv ((s.setOfile p d (some f)).goto p (.openSet f d ty w)) := by
  have hty : ty ≠ .FD_PIPE := by
    have := h.refs.placed p
    rwa [Placed, hpc] at this
  refine h.slot (h.refs.slot (fun g => ?_) ⟨update_self .., hty⟩ (fun g hg => ?_)
    (by simp)) (h.procs.live (by rw [hpc]; simp)) (by simp)
    (by rw [hpc]; rfl)
  · rw [cont_eq (by rw [hpc]; rfl), hpc]
    exact slots_fill (fdalloc_some hd) f g
  · rw [hpc]
    exact hg

lemma Inv.openSet (h : Inv s) {ty : FdType} {w : Bool} (hpc : (s.proc p).pc = .openSet f d ty w) :
    Inv ((s.setFile f { s.file f with type := ty, writable := w }).goto p .idle) := by
  obtain ⟨h1, h2⟩ := h.refs.filling p f (by rw [hpc]; simp [fresh])
  have hpl : (s.proc p).ofile d = some f ∧ ty ≠ .FD_PIPE := by
    have := h.refs.placed p
    rwa [Placed, hpc] at this
  have hheld : 1 ≤ cont (s.proc p) f := cont_slot hpl.1 (by rw [hpc]; simp [owed])
  refine h.file (h.refs.file (fun g => ?_) (fun h0 => ?_) (fun h3 => ?_) (fun h0 => ?_) trivial
    (fun g hg => ?_) (by simp)) (h.procs.live (by rw [hpc]; simp))
    (by simp) (by rw [hpc]; rfl) ?_
  · rw [cont_eq (by rw [hpc]; rfl), hpc]
    split_ifs with e
    · rw [e]
      rfl
    · rfl
  · omega
  · omega
  · change (s.file f).ref = 0 at h0
    omega
  · cases hg
  · simp [fileEnd, h1, hpl.2]

lemma Inv.dup (h : Inv s) (hpc : (s.proc p).pc = .dup f d) : Inv ((s.filedup f).goto p .idle) := by
  obtain ⟨hd, d', hne, hd'⟩ : (s.proc p).ofile d = some f ∧ ∃ d',
    d' ≠ d ∧ (s.proc p).ofile d' = some f := by
    have := h.refs.placed p
    rwa [Placed, hpc] at this
  have hheld : 1 ≤ cont (s.proc p) f := cont_slot hd' (by rw [hpc]; simpa [owed] using hne)
  rw [filedup_eq (h.refs.held hheld)]
  refine h.file (h.refs.file (fun g => ?_) (fun h0 => ?_) (fun _ => ⟨rfl, rfl⟩)
    (fun h0 => absurd h0 (Nat.succ_ne_zero _)) trivial
      (fun g hg => ?_) (by simp))
    (h.procs.live (by rw [hpc]; simp)) (by simp) (by rw [hpc]; rfl) rfl
  · simp only [cont, hpc, owed, inflight, List.count_nil, add_zero]
    rw [slots_none _ d, hd]
    by_cases e : g = f
    · subst e
      simp
      omega
    · simp [e, Ne.symm e]
  · omega
  · cases hg

lemma Refs.pipe2_ne (h : Refs s) {f0 f1 : Fin F} (hpc : (s.proc p).pc = .pipe2 f0 f1) :
    f0 ≠ f1 := by
  rintro rfl
  have h1 := (h.filling p f0 (by rw [hpc]; simp [fresh])).2
  have h2 := cont_le_sum s.proc p f0
  rw [← h.refs f0, h1, cont, hpc] at h2
  simp [inflight] at h2

lemma Inv.pipe2 (h : Inv s) {f0 f1 : Fin F} (hpc : (s.proc p).pc = .pipe2 f0 f1) :
    Inv ((s.pipefill f0 f1).goto p (.pipe3 f0 f1)) := by
  have hne := Refs.pipe2_ne h.refs hpc
  have hlive := h.procs.live (p := p) (by rw [hpc]; simp)
  obtain ⟨h1, h2⟩ := h.refs.filling p f0 (by rw [hpc]; simp [fresh])
  obtain ⟨h3, h4⟩ := h.refs.filling p f1 (by rw [hpc]; simp [fresh])
  have hself : ((s.pipefill f0 f1).goto p (.pipe3 f0 f1)).proc p =
      ⟨(s.proc p).status, (s.proc p).ofile, .pipe3 f0 f1⟩ := update_self ..
  have hother : ∀ q, q ≠ p → ((s.pipefill f0 f1).goto p (.pipe3 f0 f1)).proc q = s.proc q :=
    fun q hq => update_of_ne hq ..
  have hf0 : ((s.pipefill f0 f1).goto p (.pipe3 f0 f1)).file f0 =
      ⟨(s.file f0).ref, .FD_PIPE, false, s.pages⟩ :=
    (update_of_ne hne ..).trans (update_self ..)
  have hf1 : ((s.pipefill f0 f1).goto p (.pipe3 f0 f1)).file f1 =
      ⟨(s.file f1).ref, .FD_PIPE, true, s.pages⟩ := by
    refine (update_self ..).trans ?_
    change File.mk (update s.file f0 _ f1).ref _ _ _ = _
    rw [update_of_ne (Ne.symm hne)]
  have hf : ∀ f, f ≠ f0 → f ≠ f1 → ((s.pipefill f0 f1).goto p (.pipe3 f0 f1)).file f = s.file f :=
    fun f e0 e1 => (update_of_ne e1 ..).trans (update_of_ne e0 ..)
  refine ⟨h.refs.change (p := p)
    ⟨hother, fun f => ?_, fun q f hq hfr => ?_, fun q e f pi hq hio => ?_,
    fun f h0 => ?_, ?_, fun f hfr => ?_, fun e f pi hx => ?_⟩, h.procs.own hlive hother ?_ ?_,
    h.pipes.fill hne ?_ ?_ ?_ ?_ hf (fun q => ?_) rfl rfl rfl, h.good⟩
  · rw [hself]
    have : (((s.pipefill f0 f1).goto p (.pipe3 f0 f1)).file f).ref = (s.file f).ref := by
      by_cases e0 : f = f0
      · rw [e0, hf0]
      · by_cases e1 : f = f1
        · rw [e1, hf1]
        · rw [hf f e0 e1]
    rw [this]
    simp only [cont, hpc, owed, inflight]
  · have h5 := h.refs.alone hfr (Ne.symm hq)
    have hheld : ∀ g, g = f0 ∨ g = f1 → 1 ≤ cont (s.proc p) g := fun g hg =>
      cont_fresh (h.refs.placed p) (by rw [hpc]; simpa [fresh] using hg)
    refine hf f ?_ ?_
    · rintro rfl
      have := hheld f (.inl rfl)
      omega
    · rintro rfl
      have := hheld f (.inr rfl)
      omega
  · obtain ⟨h5, -⟩ := h.refs.io q e f pi hio
    rw [hf f]
    · exact ⟨rfl, rfl⟩
    · rintro rfl
      rw [h1] at h5
      cases h5
    · rintro rfl
      rw [h3] at h5
      cases h5
  · by_cases e0 : f = f0
    · rw [e0, hf0] at h0
      change (s.file f0).ref = 0 at h0
      omega
    · by_cases e1 : f = f1
      · rw [e1, hf1] at h0
        change (s.file f1).ref = 0 at h0
        omega
      · rw [hf f e0 e1] at h0 ⊢
        exact h.refs.none f h0
  · rw [hself]
    trivial
  · rw [hself] at hfr
    cases hfr
  · rw [hself] at hx
    cases hx
  · rw [hself]
    exact hlive
  · rw [hself]
    intro k i hx
    cases hx
  · simp [fileEnd, h1]
  · simp [fileEnd, h3]
  · rw [hf0]
    rfl
  · rw [hf1]
    rfl
  · by_cases e : q = p
    · rw [e, hself, hpc]
      rfl
    · rw [hother q e]

lemma goto_goto (s : St n F D) (p : Fin n) (c c' : Pc F D) :
    (s.goto p c).goto p c' = s.goto p c' := by
  simp [St.goto, St.setProc]

lemma setOfile_goto (s : St n F D) (p : Fin n) (d : Fin D) (v : Option (Fin F)) (c : Pc F D) :
    (s.goto p c).setOfile p d v = (s.setOfile p d v).goto p c := by
  simp [St.goto, St.setProc, St.setOfile]

lemma Inv.slot2 (h : Inv s) {fd0 fd1 : Fin D} {v0 v1 : Option (Fin F)} {c : Pc F D}
    {l : List (Fin F)} (hlive : (s.proc p).status = .live) (he : pcEnd (s.proc p).pc = none)
    (h0 : ∀ g, slots (update (s.proc p).ofile fd0 v0) none g + l.count g =
      cont (s.proc p) g)
    (h1 : ∀ g, slots (update (update (s.proc p).ofile fd0 v0) fd1 v1) (owed c) g +
      (inflight c).count g = slots (update (s.proc p).ofile fd0 v0) none g + l.count g)
    (hpl : Placed ⟨(s.proc p).status,
      update (update (s.proc p).ofile fd0 v0) fd1 v1, c⟩) (hfr : fresh c = [])
    (hio : ∀ d f pi, c ≠ .io d f pi) (hpc : ∀ k i, c ≠ .fork k i) (hce : pcEnd c = none) :
    Inv (((s.setOfile p fd0 v0).setOfile p fd1 v1).goto p c) := by
  have ha : Inv ((s.setOfile p fd0 v0).goto p (.closing l)) :=
    h.slot (h.refs.slot h0 trivial (by simp [fresh]) (by simp)) hlive
      (by simp) (by rw [he]; rfl)
  have hself : ((s.setOfile p fd0 v0).goto p (.closing l)).proc p =
      ⟨(s.proc p).status, update (s.proc p).ofile fd0 v0, .closing l⟩ := by
    rw [proc_setOfile_goto, update_self]
  have hb := ha.slot (d := fd1) (v := v1) (c := c) (p := p) (ha.refs.slot (fun g => ?_) ?_
    (fun f hf => ?_) hio) (by rw [hself]; exact hlive) hpc (by rw [hself, hce]; rfl)
  · rwa [setOfile_goto, goto_goto] at hb
  · rw [hself]
    exact h1 g
  · rw [hself]
    exact hpl
  · rw [hfr] at hf
    cases hf

lemma Inv.go (h : Inv s) {ok : Bool} (hstep : s.go p ok = some t) : Inv t := by
  unfold St.go at hstep
  have hlive : (s.proc p).pc ≠ .idle → (s.proc p).status = .live := h.procs.live
  split at hstep
  case h_1 => cases hstep
  case h_2 f ty w hpc =>
    split at hstep <;> cases hstep
    · rename_i d hd
      exact h.openFd hpc hd
    · have := h.giveUp (p := p) (by rw [hpc]; simp) (by rw [hpc]; rfl) (by rw [hpc]; rfl)
      rwa [hpc] at this
  case h_3 f d ty w hpc =>
    cases hstep
    exact h.openSet hpc
  case h_4 f d hpc =>
    cases hstep
    exact h.dup hpc
  case h_5 f0 hpc =>
    split at hstep <;> cases hstep
    · rename_i f1 s' hs
      obtain ⟨h0, rfl⟩ := filealloc_some hs
      refine h.alloc (hlive (by rw [hpc]; simp)) h0 (by rw [hpc]; rfl) (fun g => ?_) trivial
        (fun g hg => ?_) (by simp) (by simp)
          (by rw [hpc]; rfl)
      · rw [hpc]
        simp only [inflight, List.count_cons, List.count_nil, zero_add, add_comm]
      · rw [hpc]
        simpa [fresh, or_comm] using hg
    · have := h.giveUp (p := p) (by rw [hpc]; simp) (by rw [hpc]; rfl) (by rw [hpc]; rfl)
      rwa [hpc] at this
  case h_6 f0 f1 hpc =>
    split at hstep <;> cases hstep
    · exact h.pipe2 hpc
    · have := h.giveUp (p := p) (by rw [hpc]; simp) (by rw [hpc]; rfl) (by rw [hpc]; rfl)
      rwa [hpc] at this
  case h_7 rf wf hpc =>
    have hgive := h.giveUp (p := p) (by rw [hpc]; simp) (by rw [hpc]; rfl) (by rw [hpc]; rfl)
    rw [hpc] at hgive
    split at hstep
    · cases hstep
      exact hgive
    · rename_i fd0 hd0
      simp only [] at hstep
      split at hstep <;> cases hstep
      · rename_i fd1 hd1
        have h0 := fdalloc_some hd0
        have h1 : update (s.proc p).ofile fd0 (some rf) fd1 = none := by
          have := fdalloc_some hd1
          simpa only [St.setOfile, St.setProc, update_self] using this
        have hne : fd0 ≠ fd1 := by
          rintro rfl
          rw [update_self] at h1
          cases h1
        refine h.slot2 (l := [wf]) (hlive (by rw [hpc]; simp)) (by rw [hpc]; rfl) (fun g => ?_)
          (fun g => ?_) ⟨hne, ?_, update_self ..⟩ rfl (by simp)
          (by simp) rfl
        · rw [cont_eq (by rw [hpc]; rfl), hpc, slots_fill h0]
          simp only [inflight, List.count_cons, List.count_nil, zero_add]
          omega
        · exact slots_fill h1 wf g
        · exact (update_of_ne hne ..).trans (update_self ..)
      · exact hgive
  case h_8 rf wf fd0 fd1 hpc =>
    split at hstep <;> cases hstep
    · exact h.goIdle (by rw [hpc]; simp) (by rw [hpc]; rfl) (by rw [hpc]; rfl) (by rw [hpc]; rfl)
    · obtain ⟨hne, h0, h1⟩ : fd0 ≠ fd1 ∧ (s.proc p).ofile fd0 = some rf ∧
          (s.proc p).ofile fd1 = some wf := by
        have := h.refs.placed p
        rwa [Placed, hpc] at this
      refine h.slot2 (l := [rf]) (hlive (by rw [hpc]; simp)) (by rw [hpc]; rfl) (fun g => ?_)
        (fun g => ?_) trivial rfl (by simp) (by simp) rfl
      · rw [cont_eq (by rw [hpc]; rfl), hpc]
        exact slots_clear h0 g
      · have h2 : update (s.proc p).ofile fd0 none fd1 = some wf := by
          rw [update_of_ne (Ne.symm hne), h1]
        rw [← slots_clear h2 g]
        simp only [owed, inflight, List.count_cons, List.count_nil, zero_add]
        omega
  case h_9 hpc =>
    cases hstep
    exact h.goIdle (by rw [hpc]; simp) (by rw [hpc]; rfl) (by rw [hpc]; rfl) (by rw [hpc]; rfl)
  case h_10 f l hpc =>
    cases hstep
    change Inv (closeThen s p f (.closing l) fun pi w => .pclose pi w l)
    have hcont : ∀ g, cont (s.proc p) g = slots (s.proc p).ofile none g + (f :: l).count g := by
      intro g
      rw [cont_eq (by rw [hpc]; rfl), hpc]
      rfl
    refine h.fileclose (hlive (by rw [hpc]; simp)) ?_ (by rw [hpc]; rfl) (fun g => ?_) trivial rfl
      (by simp) (by simp) rfl fun pi w =>
        ⟨rfl, rfl, trivial, rfl, fun d f i => by simp, fun j i => by simp, rfl⟩
    · rw [hcont, List.count_cons_self]
      omega
    · rw [hcont]
      simp only [owed, inflight, List.count_cons, List.count_nil, zero_add]
      omega
  case h_11 pi w l hpc =>
    cases hstep
    exact h.pipeclose (hlive (by rw [hpc]; simp)) (by rw [hpc]; rfl) (by rw [hpc]; rfl)
      (by rw [hpc]; rfl) trivial rfl (by simp) (by simp) rfl
  case h_12 d f pi hpc =>
    cases hstep
    rw [h.touch_io hpc]
    split_ifs
    · exact h
    · exact h.goIdle (by rw [hpc]; simp) (by rw [hpc]; rfl) (by rw [hpc]; rfl) (by rw [hpc]; rfl)
  case h_13 child i hpc =>
    split at hstep <;> cases hstep
    exact h.forkOne hpc
  case h_14 i hpc =>
    cases hstep
    exact h.exitOne hpc
  case h_15 d pi w hpc =>
    cases hstep
    have hpl : ∀ d', d'.val < d.val → (s.proc p).ofile d' = none := by
      have := h.refs.placed p
      rwa [Placed, hpc] at this
    exact h.pipeclose (hlive (by rw [hpc]; simp)) (by rw [hpc]; rfl) (by rw [hpc]; rfl)
      (by rw [hpc]; rfl) hpl rfl (by simp) (by simp) rfl
  case h_16 d hpc =>
    cases hstep
    have hpl : ∀ d', d'.val < d.val → (s.proc p).ofile d' = none := by
      have := h.refs.placed p
      rwa [Placed, hpc] at this
    refine h.slot (h.refs.slot (fun g => ?_) (fun d' hd' => ?_) (by simp [fresh])
      (by simp)) (hlive (by rw [hpc]; simp)) (by simp)
      (by rw [hpc]; rfl)
    · simp only [cont, hpc, owed, inflight, List.count_nil, add_zero]
      rw [slots_none _ d, slots_update, update_self]
      simp
    · rcases Nat.lt_succ_iff_lt_or_eq.mp hd' with h1 | h1
      · exact (update_of_ne (fun e => by rw [e] at h1; omega) ..).trans (hpl d' h1)
      · obtain rfl := Fin.ext h1
        exact update_self ..

/-! ### Whole runs -/

lemma ready_cont (h : ready s p) (g : Fin F) :
    cont (s.proc p) g = slots (s.proc p).ofile none g := by
  simp only [cont, h.2, owed, inflight, List.count_nil, add_zero]

/-- **Every step keeps the invariant.** -/
theorem Inv.step (h : Inv s) {a : Act n D} (hstep : FileModel.step s a = some t) : Inv t := by
  cases a with
  | go p ok => exact h.go hstep
  | reap p =>
    simp only [FileModel.step] at hstep
    split_ifs at hstep with hz
    cases hstep
    have hidle := h.procs.idle p (by rw [hz]; simp)
    have heq : ({ s.proc p with status := .unused } : Proc F D) =
      ⟨.unused, (s.proc p).ofile, .idle⟩ := by
      rw [← hidle]
    rw [heq]
    exact h.status (by rw [hidle]; rfl) (by rw [hz]; simp) (Refs.status h.refs hidle)
      (h.procs.empty p (.inr hz))
  | openFile p device w =>
    rw [FileModel.step] at hstep
    by_cases hr : ready s p
    swap
    · rw [if_neg hr] at hstep
      cases hstep
    rw [if_pos hr] at hstep
    split at hstep <;> cases hstep
    · rename_i f s' hs
      obtain ⟨h0, rfl⟩ := filealloc_some hs
      refine h.alloc hr.1 h0 (by rw [hr.2]; rfl) (fun g => by rw [hr.2]; simp [inflight]) ?_
        (fun g hg => ?_) (by simp) (by simp)
          (by rw [hr.2]; rfl)
      · change (if device then FdType.FD_DEVICE else .FD_INODE) ≠ .FD_PIPE
        cases device <;> simp
      · exact .inl (by simpa [fresh] using hg)
    · exact h
  | pipe p =>
    simp only [FileModel.step] at hstep
    split_ifs at hstep with hr
    split at hstep <;> cases hstep
    · rename_i f s' hs
      obtain ⟨h0, rfl⟩ := filealloc_some hs
      refine h.alloc hr.1 h0 (by rw [hr.2]; rfl) (fun g => by rw [hr.2]; simp [inflight]) trivial
        (fun g hg => ?_) (by simp) (by simp)
          (by rw [hr.2]; rfl)
      exact .inl (by simpa [fresh] using hg)
    · exact h
  | dup p d =>
    simp only [FileModel.step] at hstep
    split_ifs at hstep with hr
    split at hstep <;> cases hstep
    · rename_i f d' hf hd
      have hnone := fdalloc_some hd
      have hne : d ≠ d' := by
        rintro rfl
        rw [hf] at hnone
        cases hnone
      refine h.slot (h.refs.slot (fun g => ?_) ⟨update_self .., d, hne, ?_⟩
        (by simp [fresh]) (by simp)) hr.1 (by simp)
        (by rw [hr.2]; rfl)
      · rw [ready_cont hr, slots_none _ d', hnone]
        simp [owed, inflight, slots_update]
      · exact (update_of_ne hne ..).trans hf
    · exact h
  | close p d =>
    simp only [FileModel.step] at hstep
    split_ifs at hstep with hr
    split at hstep <;> cases hstep
    · rename_i f hf
      refine h.slot (h.refs.slot (fun g => ?_) trivial (by simp [fresh])
        (by simp)) hr.1 (by simp) (by rw [hr.2]; rfl)
      rw [ready_cont hr]
      exact slots_clear hf g
    · exact h
  | io p d =>
    simp only [FileModel.step] at hstep
    split_ifs at hstep with hr
    split at hstep
    · rename_i f hf
      split_ifs at hstep with hty <;> cases hstep
      · refine h.goto (h.refs.goto (by rw [hr.2]; rfl) (fun f => by rw [hr.2]; rfl) hf rfl
          fun d f pi hx => ?_) hr.1 (by simp) (by rw [hr.2]; rfl)
        cases hx
        exact ⟨hty, rfl⟩
      · exact h
    · cases hstep
      exact h
  | fork p child ok =>
    simp only [FileModel.step] at hstep
    split_ifs at hstep with hr hok <;> cases hstep
    · exact h.forkStart hr.1 hr.2
    · exact h
  | exit p =>
    simp only [FileModel.step] at hstep
    split_ifs at hstep with hr
    cases hstep
    exact h.goto (h.refs.goto (by rw [hr.2]; rfl) (fun f => by rw [hr.2]; rfl)
      (fun d hd => absurd hd (Nat.not_lt_zero _)) rfl (by simp)) hr.1
      (by simp) (by rw [hr.2]; rfl)

lemma inv_start (i : Fin n) : Inv (start i : St n F D) := by
  have hcont : ∀ p f, cont ((start i : St n F D).proc p) f = 0 := by
    intro p f
    simp [cont, slots, start, owed, inflight]
  have hnone : ∀ a, endOf (start i : St n F D) a = none := by
    rintro (f | p) <;> rfl
  have hrefs : Refs (start i : St n F D) := by
    refine ⟨fun f => ?_, fun f _ => rfl, fun p => trivial, fun p f hf => absurd hf List.not_mem_nil,
      fun p d f pi hx => absurd hx (by simp [start])⟩
    simp only [hcont, Finset.sum_const_zero]
    rfl
  have hprocs : Procs (start i : St n F D) :=
    ⟨fun p _ => rfl, fun p _ d => rfl, fun p c j hx => absurd hx (by simp [start]),
      fun p q c j k hx => absurd hx (by simp [start])⟩
  refine ⟨hrefs, hprocs, ⟨fun a b k ha => ?_, fun a pi w ha => ?_, fun pi w ha => ?_,
    fun pi ha => ?_, fun pi ha => ?_, fun pi => ?_⟩, rfl⟩
  · rw [hnone] at ha
    cases ha
  · rw [hnone] at ha
    cases ha
  · cases ha
  · cases ha
  · cases ha
  · simp [start]

lemma reach_inv {i : Fin n} (h : Reach FileModel.step Always (· = start i) s) : Inv s :=
  h.invariant (I := Inv) (fun _ hs => hs ▸ inv_start i) fun _ _ _ hi _ hstep => hi.step hstep

/-- No call of the kind is in progress; a process may be in `piperead` or `pipewrite`. -/
def Quiet (s : St n F D) : Prop :=
  ∀ p, (s.proc p).pc = .idle ∨ ∃ d f pi, (s.proc p).pc = .io d f pi

def IsEnd (s : St n F D) (f : Fin F) (pi : ℕ) : Prop :=
  (s.file f).type = .FD_PIPE ∧ (s.file f).pipe = pi

def holders (s : St n F D) (f : Fin F) : ℕ :=
  (Finset.univ.filter fun x : Fin n × Fin D => (s.proc x.1).ofile x.2 = some f).card

lemma Inv.ref_eq (h : Inv s) (hq : Quiet s) (f : Fin F) : (s.file f).ref = holders s f := by
  have hcont : ∀ p, cont (s.proc p) f = slots (s.proc p).ofile none f := by
    intro p
    rcases hq p with hpc | ⟨d, g, pi, hpc⟩ <;>
      simp only [cont, hpc, owed, inflight, List.count_nil, add_zero]
  rw [h.refs.refs f, holders, Finset.card_filter, Fintype.sum_prod_type]
  refine Finset.sum_congr rfl fun p _ => ?_
  rw [hcont, slots, Finset.card_filter]
  simp

lemma Inv.freed_iff (h : Inv s) {pi : ℕ} (hpi : pi < s.pages) :
    s.freed pi = 1 ↔ ∀ a w, endOf s a ≠ some (pi, w) := by
  have hfreed := h.pipes.freed pi
  simp only [hpi, true_and] at hfreed
  cases hal : (s.pipe pi).alive with
  | true =>
    rw [hal, if_neg (by simp)] at hfreed
    obtain ⟨w, hw⟩ := h.pipes.live pi hal
    obtain ⟨a, ha⟩ := h.pipes.user pi w hal hw
    exact ⟨fun h1 => by omega, fun h1 => absurd ha (h1 a w)⟩
  | false =>
    rw [hal, if_pos rfl] at hfreed
    refine ⟨fun _ a w ha => ?_, fun _ => hfreed⟩
    rw [(h.pipes.used a pi w ha).1] at hal
    cases hal

lemma isEnd_iff {pi : ℕ} : IsEnd s f pi ↔ ∃ w, endOf s (.inl f) = some (pi, w) := by
  simp only [IsEnd, endOf, fileEnd]
  by_cases h : (s.file f).type = .FD_PIPE
  · simp [h]
  · simp [h]

/-- **Open files are counted, and the page of a pipe is freed once.** In every state that a run
reaches: when no call is in progress the count of a file is the number of descriptors that hold it;
a file without references has no type; an unused process has no descriptors. A page that was
allocated for a pipe has been freed once if no file is an end of it and no process is between the
last `fileclose` of an end and its `pipeclose`, and not at all otherwise; so when no call is in
progress, it has been freed just when both ends have no references. No process is in `piperead` or
`pipewrite` on a page that has been freed. No step has panicked, freed a page that was free, or used
one. -/
theorem open_files {i : Fin n} (h : Reach FileModel.step Always (· = start i) s) :
    (Quiet s → ∀ f, (s.file f).ref = holders s f) ∧
      (∀ f, (s.file f).ref = 0 → (s.file f).type = .FD_NONE) ∧
      (∀ p, (s.proc p).status = .unused → ∀ d, (s.proc p).ofile d = none) ∧
      (∀ pi, s.freed pi ≤ 1 ∧ (s.pages ≤ pi → s.freed pi = 0)) ∧
      (∀ pi, pi < s.pages → (s.freed pi = 1 ↔ (∀ f, ¬ IsEnd s f pi) ∧
        ∀ p w, pcEnd (s.proc p).pc ≠ some (pi, w))) ∧
      (Quiet s → ∀ pi, pi < s.pages → (s.freed pi = 1 ↔ ∀ f, ¬ IsEnd s f pi)) ∧
      (∀ p d f pi, (s.proc p).pc = .io d f pi → pi < s.pages ∧ s.freed pi = 0) ∧
      s.bad = false := by
  have hi := reach_inv h
  have hends : ∀ pi, pi < s.pages → (s.freed pi = 1 ↔ (∀ f, ¬ IsEnd s f pi) ∧
      ∀ p w, pcEnd (s.proc p).pc ≠ some (pi, w)) := by
    intro pi hpi
    rw [hi.freed_iff hpi]
    constructor
    · intro hno
      refine ⟨fun f hf => ?_, fun p w => hno (.inr p) w⟩
      obtain ⟨w, hw⟩ := isEnd_iff.mp hf
      exact hno (.inl f) w hw
    · rintro ⟨h1, h2⟩ (f | p) w ha
      · exact h1 f (isEnd_iff.mpr ⟨w, ha⟩)
      · exact h2 p w ha
  refine ⟨hi.ref_eq, hi.refs.none, fun p hp => hi.procs.empty p (.inl hp), fun pi => ?_, hends,
    fun hq pi hpi => ?_, fun p d f pi hpc => ?_, hi.good⟩
  · rw [hi.pipes.freed pi]
    refine ⟨by split_ifs <;> omega, fun hle => ?_⟩
    rw [if_neg]
    omega
  · rw [hends pi hpi]
    refine ⟨And.left, fun h1 => ⟨h1, fun p w => ?_⟩⟩
    rcases hq p with hpc | ⟨d, g, j, hpc⟩ <;> rw [hpc] <;> simp [pcEnd]
  · obtain ⟨w, hw⟩ := isEnd_iff.mp (hi.refs.io p d f pi hpc)
    have halive := (hi.pipes.used _ pi w hw).1
    have hpages := hi.pipes.pages pi halive
    rw [hi.pipes.freed pi, halive]
    exact ⟨hpages, if_neg (by simp)⟩

/-- A process makes a pipe and a child, and both close what they have. -/
def pipeFork (p q : Fin n) (d e : Fin D) : List (Act n D) :=
  [.pipe p, .go p true, .go p true, .go p true, .go p true, .fork p q true, .go p true, .go p true,
    .go p true, .close p d, .go p true, .go p true, .exit q, .go q true, .go q true, .go q true,
    .go q true, .go q true, .go q true, .close p e, .go p true, .go p true, .go p true]

theorem open_files_pipeFork : ∃ s : St 2 2 2,
    run FileModel.step (start 0) (pipeFork 0 1 0 1) = some s ∧
      s.pages = 1 ∧ s.freed 0 = 1 ∧ s.bad = false := by
  have hrun : ∃ s : St 2 2 2, run FileModel.step (start 0) (pipeFork 0 1 0 1) = some s := ⟨_, rfl⟩
  obtain ⟨s, hs⟩ := hrun
  obtain ⟨-, -, -, -, -, -, -, hbad⟩ := open_files (Reach.of_run (.init rfl) hs)
  cases hs
  exact ⟨_, rfl, rfl, rfl, hbad⟩

end Xv6.FileRuns
