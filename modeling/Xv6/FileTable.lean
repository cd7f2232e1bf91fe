import Mathlib.Logic.Equiv.Basic
import Xv6.FileCounts

/-!
The table of open files over whole runs: reference counts are the number of references, and the page
of a pipe is freed once, when both its ends are closed.
-/

namespace Xv6.FileTable

open Function FileModel FileCounts Runs
open ProcModel (scan scan_some)

variable {n F D : ℕ} {s t : St n F D} {p q : Fin n} {f g : Fin F} {d : Fin D}

/-! ### References -/

/-- Every reference is counted; files that a call is filling in belong to it alone. -/
structure Refs (s : St n F D) : Prop where
  refs : ∀ f, (s.file f).ref = ∑ p, cont (s.proc p) f
  none : ∀ f, (s.file f).ref = 0 → (s.file f).type = .FD_NONE
  placed : ∀ p, Placed (s.proc p)
  filling : ∀ p f, f ∈ fresh (s.proc p).pc → (s.file f).type = .FD_NONE ∧ (s.file f).ref = 1
  io : ∀ p d f pi, (s.proc p).pc = .io d f pi → (s.file f).type = .FD_PIPE ∧ (s.file f).pipe = pi

lemma Refs.held (h : Refs s) (hp : 1 ≤ cont (s.proc p) f) : 1 ≤ (s.file f).ref := by
  rw [h.refs]
  exact hp.trans (cont_le_sum s.proc p f)

lemma Refs.alone (h : Refs s) (hf : f ∈ fresh (s.proc q).pc) (hpq : p ≠ q) :
    cont (s.proc p) f = 0 := by
  have h1 := (h.filling q f hf).2
  have h2 := cont_fresh (h.placed q) hf
  have h3 := two_cont_le_sum s.proc hpq f
  rw [← h.refs f] at h3
  omega

lemma Refs.io_held (h : Refs s) {pi : ℕ} (hq : (s.proc q).pc = .io d f pi) :
    1 ≤ cont (s.proc q) f := by
  have hpl := h.placed q
  rw [Placed, hq] at hpl
  exact cont_slot hpl (by rw [hq]; simp [owed])

/-- What one process does: its references change as the counts do, and the files that the others are
filling in or reading stay as they are. -/
structure Change (s t : St n F D) (p : Fin n) : Prop where
  proc : ∀ q, q ≠ p → t.proc q = s.proc q
  refs : ∀ f, (t.file f).ref + cont (s.proc p) f = (s.file f).ref + cont (t.proc p) f
  keep : ∀ q f, q ≠ p → f ∈ fresh (s.proc q).pc → t.file f = s.file f
  hold : ∀ q d f pi, q ≠ p → (s.proc q).pc = .io d f pi →
    (t.file f).type = (s.file f).type ∧ (t.file f).pipe = (s.file f).pipe
  none : ∀ f, (t.file f).ref = 0 → (t.file f).type = .FD_NONE
  placed : Placed (t.proc p)
  filling : ∀ f, f ∈ fresh (t.proc p).pc → (t.file f).type = .FD_NONE ∧ (t.file f).ref = 1
  io : ∀ d f pi, (t.proc p).pc = .io d f pi → (t.file f).type = .FD_PIPE ∧ (t.file f).pipe = pi

lemma Refs.change (h : Refs s) (hc : Change s t p) : Refs t := by
  have hupd : t.proc = update s.proc p (t.proc p) := by
    funext q
    by_cases e : q = p
    · rw [e, update_self]
    · rw [update_of_ne e, hc.proc q e]
  refine ⟨fun f => ?_, hc.none, fun q => ?_, fun q f hf => ?_, fun q d f pi hq => ?_⟩
  · have h1 := hc.refs f
    have h2 := sum_update s.proc p (t.proc p) f
    rw [← hupd, ← h.refs f] at h2
    omega
  · by_cases e : q = p
    · rw [e]
      exact hc.placed
    · rw [hc.proc q e]
      exact h.placed q
  · by_cases e : q = p
    · subst e
      exact hc.filling f hf
    · rw [hc.proc q e] at hf
      rw [hc.keep q f e hf]
      exact h.filling q f hf
  · by_cases e : q = p
    · subst e
      exact hc.io d f pi hq
    · rw [hc.proc q e] at hq
      obtain ⟨h1, h2⟩ := hc.hold q d f pi e hq
      rw [h1, h2]
      exact h.io q d f pi hq

lemma Refs.quiet (h : Refs s) {x : Proc F D} (hf : t.file = s.file)
    (hproc : t.proc = update s.proc p x) (hcont : ∀ f, cont x f = cont (s.proc p) f)
    (hpl : Placed x) (hfr : ∀ f, f ∈ fresh x.pc → f ∈ fresh (s.proc p).pc)
    (hio : ∀ d f pi, x.pc = .io d f pi → (s.file f).type = .FD_PIPE ∧ (s.file f).pipe = pi) :
    Refs t := by
  have hself : t.proc p = x := by rw [hproc, update_self]
  refine h.change (p := p) ⟨fun q hq => by rw [hproc, update_of_ne hq], fun f => ?_,
    fun q f _ _ => by rw [hf], fun q d f pi _ _ => by rw [hf]; exact ⟨rfl, rfl⟩,
    fun f => by rw [hf]; exact h.none f, hself ▸ hpl, fun f hx => ?_, fun d f pi hx => ?_⟩
  · rw [hf, hself, hcont]
  · rw [hf]
    exact h.filling p f (hfr f (hself ▸ hx))
  · rw [hf]
    exact hio d f pi (hself ▸ hx)

lemma Change.one (h : Refs s) {v : File} (hf : t.file = update s.file g v)
    (hproc : ∀ q, q ≠ p → t.proc q = s.proc q)
    (hcont : ∀ f, (if f = g then v.ref else (s.file f).ref) + cont (s.proc p) f =
      (s.file f).ref + cont (t.proc p) f)
    (hkeep : cont (s.proc p) g = 0 → (s.file g).ref = 0)
    (hhold : 2 ≤ (s.file g).ref → v.type = (s.file g).type ∧ v.pipe = (s.file g).pipe)
    (hnone : v.ref = 0 → v.type = .FD_NONE) (hpl : Placed (t.proc p))
    (hfr : ∀ f, f ∈ fresh (t.proc p).pc → (t.file f).type = .FD_NONE ∧ (t.file f).ref = 1)
    (hio : ∀ d f pi, (t.proc p).pc ≠ .io d f pi) : Change s t p := by
  have hval : ∀ f, t.file f = if f = g then v else s.file f := by
    intro f
    rw [hf, update_apply]
  refine ⟨hproc, fun f => ?_, fun q f e hq => ?_, fun q d f pi e hq => ?_, fun f h0 => ?_, hpl, hfr,
    fun d f pi hx => absurd hx (hio d f pi)⟩
  · have := hcont f
    rw [hval]
    split_ifs at this ⊢ with e
    · exact this
    · exact this
  · rw [hval, if_neg]
    rintro rfl
    have h1 := hkeep (h.alone hq (Ne.symm e))
    rw [(h.filling q f hq).2] at h1
    cases h1
  · rw [hval]
    split_ifs with hfg
    · subst hfg
      have h1 := h.io_held hq
      have h2 := two_cont_le_sum s.proc e f
      rw [← h.refs f] at h2
      refine hhold ?_
      by_contra h3
      have := hkeep (by omega)
      omega
    · exact ⟨rfl, rfl⟩
  · rw [hval] at h0 ⊢
    split_ifs at h0 ⊢ with e
    · exact hnone h0
    · exact h.none f h0

/-! ### Places -/

lemma proc_goto (s : St n F D) (p : Fin n) (c : Pc F D) :
    (s.goto p c).proc = update s.proc p ⟨(s.proc p).status, (s.proc p).ofile, c⟩ := rfl

lemma proc_setOfile_goto (s : St n F D) (p : Fin n) (d : Fin D) (v : Option (Fin F)) (c : Pc F D) :
    ((s.setOfile p d v).goto p c).proc = update s.proc p
      ⟨(s.proc p).status, update (s.proc p).ofile d v, c⟩ := by
  simp [St.goto, St.setOfile, St.setProc]

lemma fdalloc_some (h : s.fdalloc p = some d) : (s.proc p).ofile d = none := by
  simpa using scan_some h

lemma cont_move {x : Proc F D} {st : Status} {c : Pc F D} (ho : owed c = owed x.pc)
    (hi : ∀ f, (inflight c).count f = (inflight x.pc).count f) (f : Fin F) :
    cont ⟨st, x.ofile, c⟩ f = cont x f := by
  simp only [cont, ho, hi]

lemma Refs.goto (h : Refs s) {c : Pc F D} (ho : owed c = owed (s.proc p).pc)
    (hi : ∀ f, (inflight c).count f = (inflight (s.proc p).pc).count f)
    (hpl : Placed ⟨(s.proc p).status, (s.proc p).ofile, c⟩) (hfr : fresh c = [])
    (hio : ∀ d f pi, c = .io d f pi → (s.file f).type = .FD_PIPE ∧ (s.file f).pipe = pi) :
    Refs (s.goto p c) :=
  h.quiet rfl rfl (cont_move ho hi) hpl (by simp [hfr]) hio

lemma Refs.slot (h : Refs s) {c : Pc F D} {v : Option (Fin F)}
    (hcont : ∀ f, slots (update (s.proc p).ofile d v) (owed c) f + (inflight c).count f =
      cont (s.proc p) f)
    (hpl : Placed ⟨(s.proc p).status, update (s.proc p).ofile d v, c⟩)
    (hfr : ∀ f, f ∈ fresh c → f ∈ fresh (s.proc p).pc) (hio : ∀ d f pi, c ≠ .io d f pi) :
    Refs ((s.setOfile p d v).goto p c) :=
  h.quiet rfl (proc_setOfile_goto s p d v c) hcont hpl hfr fun d f pi hx => absurd hx (hio d f pi)

lemma Refs.file (h : Refs s) {c : Pc F D} {v : File}
    (hcont : ∀ g, (if g = f then v.ref else (s.file g).ref) + cont (s.proc p) g =
      (s.file g).ref + (slots (s.proc p).ofile (owed c) g + (inflight c).count g))
    (hkeep : cont (s.proc p) f = 0 → (s.file f).ref = 0)
    (hhold : 2 ≤ (s.file f).ref → v.type = (s.file f).type ∧ v.pipe = (s.file f).pipe)
    (hnone : v.ref = 0 → v.type = .FD_NONE)
    (hpl : Placed ⟨(s.proc p).status, (s.proc p).ofile, c⟩)
    (hfr : ∀ g, g ∈ fresh c →
      g = f ∧ v.type = .FD_NONE ∧ v.ref = 1 ∨ g ≠ f ∧ g ∈ fresh (s.proc p).pc)
    (hio : ∀ d f pi, c ≠ .io d f pi) : Refs ((s.setFile f v).goto p c) := by
  have hself : ((s.setFile f v).goto p c).proc p = ⟨(s.proc p).status, (s.proc p).ofile, c⟩ :=
    update_self ..
  refine h.change (p := p) (Change.one h rfl (fun q hq => update_of_ne hq ..) (fun g => ?_)
    hkeep hhold hnone ?_ (fun g hg => ?_) fun d g pi hx => ?_)
  · rw [hself]
    exact hcont g
  · rw [hself]
    exact hpl
  · rw [hself] at hg
    change (update s.file f v g).type = .FD_NONE ∧ (update s.file f v g).ref = 1
    rcases hfr g hg with ⟨rfl, h1, h2⟩ | ⟨h1, h2⟩
    · rw [update_self]
      exact ⟨h1, h2⟩
    · rw [update_of_ne h1]
      exact h.filling p g h2
  · rw [hself] at hx
    exact hio d g pi hx

lemma Refs.congr (h : Refs s) (hf : t.file = s.file) (hp : t.proc = s.proc) : Refs t := by
  obtain ⟨h1, h2, h3, h4, h5⟩ := h
  exact ⟨by rwa [hf, hp], by rwa [hf], by rwa [hp], by rwa [hf, hp], by rwa [hf, hp]⟩

/-! ### Processes -/

structure Procs (s : St n F D) : Prop where
  idle : ∀ p, (s.proc p).status ≠ .live → (s.proc p).pc = .idle
  empty : ∀ p, (s.proc p).status = .unused ∨ (s.proc p).status = .zombie →
    ∀ d, (s.proc p).ofile d = none
  child : ∀ p c i, (s.proc p).pc = .fork c i → ∃ q : Fin n, q.val = c ∧
    (s.proc q).status = .embryo ∧ ∀ d, i ≤ d.val → (s.proc q).ofile d = none
  parent : ∀ p q c i j, (s.proc p).pc = .fork c i → (s.proc q).pc = .fork c j → p = q

lemma Procs.live (h : Procs s) (hp : (s.proc p).pc ≠ .idle) : (s.proc p).status = .live := by
  by_contra hc
  exact hp (h.idle p hc)

lemma Procs.own (h : Procs s) (hlive : (s.proc p).status = .live)
    (hproc : ∀ q, q ≠ p → t.proc q = s.proc q) (hst : (t.proc p).status = .live)
    (hpc : ∀ c i, (t.proc p).pc ≠ .fork c i) : Procs t := by
  have hother : ∀ q c i, (t.proc q).pc = .fork c i → q ≠ p ∧ (s.proc q).pc = .fork c i := by
    intro q c i hq
    have e : q ≠ p := by
      rintro rfl
      exact hpc c i hq
    rw [hproc q e] at hq
    exact ⟨e, hq⟩
  refine ⟨fun q hq => ?_, fun q hq => ?_, fun q c i hq => ?_, fun q r c i j hq hr => ?_⟩
  · by_cases e : q = p
    · rw [e, hst] at hq
      exact absurd rfl hq
    · rw [hproc q e] at hq ⊢
      exact h.idle q hq
  · by_cases e : q = p
    · rw [e, hst] at hq
      simp at hq
    · rw [hproc q e] at hq ⊢
      exact h.empty q hq
  · obtain ⟨r, h1, h2, h3⟩ := h.child q c i (hother q c i hq).2
    have e : r ≠ p := by
      rintro rfl
      rw [hlive] at h2
      cases h2
    rw [← hproc r e] at h2 h3
    exact ⟨r, h1, h2, h3⟩
  · exact h.parent q r c i j (hother q c i hq).2 (hother r c j hr).2

/-! ### Pipes -/

/-- The end of a pipe that is still open because of this file. -/
def fileEnd (x : File) : Option (ℕ × Bool) :=
  if x.type = .FD_PIPE then some (x.pipe, x.writable) else none

def pcEnd : Pc F D → Option (ℕ × Bool)
  | .pclose pi writable _ => some (pi, writable)
  | .exitPipe _ pi writable => some (pi, writable)
  | _ => none

/-- Who keeps an end open: a file, or a process in `pipeclose`. -/
def endOf (s : St n F D) : Fin F ⊕ Fin n → Option (ℕ × Bool)
  | .inl f => fileEnd (s.file f)
  | .inr p => pcEnd (s.proc p).pc

def isOpen (x : Pipe) (writable : Bool) : Bool := if writable then x.writeopen else x.readopen

/-- Each open end of an allocated page is kept open by exactly one file or process. -/
structure Pipes (s : St n F D) : Prop where
  one : ∀ a b k, endOf s a = some k → endOf s b = some k → a = b
  used : ∀ a pi w, endOf s a = some (pi, w) → (s.pipe pi).alive = true ∧ isOpen (s.pipe pi) w = true
  user : ∀ pi w, (s.pipe pi).alive = true → isOpen (s.pipe pi) w = true →
    ∃ a, endOf s a = some (pi, w)
  live : ∀ pi, (s.pipe pi).alive = true → ∃ w, isOpen (s.pipe pi) w = true
  pages : ∀ pi, (s.pipe pi).alive = true → pi < s.pages
  freed : ∀ pi, s.freed pi = if pi < s.pages ∧ (s.pipe pi).alive = false then 1 else 0

lemma Pipes.swap (h : Pipes s) (σ : Fin F ⊕ Fin n ≃ Fin F ⊕ Fin n)
    (he : ∀ a, endOf t a = endOf s (σ a)) (hpipe : t.pipe = s.pipe) (hpages : t.pages = s.pages)
    (hfreed : t.freed = s.freed) : Pipes t := by
  obtain ⟨h1, h2, h3, h4, h5, h6⟩ := h
  refine ⟨fun a b k ha hb => ?_, fun a pi w ha => ?_, fun pi w ha hw => ?_, ?_, ?_, ?_⟩
  · rw [he] at ha hb
    exact σ.injective (h1 _ _ k ha hb)
  · rw [he] at ha
    rw [hpipe]
    exact h2 _ pi w ha
  · rw [hpipe] at ha hw
    obtain ⟨a, h⟩ := h3 pi w ha hw
    exact ⟨σ.symm a, by rw [he, σ.apply_symm_apply]; exact h⟩
  · rw [hpipe]
    exact h4
  · rw [hpipe, hpages]
    exact h5
  · rw [hpipe, hpages, hfreed]
    exact h6

lemma Pipes.same (h : Pipes s) (hf : ∀ f, fileEnd (t.file f) = fileEnd (s.file f))
    (hp : ∀ p, pcEnd (t.proc p).pc = pcEnd (s.proc p).pc) (hpipe : t.pipe = s.pipe)
    (hpages : t.pages = s.pages) (hfreed : t.freed = s.freed) : Pipes t := by
  refine h.swap (Equiv.refl _) (fun a => ?_) hpipe hpages hfreed
  rcases a with f | p
  · exact hf f
  · exact hp p

/-- The last reference to an end of a pipe goes: the process is now to close it. -/
lemma Pipes.handOver (h : Pipes s) {v : File} {c : Pc F D} (hs : pcEnd (s.proc p).pc = none)
    (hf : t.file = update s.file f v) (hv : fileEnd v = none)
    (hproc : ∀ q, q ≠ p → t.proc q = s.proc q) (hc : (t.proc p).pc = c)
    (he : pcEnd c = fileEnd (s.file f)) (hpipe : t.pipe = s.pipe) (hpages : t.pages = s.pages)
    (hfreed : t.freed = s.freed) : Pipes t := by
  refine h.swap (Equiv.swap (.inl f) (.inr p)) (fun a => ?_) hpipe hpages hfreed
  rcases a with g | q
  · by_cases e : g = f
    · subst e
      rw [Equiv.swap_apply_left]
      change fileEnd (t.file g) = pcEnd (s.proc p).pc
      rw [hf, update_self, hv, hs]
    · rw [Equiv.swap_apply_of_ne_of_ne (by simpa using e) (by simp)]
      change fileEnd (t.file g) = fileEnd (s.file g)
      rw [hf, update_of_ne e]
  · by_cases e : q = p
    · subst e
      rw [Equiv.swap_apply_right]
      change pcEnd (t.proc q).pc = fileEnd (s.file f)
      rw [hc, he]
    · rw [Equiv.swap_apply_of_ne_of_ne (by simp) (by simpa using e)]
      change pcEnd (t.proc q).pc = pcEnd (s.proc q).pc
      rw [hproc q e]

def shut (x : Pipe) (w : Bool) : Pipe :=
  ⟨isOpen x (!w), if w then x.readopen else false, if w then false else x.writeopen⟩

lemma pipeclose_eq {pi : ℕ} {w : Bool} (h : (s.pipe pi).alive = true) :
    s.pipeclose pi w = { s with
      pipe := update s.pipe pi (shut (s.pipe pi) w)
      freed := update s.freed pi
        (s.freed pi + if isOpen (s.pipe pi) (!w) then 0 else 1) } := by
  rcases hx : s.pipe pi with ⟨a, r, o⟩
  simp only [hx] at h
  subst h
  cases w <;> cases r <;> cases o <;>
    simp [St.pipeclose, St.touch, St.kfree, hx, isOpen, shut]

lemma Pipes.close (h : Pipes s) {pi : ℕ} {w : Bool} (hs : pcEnd (s.proc p).pc = some (pi, w))
    (hf : t.file = s.file) (hproc : ∀ q, q ≠ p → t.proc q = s.proc q)
    (hc : pcEnd (t.proc p).pc = none) (hpages : t.pages = s.pages)
    (hpipe : t.pipe = update s.pipe pi (shut (s.pipe pi) w))
    (hfreed : t.freed = update s.freed pi
      (s.freed pi + if isOpen (s.pipe pi) (!w) then 0 else 1)) : Pipes t := by
  have hsp : endOf s (.inr p) = some (pi, w) := hs
  -- nobody else has this end
  have hend : ∀ a k, endOf t a = some k ↔ endOf s a = some k ∧ k ≠ (pi, w) := by
    intro a k
    rcases a with f | q
    · change fileEnd (t.file f) = some k ↔ fileEnd (s.file f) = some k ∧ k ≠ (pi, w)
      rw [hf]
      refine ⟨fun hk => ⟨hk, ?_⟩, And.left⟩
      rintro rfl
      exact Sum.inl_ne_inr (h.one (.inl f) (.inr p) _ hk hsp)
    · change pcEnd (t.proc q).pc = some k ↔ pcEnd (s.proc q).pc = some k ∧ k ≠ (pi, w)
      by_cases e : q = p
      · subst e
        rw [hc, hs]
        simp only [reduceCtorEq, Option.some.injEq, false_iff, not_and, not_not]
        exact Eq.symm
      · rw [hproc q e]
        refine ⟨fun hk => ⟨hk, ?_⟩, And.left⟩
        rintro rfl
        exact e (Sum.inr_injective (h.one (.inr q) (.inr p) _ hk hsp))
  obtain ⟨halive, hopen⟩ := h.used (.inr p) pi w hsp
  have hsame : ∀ i, i ≠ pi → t.pipe i = s.pipe i :=
    fun i hi => by rw [hpipe, update_of_ne hi]
  have hself : t.pipe pi = shut (s.pipe pi) w := by rw [hpipe, update_self]
  have hother : isOpen (t.pipe pi) (!w) = isOpen (s.pipe pi) (!w) := by
    rw [hself]
    cases w <;> rfl
  have hshut : isOpen (t.pipe pi) w = false := by
    rw [hself]
    cases w <;> rfl
  have halive' : (t.pipe pi).alive = isOpen (s.pipe pi) (!w) := by
    rw [hself]
    rfl
  have hw : ∀ w', w' ≠ w → w' = !w := by
    intro w' hne
    cases w <;> cases w' <;> simp_all
  refine ⟨fun a b k ha hb => ?_, fun a i w' ha => ?_, fun i w' ha ho => ?_, fun i ha => ?_,
    fun i ha => ?_, fun i => ?_⟩
  · exact h.one a b k ((hend a k).mp ha).1 ((hend b k).mp hb).1
  · obtain ⟨h1, h2⟩ := (hend a _).mp ha
    obtain ⟨h3, h4⟩ := h.used a i w' h1
    by_cases e : i = pi
    · subst e
      have := hw w' fun e => h2 (by rw [e])
      subst this
      rw [halive', hother]
      exact ⟨h4, h4⟩
    · rw [hsame i e]
      exact ⟨h3, h4⟩
  · by_cases e : i = pi
    · subst e
      have := hw w' fun e => by rw [e, hshut] at ho; cases ho
      subst this
      rw [hother] at ho
      obtain ⟨a, h1⟩ := h.user i (!w) halive ho
      exact ⟨a, (hend a _).mpr ⟨h1, by simp⟩⟩
    · rw [hsame i e] at ha ho
      obtain ⟨a, h1⟩ := h.user i w' ha ho
      exact ⟨a, (hend a _).mpr ⟨h1, by simp [e]⟩⟩
  · by_cases e : i = pi
    · subst e
      exact ⟨!w, by rw [hother, ← halive']; exact ha⟩
    · rw [hsame i e] at ha ⊢
      exact h.live i ha
  · rw [hpages]
    by_cases e : i = pi
    · subst e
      exact h.pages i halive
    · rw [hsame i e] at ha
      exact h.pages i ha
  · have h0 := h.freed i
    rw [hpages, hfreed]
    by_cases e : i = pi
    · subst e
      rw [update_self, halive', h0, halive]
      simp only [h.pages i halive, true_and]
      cases isOpen (s.pipe i) (!w) <;> simp
    · rw [update_of_ne e, hsame i e]
      exact h0

lemma Pipes.fill (h : Pipes s) {f0 f1 : Fin F} (hne : f0 ≠ f1) (h0 : fileEnd (s.file f0) = none)
    (h1 : fileEnd (s.file f1) = none) (hf0 : fileEnd (t.file f0) = some (s.pages, false))
    (hf1 : fileEnd (t.file f1) = some (s.pages, true))
    (hf : ∀ f, f ≠ f0 → f ≠ f1 → t.file f = s.file f)
    (hp : ∀ p, pcEnd (t.proc p).pc = pcEnd (s.proc p).pc) (hpages : t.pages = s.pages + 1)
    (hpipe : t.pipe = update s.pipe s.pages ⟨true, true, true⟩)
      (hfreed : t.freed = s.freed) :
    Pipes t := by
  have hend : ∀ a k, endOf t a = some k ↔ endOf s a = some k ∨
      a = .inl f0 ∧ k = (s.pages, false) ∨ a = .inl f1 ∧ k = (s.pages, true) := by
    intro a k
    rcases a with f | q
    · change fileEnd (t.file f) = some k ↔ fileEnd (s.file f) = some k ∨ _
      by_cases e0 : f = f0
      · subst e0
        rw [hf0, h0]
        grind
      · by_cases e1 : f = f1
        · subst e1
          rw [hf1, h1]
          grind
        · rw [hf f e0 e1]
          simp [e0, e1]
    · change pcEnd (t.proc q).pc = some k ↔ pcEnd (s.proc q).pc = some k ∨ _
      rw [hp]
      simp
  have hold : ∀ a i w, endOf s a = some (i, w) → i ≠ s.pages := by
    intro a i w ha
    have := h.pages i (h.used a i w ha).1
    omega
  have hsame : ∀ i, i ≠ s.pages → t.pipe i = s.pipe i := fun i hi => by
    rw [hpipe, update_of_ne hi]
  have hself : t.pipe s.pages = ⟨true, true, true⟩ := by rw [hpipe, update_self]
  refine ⟨fun a b k ha hb => ?_, fun a i w ha => ?_, fun i w ha ho => ?_, fun i ha => ?_,
    fun i ha => ?_, fun i => ?_⟩
  · obtain ⟨i, w⟩ := k
    rcases (hend a _).mp ha with ha | ⟨rfl, ha⟩ | ⟨rfl, ha⟩ <;>
    rcases (hend b _).mp hb with hb | ⟨rfl, hb⟩ | ⟨rfl, hb⟩
    · exact h.one a b _ ha hb
    all_goals grind
  · rcases (hend a _).mp ha with h2 | ⟨-, h2⟩ | ⟨-, h2⟩
    · rw [hsame i (hold a i w h2)]
      exact h.used a i w h2
    · cases h2
      rw [hself]
      exact ⟨rfl, rfl⟩
    · cases h2
      rw [hself]
      exact ⟨rfl, rfl⟩
  · by_cases e : i = s.pages
    · subst e
      cases w
      · exact ⟨.inl f0, hf0⟩
      · exact ⟨.inl f1, hf1⟩
    · rw [hsame i e] at ha ho
      obtain ⟨a, h2⟩ := h.user i w ha ho
      exact ⟨a, (hend a _).mpr (.inl h2)⟩
  · by_cases e : i = s.pages
    · subst e
      exact ⟨true, by rw [hself]; rfl⟩
    · rw [hsame i e] at ha ⊢
      exact h.live i ha
  · by_cases e : i = s.pages
    · omega
    · rw [hsame i e] at ha
      have := h.pages i ha
      omega
  · have h2 := h.freed i
    rw [hfreed, h2, hpages]
    by_cases e : i = s.pages
    · subst e
      simp [hself]
    · rw [hsame i e]
      have : i < s.pages + 1 ↔ i < s.pages := by omega
      simp only [this]

end Xv6.FileTable
