import Mathlib.Algebra.BigOperators.Fin
import Xv6.MemModel
import Xv6.VmTable

/-!
The file table and the pages of pipes.

`Files mem ft c` says that the table `ft` counts, for each file, the `c f` references there
are to it, that a pipe has at most one file for each of its ends, and that the `readopen` and
`writeopen` of every pipe tell which of them there are. The pages of the pipes that some file
refers to are `pipePages ft`; the last `fileclose` frees the page.
-/

namespace Xv6.MemFiles

open Function Bytes Hoare Params VmModel VmTable MemModel
open ProcModel (scan scan_some)

variable {n : ℕ} {ft : Fin NFILE → File} {c : Fin NFILE → ℕ} {mem mem' : ℕ → Buf PGSIZE}
  {f g : Fin NFILE} {pi : ℕ}

def IsPipe (x : File) : Prop := x.type = .FD_PIPE

instance (x : File) : Decidable (IsPipe x) := inferInstanceAs (Decidable (x.type = .FD_PIPE))

structure Files (mem : ℕ → Buf PGSIZE) (ft : Fin NFILE → File) (c : Fin NFILE → ℕ) : Prop where
  refs : ∀ f, (ft f).ref = c f
  closed : ∀ f, (ft f).ref = 0 → (ft f).type = .FD_NONE
  ends : ∀ f g, IsPipe (ft f) → IsPipe (ft g) → (ft f).pipe = (ft g).pipe →
    (ft f).writable = (ft g).writable → f = g
  opened : ∀ f, IsPipe (ft f) → ∀ w, getOpen mem (ft f).pipe w ≠ 0 ↔
    ∃ g, IsPipe (ft g) ∧ (ft g).pipe = (ft f).pipe ∧ (ft g).writable = w

def pipeSet (ft : Fin NFILE → File) : Finset ℕ :=
  (Finset.univ.filter fun f => IsPipe (ft f)).image fun f => (ft f).pipe

def pipePages (ft : Fin NFILE → File) : Multiset ℕ := (pipeSet ft).val

lemma mem_pipeSet : pi ∈ pipeSet ft ↔ ∃ f, IsPipe (ft f) ∧ (ft f).pipe = pi := by
  simp [pipeSet]

lemma mem_pipePages (h : IsPipe (ft f)) : (ft f).pipe ∈ pipePages ft :=
  mem_pipeSet.mpr ⟨f, h, rfl⟩

lemma Files.congr (h : Files mem ft c) (hm : ∀ p ∈ pipePages ft, mem' p = mem p) :
    Files mem' ft c := by
  refine ⟨h.refs, h.closed, h.ends, fun f hf w => ?_⟩
  rw [← h.opened f hf w, getOpen, getOpen, hm _ (mem_pipePages hf)]

lemma pipeSet_congr {ft' : Fin NFILE → File}
    (h : ∀ f, (ft' f).type = (ft f).type ∧ (ft' f).pipe = (ft f).pipe) :
    pipeSet ft' = pipeSet ft := by
  ext pi
  simp only [mem_pipeSet, IsPipe, (h _).1, (h _).2]

lemma Files.set (h : Files mem ft c) {x : File} (hx : ¬ IsPipe x) (hf : ¬ IsPipe (ft f))
    (h0 : x.ref = 0 → x.type = .FD_NONE) :
    Files mem (update ft f x) (update c f x.ref) ∧
      pipeSet (update ft f x) = pipeSet ft := by
  have hp : ∀ g, IsPipe (update ft f x g) ↔ IsPipe (ft g) := fun g => by
    by_cases e : g = f
    · subst e
      rw [update_self]
      exact ⟨fun h => absurd h hx, fun h => absurd h hf⟩
    · rw [update_of_ne e]
  have hv : ∀ g, IsPipe (ft g) → update ft f x g = ft g := fun g hg =>
    update_of_ne (by rintro rfl; exact hf hg) _ _
  refine ⟨⟨fun g => ?_, fun g => ?_, fun g k hg hk => ?_, fun g hg w => ?_⟩, ?_⟩
  · by_cases e : g = f
    · subst e
      rw [update_self, update_self]
    · rw [update_of_ne e, update_of_ne e]
      exact h.refs g
  · by_cases e : g = f
    · subst e
      rw [update_self]
      exact h0
    · rw [update_of_ne e]
      exact h.closed g
  · rw [hp] at hg hk
    rw [hv g hg, hv k hk]
    exact h.ends g k hg hk
  · rw [hp] at hg
    rw [hv g hg, h.opened g hg w]
    refine exists_congr fun k => ?_
    rw [hp]
    exact and_congr_right fun hk => by rw [hv k hk]
  · ext pi
    simp only [mem_pipeSet, hp]
    exact exists_congr fun k => and_congr_right fun hk => by rw [hv k hk]

lemma Files.setRef (h : Files mem ft c) {k : ℕ} (hk : k = 0 → (ft f).type = .FD_NONE) :
    Files mem (update ft f { ft f with ref := k }) (update c f k) ∧
      pipeSet (update ft f { ft f with ref := k }) = pipeSet ft := by
  have hsame : ∀ g, (update ft f { ft f with ref := k } g).type = (ft g).type ∧
      (update ft f { ft f with ref := k } g).pipe = (ft g).pipe ∧
      (update ft f { ft f with ref := k } g).writable = (ft g).writable := fun g => by
    by_cases e : g = f
    · subst e
      simp
    · simp [e]
  refine ⟨⟨fun g => ?_, fun g => ?_, fun g l => ?_, fun g => ?_⟩,
    pipeSet_congr fun g => ⟨(hsame g).1, (hsame g).2.1⟩⟩
  · by_cases e : g = f
    · subst e
      simp
    · rw [update_of_ne e, update_of_ne e]
      exact h.refs g
  · rw [(hsame g).1]
    by_cases e : g = f
    · subst e
      rw [update_self]
      exact hk
    · rw [update_of_ne e]
      exact h.closed g
  · simp only [IsPipe, hsame]
    exact h.ends g l
  · simp only [IsPipe, hsame]
    exact h.opened g

/-! ### Closing an end of a pipe -/

lemma getOpen_putOpen_self (s : Mach) (pi : ℕ) (w : Bool) {v : ℕ} (hv : v < 256 ^ 4) :
    getOpen (putOpen s pi w v).mem pi w = v := by
  simp only [getOpen, putOpen, Mach.store, update_self]
  refine Buf.getLE_setLE_of_lt _ ?_ hv
  cases w <;> decide

lemma getOpen_putOpen_other (s : Mach) (pi : ℕ) (w : Bool) (v : ℕ) :
    getOpen (putOpen s pi w v).mem pi (!w) = getOpen s.mem pi (!w) := by
  simp only [getOpen, putOpen, Mach.store, update_self]
  refine Buf.getLE_setLE_disjoint _ ?_
  cases w <;> decide

lemma putOpen_mem_ne (s : Mach) {pi q : ℕ} (h : q ≠ pi) (w : Bool) (v : ℕ) :
    (putOpen s pi w v).mem q = s.mem q := store_mem_ne s h _

/-- The file table after the last reference to an end of a pipe is gone. -/
def closeEnd (ft : Fin NFILE → File) (f : Fin NFILE) : Fin NFILE → File :=
  update ft f { ft f with ref := 0, type := .FD_NONE }

lemma isPipe_closeEnd : IsPipe (closeEnd ft f g) ↔ g ≠ f ∧ IsPipe (ft g) := by
  unfold closeEnd
  by_cases e : g = f
  · subst e
    simp [IsPipe]
  · simp [e]

lemma closeEnd_of_ne (h : g ≠ f) : closeEnd ft f g = ft g := update_of_ne h _ _

lemma mem_pipeSet_closeEnd :
    pi ∈ pipeSet (closeEnd ft f) ↔ ∃ g, g ≠ f ∧ IsPipe (ft g) ∧ (ft g).pipe = pi := by
  rw [mem_pipeSet]
  refine exists_congr fun g => ?_
  rw [isPipe_closeEnd, and_assoc]
  exact and_congr_right fun h => by rw [closeEnd_of_ne h]

variable {s : Mach}

lemma Files.closeEnd (h : Files s.mem ft c) (hf : IsPipe (ft f)) :
    Files (putOpen s (ft f).pipe (ft f).writable 0).mem (closeEnd ft f)
      (update c f 0) := by
  refine ⟨fun g => ?_, fun g => ?_, fun g k hg hk => ?_, fun g hg w => ?_⟩
  · by_cases e : g = f
    · subst e
      simp [MemFiles.closeEnd]
    · rw [closeEnd_of_ne e, update_of_ne e]
      exact h.refs g
  · by_cases e : g = f
    · subst e
      simp [MemFiles.closeEnd]
    · rw [closeEnd_of_ne e]
      exact h.closed g
  · rw [isPipe_closeEnd] at hg hk
    rw [closeEnd_of_ne hg.1, closeEnd_of_ne hk.1]
    exact h.ends g k hg.2 hk.2
  · rw [isPipe_closeEnd] at hg
    have hrhs : (∃ k, IsPipe (MemFiles.closeEnd ft f k) ∧
        (MemFiles.closeEnd ft f k).pipe = (ft g).pipe ∧ (MemFiles.closeEnd ft f k).writable = w) ↔
        ∃ k, k ≠ f ∧ IsPipe (ft k) ∧ (ft k).pipe = (ft g).pipe ∧ (ft k).writable = w := by
      refine exists_congr fun k => ?_
      rw [isPipe_closeEnd, and_assoc]
      exact and_congr_right fun hk => by rw [closeEnd_of_ne hk]
    rw [closeEnd_of_ne hg.1, hrhs]
    by_cases hp : (ft g).pipe = (ft f).pipe
    · rw [hp]
      by_cases hw : w = (ft f).writable
      · -- the end that was closed had no other file
        rw [hw, getOpen_putOpen_self s _ _ (by decide)]
        simp only [ne_eq, not_true_eq_false, false_iff, not_exists, not_and]
        exact fun k hkf hk hkp hkw => hkf (h.ends k f hk hf hkp hkw)
      · obtain rfl : w = !(ft f).writable := by cases w <;> cases h : (ft f).writable <;> simp_all
        rw [getOpen_putOpen_other, h.opened f hf]
        constructor
        · rintro ⟨k, hk, hkp, hkw⟩
          refine ⟨k, ?_, hk, hkp, hkw⟩
          rintro rfl
          simp at hkw
        · rintro ⟨k, -, hk⟩
          exact ⟨k, hk⟩
    · have hm : getOpen (putOpen s (ft f).pipe (ft f).writable 0).mem (ft g).pipe w =
          getOpen s.mem (ft g).pipe w := by
        rw [getOpen, getOpen, putOpen_mem_ne s hp]
      rw [hm, h.opened g hg.2 w]
      constructor
      · rintro ⟨k, hk, hkp, hkw⟩
        refine ⟨k, ?_, hk, hkp, hkw⟩
        rintro rfl
        exact hp hkp.symm
      · rintro ⟨k, -, hk⟩
        exact ⟨k, hk⟩

lemma Files.last_end (h : Files s.mem ft c) (hf : IsPipe (ft f)) :
    getOpen s.mem (ft f).pipe (!(ft f).writable) = 0 ↔
      (ft f).pipe ∉ pipeSet (MemFiles.closeEnd ft f) := by
  have ho := (h.opened f hf (!(ft f).writable)).not
  rw [not_not] at ho
  rw [ho, mem_pipeSet_closeEnd]
  refine not_congr ⟨?_, ?_⟩
  · rintro ⟨g, hg, hgp, hgw⟩
    refine ⟨g, ?_, hg, hgp⟩
    rintro rfl
    simp at hgw
  · rintro ⟨g, hgf, hg, hgp⟩
    refine ⟨g, hg, hgp, ?_⟩
    by_contra hw
    refine hgf (h.ends g f hg hf hgp ?_)
    cases hgw : (ft g).writable <;> cases hfw : (ft f).writable <;> simp_all

lemma pipePages_closeEnd (hf : IsPipe (ft f)) : pipePages ft =
    if (ft f).pipe ∈ pipeSet (closeEnd ft f) then pipePages (closeEnd ft f)
    else {(ft f).pipe} + pipePages (closeEnd ft f) := by
  have hins : pipeSet ft = insert (ft f).pipe (pipeSet (closeEnd ft f)) := by
    ext pi
    rw [Finset.mem_insert, mem_pipeSet, mem_pipeSet_closeEnd]
    constructor
    · rintro ⟨g, hg, rfl⟩
      by_cases e : g = f
      · exact .inl (by rw [e])
      · exact .inr ⟨g, e, hg, rfl⟩
    · rintro (rfl | ⟨g, -, hg⟩)
      · exact ⟨f, hf, rfl⟩
      · exact ⟨g, hg⟩
  split_ifs with hm
  · rw [pipePages, hins, Finset.insert_eq_of_mem hm]
    rfl
  · rw [pipePages, hins, Finset.insert_val_of_notMem hm, Multiset.singleton_add]
    rfl

/-! ### Opening a pipe -/

/-- The file that `pipealloc` makes an end of the pipe at `pi`. -/
def asEnd (x : File) (w : Bool) (pi : ℕ) : File :=
  { x with type := .FD_PIPE, writable := w, pipe := pi }

def openEnds (ft : Fin NFILE → File) (f₀ f₁ : Fin NFILE) (pi : ℕ) : Fin NFILE → File :=
  update (update ft f₀ (asEnd (ft f₀) false pi)) f₁ (asEnd (ft f₁) true pi)

section Opening

variable {f₀ f₁ : Fin NFILE}

lemma openEnds_fst (ft : Fin NFILE → File) (pi : ℕ) (h : f₀ ≠ f₁) :
    openEnds ft f₀ f₁ pi f₀ = asEnd (ft f₀) false pi := by
  rw [openEnds, update_of_ne h, update_self]

lemma openEnds_snd (ft : Fin NFILE → File) (f₀ f₁ : Fin NFILE) (pi : ℕ) :
    openEnds ft f₀ f₁ pi f₁ = asEnd (ft f₁) true pi := by
  rw [openEnds, update_self]

lemma openEnds_of_ne (h₀ : g ≠ f₀) (h₁ : g ≠ f₁) : openEnds ft f₀ f₁ pi g = ft g := by
  rw [openEnds, update_of_ne h₁, update_of_ne h₀]

lemma isPipe_openEnds (hg : IsPipe (openEnds ft f₀ f₁ pi g)) :
    g = f₀ ∨ g = f₁ ∨ IsPipe (ft g) ∧ g ≠ f₀ ∧ g ≠ f₁ := by
  by_cases e₀ : g = f₀
  · exact .inl e₀
  by_cases e₁ : g = f₁
  · exact .inr (.inl e₁)
  rw [openEnds_of_ne e₀ e₁] at hg
  exact .inr (.inr ⟨hg, e₀, e₁⟩)

lemma openEnds_old (pi : ℕ) (h₀ : ¬ IsPipe (ft f₀)) (h₁ : ¬ IsPipe (ft f₁)) (hg : IsPipe (ft g)) :
    openEnds ft f₀ f₁ pi g = ft g :=
  openEnds_of_ne (by rintro rfl; exact h₀ hg) (by rintro rfl; exact h₁ hg)

lemma pipeSet_openEnds (h : f₀ ≠ f₁) (h₀ : ¬ IsPipe (ft f₀)) (h₁ : ¬ IsPipe (ft f₁)) :
    pipeSet (openEnds ft f₀ f₁ pi) = insert pi (pipeSet ft) := by
  ext q
  rw [Finset.mem_insert, mem_pipeSet, mem_pipeSet]
  constructor
  · rintro ⟨g, hg, rfl⟩
    rcases isPipe_openEnds hg with rfl | rfl | ⟨hg', e₀, e₁⟩
    · exact .inl (by rw [openEnds_fst ft _ h]; rfl)
    · exact .inl (by rw [openEnds_snd]; rfl)
    · exact .inr ⟨g, hg', by rw [openEnds_of_ne e₀ e₁]⟩
  · rintro (rfl | ⟨g, hg, rfl⟩)
    · exact ⟨f₀, by rw [openEnds_fst ft _ h]; rfl, by rw [openEnds_fst ft _ h]; rfl⟩
    · have he := openEnds_old pi h₀ h₁ hg
      exact ⟨g, by rw [he]; exact hg, by rw [he]⟩

lemma ref_openEnds (h : f₀ ≠ f₁) : (openEnds ft f₀ f₁ pi g).ref = (ft g).ref := by
  by_cases e₀ : g = f₀
  · rw [e₀, openEnds_fst ft _ h]
    rfl
  by_cases e₁ : g = f₁
  · rw [e₁, openEnds_snd]
    rfl
  rw [openEnds_of_ne e₀ e₁]

lemma pipe_openEnds (hpi : pi ∉ pipeSet ft) (hg : IsPipe (openEnds ft f₀ f₁ pi g))
    (hp : (openEnds ft f₀ f₁ pi g).pipe = pi) : g = f₀ ∨ g = f₁ := by
  rcases isPipe_openEnds hg with e | e | ⟨hg', e₀, e₁⟩
  · exact .inl e
  · exact .inr e
  · rw [openEnds_of_ne e₀ e₁] at hp
    exact absurd (mem_pipeSet.mpr ⟨g, hg', hp⟩) hpi

lemma old_openEnds (h : f₀ ≠ f₁) (hg : IsPipe (openEnds ft f₀ f₁ pi g))
    (hp : (openEnds ft f₀ f₁ pi g).pipe ≠ pi) :
    IsPipe (ft g) ∧ openEnds ft f₀ f₁ pi g = ft g := by
  rcases isPipe_openEnds hg with rfl | rfl | ⟨hg', e₀, e₁⟩
  · exact absurd (by rw [openEnds_fst ft _ h]; rfl) hp
  · exact absurd (by rw [openEnds_snd]; rfl) hp
  · exact ⟨hg', openEnds_of_ne e₀ e₁⟩

lemma Files.openEnds (h : Files mem ft c) (hne : f₀ ≠ f₁) (h₀ : ¬ IsPipe (ft f₀))
    (h₁ : ¬ IsPipe (ft f₁)) (hr₀ : (ft f₀).ref ≠ 0) (hr₁ : (ft f₁).ref ≠ 0)
    (hpi : pi ∉ pipeSet ft) (hm : ∀ p ∈ pipePages ft, mem' p = mem p)
    (ho : ∀ w, getOpen mem' pi w ≠ 0) : Files mem' (openEnds ft f₀ f₁ pi) c := by
  have hfst := openEnds_fst ft pi hne
  have hsnd := openEnds_snd ft f₀ f₁ pi
  refine ⟨fun g => (ref_openEnds hne).trans (h.refs g), fun g hg => ?_, fun g k hg hk hp hw => ?_,
    fun g hg w => ?_⟩
  · rw [ref_openEnds hne] at hg
    rw [openEnds_of_ne (by rintro rfl; exact hr₀ hg) (by rintro rfl; exact hr₁ hg)]
    exact h.closed g hg
  · by_cases hgp : (MemFiles.openEnds ft f₀ f₁ pi g).pipe = pi
    · -- the two files of the new pipe are its two ends
      rcases pipe_openEnds hpi hg hgp with rfl | rfl <;>
      rcases pipe_openEnds hpi hk (hp ▸ hgp) with rfl | rfl
      · rfl
      · rw [hfst, hsnd] at hw
        cases hw
      · rw [hfst, hsnd] at hw
        cases hw
      · rfl
    · obtain ⟨hg', he⟩ := old_openEnds hne hg hgp
      obtain ⟨hk', he'⟩ := old_openEnds hne hk (hp ▸ hgp)
      rw [he, he'] at hp hw
      exact h.ends g k hg' hk' hp hw
  · by_cases hgp : (MemFiles.openEnds ft f₀ f₁ pi g).pipe = pi
    · rw [hgp]
      refine ⟨fun _ => ?_, fun _ => ho w⟩
      cases w with
      | false => exact ⟨f₀, by rw [hfst]; rfl, by rw [hfst]; rfl, by rw [hfst]; rfl⟩
      | true => exact ⟨f₁, by rw [hsnd]; rfl, by rw [hsnd]; rfl, by rw [hsnd]; rfl⟩
    · obtain ⟨hg', he⟩ := old_openEnds hne hg hgp
      rw [he] at hgp ⊢
      rw [getOpen, hm _ (mem_pipePages hg')]
      refine (h.opened g hg' w).trans ⟨?_, ?_⟩
      · rintro ⟨k, hk, hkp, hkw⟩
        have hek := openEnds_old pi h₀ h₁ hk
        exact ⟨k, by rw [hek]; exact hk, by rw [hek]; exact hkp, by rw [hek]; exact hkw⟩
      · rintro ⟨k, hk, hkp, hkw⟩
        obtain ⟨hk', hek⟩ := old_openEnds hne hk (hkp ▸ hgp)
        rw [hek] at hkp hkw
        exact ⟨k, hk', hkp, hkw⟩

end Opening

/-! ### What the functions do -/

variable [Layout] {s s' s'' : Sys n} {c' c'' : Fin NFILE → ℕ} {G : Multiset ℕ}

/-- A step on the file table: it may free pages of pipes, leaves the pages of `G` alone, and
makes the counts `c'`. -/
structure Step (G : Multiset ℕ) (s s' : Sys n) (c' : Fin NFILE → ℕ) : Prop where
  same : Same G s.vm s'.vm
  owns : Owns s'.vm (pipePages s'.ftable + G)
  files : Files s'.vm.mem s'.ftable c'
  eq : s' = { s with vm := s'.vm, ftable := s'.ftable }

lemma Step.refl (hf : Files s.vm.mem s.ftable c) (ho : Owns s.vm (pipePages s.ftable + G)) :
    Step G s s c := ⟨Same.refl G _, ho, hf, rfl⟩

lemma Step.trans (h : Step G s s' c') (h' : Step G s' s'' c'') : Step G s s'' c'' :=
  ⟨h.same.trans h'.same, h'.owns, h'.files, by rw [h'.eq, h.eq]⟩

lemma Step.setFile (ho : Owns s.vm (pipePages s.ftable + G)) {x : File}
    (h : Files s.vm.mem (update s.ftable f x) c' ∧
      pipeSet (update s.ftable f x) = pipeSet s.ftable) : Step G s (s.setFile f x) c' :=
  ⟨Same.refl G _, by rw [Sys.setFile, pipePages, h.2]; exact ho, h.1, rfl⟩

lemma filealloc_wp (h : Files s.vm.mem s.ftable c) (ho : Owns s.vm (pipePages s.ftable + G)) :
    wp filealloc s fun r s' => (r = none → s' = s) ∧ ∀ f, r = some f →
      Step G s s' (update c f 1) ∧ c f = 0 ∧ ¬ IsPipe (s'.ftable f) ∧
        ∀ g, g ≠ f → s'.ftable g = s.ftable g := by
  simp only [filealloc, wp_bind, wp_get]
  cases hs : scan fun f => (s.ftable f).ref = 0 with
  | none => exact wp_pure.mpr ⟨fun _ => rfl, by simp⟩
  | some f =>
    have h0 : (s.ftable f).ref = 0 := by simpa using scan_some hs
    simp only [wp_bind, wp_modify, wp_pure]
    refine ⟨by simp, fun g hg => ?_⟩
    cases hg
    refine ⟨Step.setFile ho (h.setRef (by simp)), by rw [← h.refs f, h0], ?_, fun g hg => ?_⟩
    · simp [Sys.setFile, IsPipe, h.closed f h0]
    · exact update_of_ne hg _ _

lemma filedup_wp (h : Files s.vm.mem s.ftable c) (ho : Owns s.vm (pipePages s.ftable + G))
    (hc : 0 < c f) : wp (filedup f) s fun _ s' => Step G s s' (update c f (c f + 1)) := by
  have hr := h.refs f
  simp only [filedup, wp_bind, wp_get, show ¬ (s.ftable f).ref < 1 by omega, if_false, wp_modify]
  refine Step.setFile ho ?_
  rw [← hr]
  exact h.setRef (by simp)

lemma pipeclose_wp {v : Mach} (h : Files v.mem ft c) (hf : IsPipe (ft f))
    (ho : Owns v (pipePages ft + G)) :
    wp (pipeclose (ft f).pipe (ft f).writable) v fun _ u => Same G v u ∧
      Owns u (pipePages (closeEnd ft f) + G) ∧
      Files u.mem (closeEnd ft f) (update c f 0) := by
  have hpages := pipePages_closeEnd hf
  have hlast := h.last_end hf
  have hfiles := h.closeEnd hf
  have hG : (ft f).pipe ∉ G := fun hg =>
    Multiset.disjoint_left.mp (Multiset.nodup_add.mp (Multiset.nodup_add.mp ho.nodup).2.1).2.2
      (mem_pipePages hf) hg
  have hsame : Same G v (putOpen v (ft f).pipe (ft f).writable 0) := store_same hG _
  have hboth : (getOpen (putOpen v (ft f).pipe (ft f).writable 0).mem (ft f).pipe false = 0 ∧
      getOpen (putOpen v (ft f).pipe (ft f).writable 0).mem (ft f).pipe true = 0) ↔
      (ft f).pipe ∉ pipeSet (closeEnd ft f) := by
    rw [← hlast, ← getOpen_putOpen_other v _ _ 0]
    have h0 := getOpen_putOpen_self v (ft f).pipe (ft f).writable (show 0 < 256 ^ 4 by decide)
    cases hw : (ft f).writable <;> rw [hw] at h0 <;> simp [h0]
  simp only [pipeclose, setOpen, wp_bind, wp_modify, wp_get]
  by_cases hin : (ft f).pipe ∈ pipeSet (closeEnd ft f)
  · rw [if_neg (by rw [hboth]; simpa using hin)]
    rw [if_pos hin] at hpages
    refine wp_pure.mpr ⟨hsame, ?_, hfiles⟩
    rw [← hpages]
    exact ho
  · rw [if_pos (hboth.mpr hin)]
    rw [if_neg hin] at hpages
    have ho' : Owns (putOpen v (ft f).pipe (ft f).writable 0)
        ({(ft f).pipe} + (pipePages (closeEnd ft f) + G)) := by
      rw [← add_assoc, ← hpages]
      exact ho
    refine (kfree_wp ho').mono ?_
    rintro _ u ⟨hs, hu⟩
    refine ⟨?_, hu, ?_⟩
    · exact hsame.trans hs.right
    · exact hfiles.congr fun p hp => hs p (Multiset.mem_add.mpr (.inl hp))

lemma fileclose_wp (h : Files s.vm.mem s.ftable c) (ho : Owns s.vm (pipePages s.ftable + G))
    (hc : 0 < c f) : wp (fileclose f) s fun _ s' =>
      Step G s s' (update c f (c f - 1)) := by
  have hr := h.refs f
  simp only [fileclose, wp_bind, wp_get, show ¬ (s.ftable f).ref < 1 by omega, if_false]
  split_ifs with h1 h2
  · rw [wp_modify, ← hr]
    exact Step.setFile ho (h.setRef (by omega))
  · rw [wp_bind, wp_modify, onVm, wp_zoom]
    have hc1 : c f - 1 = 0 := by omega
    rw [hc1]
    refine (pipeclose_wp h h2 ho).mono ?_
    rintro _ u ⟨hs, hu, hf⟩
    exact ⟨hs, hu, hf, rfl⟩
  · simp only [wp_bind, wp_modify, wp_pure]
    have hc1 : c f - 1 = 0 := by omega
    rw [hc1]
    refine Step.setFile ho (h.set ?_ ?_ ?_)
    · simp [IsPipe]
    · exact h2
    · simp

lemma fileclose_back (st : Step G s s' (update c f 1)) (hc : c f = 0) :
    wp (fileclose f) s' fun _ s'' => Step G s s'' c := by
  refine (fileclose_wp st.files st.owns (by simp)).mono fun _ s'' st' => ?_
  rw [update_self, update_idem, Nat.sub_self, ← hc,
    update_eq_self] at st'
  exact st.trans st'

lemma newPipe_wp {v : Mach} {f₀ f₁ : Fin NFILE} (st : Step G s s' c') (hne : f₀ ≠ f₁)
    (h₀ : ¬ IsPipe (s'.ftable f₀)) (h₁ : ¬ IsPipe (s'.ftable f₁)) (hc₀ : c' f₀ ≠ 0)
    (hc₁ : c' f₁ ≠ 0) (hsame : Same (pipePages s'.ftable + G) s'.vm v)
    (ho : Owns v ({pi} + (pipePages s'.ftable + G))) :
    wp (do
      onVm (setOpen pi false 1)
      onVm (setOpen pi true 1)
      modify fun s => s.setFile f₀ (asEnd (s.ftable f₀) false pi)
      modify fun s => s.setFile f₁ (asEnd (s.ftable f₁) true pi)
      return some (f₀, f₁)) { s' with vm := v } fun r s'' => r = some (f₀, f₁) ∧
        Step G s s'' c' := by
  simp only [wp_bind, onVm, wp_zoom, setOpen, wp_modify, wp_pure, true_and]
  have hpi : pi ∉ pipePages s'.ftable + G :=
    Multiset.disjoint_left.mp (Multiset.nodup_add.mp (Multiset.nodup_add.mp ho.nodup).2.1).2.2
      (Multiset.mem_singleton_self pi)
  have hmem : Same (pipePages s'.ftable + G) s'.vm (putOpen (putOpen v pi false 1) pi true 1) :=
    (hsame.trans (store_same hpi _)).trans (store_same hpi _)
  have hset : pi ∉ pipeSet s'.ftable := fun h => hpi (Multiset.mem_add.mpr (.inl h))
  have hopen : ∀ w, getOpen (putOpen (putOpen v pi false 1) pi true 1).mem pi w ≠ 0 := fun w => by
    cases w with
    | false =>
      have hother := getOpen_putOpen_other (putOpen v pi false 1) pi true 1
      rw [Bool.not_true, getOpen_putOpen_self v pi false (by decide)] at hother
      rw [hother]
      decide
    | true =>
      rw [getOpen_putOpen_self _ pi true (by decide)]
      decide
  have hft : (((({ s' with vm := putOpen (putOpen v pi false 1) pi true 1 } : Sys n).setFile f₀
      (asEnd (s'.ftable f₀) false pi)).setFile f₁ (asEnd (update s'.ftable f₀
        (asEnd (s'.ftable f₀) false pi) f₁) true pi))) =
      { s' with vm := putOpen (putOpen v pi false 1) pi true 1,
                ftable := openEnds s'.ftable f₀ f₁ pi } := by
    rw [update_of_ne hne.symm]
    rfl
  refine cast (congrArg (Step G s · c') hft.symm) ⟨?_, ?_, ?_, ?_⟩
  · exact st.same.trans hmem.right
  · rw [pipePages, pipeSet_openEnds hne h₀ h₁, Finset.insert_val_of_notMem hset,
      ← Multiset.singleton_add, add_assoc]
    exact ho
  · exact st.files.openEnds hne h₀ h₁ (by rwa [st.files.refs]) (by rwa [st.files.refs]) hset
      (fun p hp => hmem p (Multiset.mem_add.mpr (.inl hp))) hopen
  · rw [st.eq]

lemma pipealloc_wp (h : Files s.vm.mem s.ftable c) (ho : Owns s.vm (pipePages s.ftable + G)) :
    wp pipealloc s fun r s' => (r = none → Step G s s' c) ∧ ∀ f₀ f₁, r = some (f₀, f₁) →
      f₀ ≠ f₁ ∧ c f₀ = 0 ∧ c f₁ = 0 ∧
        Step G s s' (update (update c f₀ 1) f₁ 1) := by
  refine wp.bind (filealloc_wp h ho) ?_
  rintro r s₁ ⟨hn, hs₁⟩
  cases r with
  | none =>
    obtain rfl := hn rfl
    exact wp_pure.mpr ⟨fun _ => Step.refl h ho, by simp⟩
  | some f₀ =>
    obtain ⟨st₁, hc₀, ht₀, -⟩ := hs₁ f₀ rfl
    refine wp.bind (filealloc_wp st₁.files st₁.owns) ?_
    rintro r s₂ ⟨hn, hs₂⟩
    cases r with
    | none =>
      obtain rfl := hn rfl
      refine wp.bind (fileclose_back st₁ hc₀) fun _ s₃ st₃ => ?_
      exact wp_pure.mpr ⟨fun _ => st₃, by simp⟩
    | some f₁ =>
      obtain ⟨st₂, hc₁, ht₁, hother⟩ := hs₂ f₁ rfl
      have hne : f₀ ≠ f₁ := by
        rintro rfl
        rw [update_self] at hc₁
        cases hc₁
      rw [update_of_ne hne.symm] at hc₁
      rw [← hother f₀ hne] at ht₀
      have st := st₁.trans st₂
      rw [wp_bind, onVm, wp_zoom]
      refine (kalloc_wp st.owns).mono ?_
      rintro r v ⟨hsame, hnone, hsome⟩
      cases r with
      | none =>
        have st₃ : Step G s { s₂ with vm := v } _ :=
          ⟨st.same.trans hsame.right, hnone rfl,
            st.files.congr fun p hp => hsame p (Multiset.mem_add.mpr (.inl hp)), by rw [st.eq]⟩
        rw [update_comm hne] at st₃
        refine wp.bind (fileclose_back st₃ (by rw [update_of_ne hne, hc₀])) fun _ s₄ st₄ =>
          ?_
        refine wp.bind (fileclose_back st₄ hc₁) fun _ s₅ st₅ => ?_
        exact wp_pure.mpr ⟨fun _ => st₅, by simp⟩
      | some pi =>
        refine (newPipe_wp st hne ht₀ ht₁ (by simp [hne]) (by simp) hsame (hsome pi rfl)).mono ?_
        rintro r s' ⟨rfl, st'⟩
        refine ⟨by simp, ?_⟩
        rintro g₀ g₁ ⟨⟩
        exact ⟨hne, hc₀, hc₁, st'⟩

end Xv6.MemFiles
