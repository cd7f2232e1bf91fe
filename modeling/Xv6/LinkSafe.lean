import Mathlib.Data.Fintype.Card
import Xv6.LinkCounts
import Xv6.Runs

/-!
Runs of `sys_link`, `sys_unlink` and `create`: as long as no link count is incremented at its
largest value, and no directory loses its last link while another one has it for its parent, link
counts cover names, and what a directory names is allocated.
-/

namespace Xv6.LinkSafe

open Function FsLayout Hoare LinkModel LinkCounts Runs

variable {P : Type} {s t : St P} {i c ip dp : ℕ} {y y' : Option ℕ} {E E' H : ℕ → ℕ}
  {start : ℕ} {path : List Name} {name : Name}

/-! ### Steps of a call -/

def getSt (s : St P) (i : ℕ) : St P := { s with
  ref := update s.ref i (s.ref i + 1)
  valid := if s.ref i = 0 then update s.valid i false else s.valid }

def lockSt (s : St P) (i : ℕ) : St P := { s with valid := update s.valid i true }

def putSt (s : St P) (i : ℕ) : St P :=
  if s.ref i = 1 ∧ s.valid i ∧ (s.inode i).nlink = 0 then { s with
    inode := update s.inode i ⟨.free, 0, []⟩
    valid := update s.valid i false
    ref := update s.ref i (s.ref i - 1) }
  else { s with ref := update s.ref i (s.ref i - 1) }

def inodeSt (s : St P) (i : ℕ) (x : Inode) : St P := { s with inode := update s.inode i x }

def nlinkSt (s : St P) (i : ℕ) (v : ℤ) : St P := inodeSt s i { s.inode i with nlink := v }

def entsSt (s : St P) (i : ℕ) (l : List Entry) : St P := inodeSt s i { s.inode i with ents := l }

def linkSt [DecidableEq P] (s : St P) (p : P) (o : Option ℕ) : St P :=
  { s with linking := update s.linking p o }

@[simp] lemma wp_iget {Q : Unit → St P → Prop} : wp (iget i) s Q ↔ Q () (getSt s i) := wp_modify

lemma wp_ilock {Q : Unit → St P → Prop} (h : (s.inode i).type ≠ .free) :
    wp (ilock i) s Q ↔ Q () (lockSt s i) := by
  unfold ilock
  simp only [wp_bind, wp_get]
  rw [if_neg h]
  simp [lockSt]

@[simp] lemma wp_setInode {v : Inode} {Q : Unit → St P → Prop} :
    wp (setInode i v) s Q ↔ Q () (inodeSt s i v) := wp_modify

@[simp] lemma wp_setNlink {v : ℤ} {Q : Unit → St P → Prop} :
    wp (setNlink i v) s Q ↔ Q () (nlinkSt s i (short v)) := by
  simp only [setNlink, wp_bind, wp_get, wp_setInode, nlinkSt]

@[simp] lemma wp_setEnts {l : List Entry} {Q : Unit → St P → Prop} :
    wp (setEnts i l) s Q ↔ Q () (entsSt s i l) := by
  simp only [setEnts, wp_bind, wp_get, wp_setInode, entsSt]

@[simp] lemma wp_iput {Q : Unit → St P → Prop} : wp (iput i) s Q ↔ Q () (putSt s i) := by
  unfold iput putSt setInode
  simp only [wp_bind, wp_get]
  split_ifs <;> simp

lemma nlinkSt_entsSt (s : St P) (i : ℕ) (l : List Entry) (v : ℤ) :
    nlinkSt (entsSt s i l) i v = inodeSt s i ⟨(s.inode i).type, v, l⟩ := by
  simp [nlinkSt, entsSt, inodeSt]

lemma inodeSt_other {x : Inode} (e : c ≠ i) : (inodeSt s i x).inode c = s.inode c :=
  update_of_ne e ..

lemma putSt_inode (h : ((putSt s i).inode c).type ≠ .free) : (putSt s i).inode c = s.inode c := by
  unfold putSt at h ⊢
  split_ifs at h ⊢
  · by_cases e : c = i
    · simp [e] at h
    · exact update_of_ne e ..
  · rfl

lemma putSt_other (e : c ≠ i) :
    (putSt s i).ref c = s.ref c ∧ (putSt s i).valid c = s.valid c := by
  unfold putSt
  split_ifs <;> exact ⟨update_of_ne e .., by first | exact update_of_ne e .. | rfl⟩

lemma putSt_linking (s : St P) (i : ℕ) : (putSt s i).linking = s.linking := by
  unfold putSt
  split_ifs <;> rfl

lemma ialloc_some (h : ialloc s = some ip) :
    ip < s.ninodes ∧ 0 < ip ∧ (s.inode ip).type = .free := by
  have hp := List.find?_some h
  have hm := List.mem_of_find?_eq_some h
  simp only [decide_eq_true_eq] at hp
  exact ⟨List.mem_range.mp hm, Nat.pos_of_ne_zero hp.1, hp.2⟩

/-! ### The invariant -/

variable [Fintype P]

/-- The calls of `sys_link` that have incremented the link count of an inode. -/
def pend (s : St P) (i : ℕ) : ℕ := (Finset.univ.filter fun p => s.linking p = some i).card

def plus (H : ℕ → ℕ) (i : ℕ) : ℕ → ℕ := fun j => H j + if j = i then 1 else 0

lemma plus_comm (H : ℕ → ℕ) (i j : ℕ) : plus (plus H i) j = plus (plus H j) i := by
  funext k
  simp only [plus]
  omega

/-- The account is right in the midst of a call that owes `E` and has the references `H`. The
directory `y` may still be without its first entries. -/
structure Good (s : St P) (y : Option ℕ) (E H : ℕ → ℕ) : Prop where
  counts : Counts s.ninodes s.inode y fun i => pend s i + E i
  used : ∀ i, s.ref i = s.opened.count i + pend s i + H i
  alloc : ∀ i, s.ref i ≠ 0 → (s.inode i).type ≠ .free
  plain : ∀ p i, s.linking p = some i → (s.inode i).type ≠ .dir
  small : s.ninodes ≤ 2 ^ 16

lemma Good.held (h : Good s y E (plus H i)) : (s.inode i).type ≠ .free := by
  refine h.alloc i ?_
  rw [h.used]
  simp [plus]

lemma Good.fits (h : Good s y E H) (ht : (s.inode i).type ≠ .free) : i < 2 ^ 16 :=
  (h.counts.bound i ht).2.trans_le h.small

lemma Good.linked (h : Good s y E H) {p : P} (hp : s.linking p = some i) :
    (s.inode i).type ≠ .free := by
  intro hf
  have h1 : 1 ≤ pend s i := Finset.card_pos.mpr ⟨p, by simpa using hp⟩
  have := (h.counts.free i hf).2
  omega

lemma Good.entry (h : Good s none E H) (hd : (s.inode dp).type = .dir) {k : ℕ}
    (hk : dirlookup (s.inode dp).ents name = some k) :
    (s.inode ((s.inode dp).ents.getD k ⟨0, []⟩).inum).type ≠ .free := by
  obtain ⟨hlt, hget, h0, -⟩ := dirlookup_some hk
  rw [hget]
  exact h.counts.entry (by simp) hd (List.get_mem ..) h0

lemma Good.above (h : Good s y E H) (hy : some c ≠ y) (hc : (s.inode c).type = .dir)
    (hp : parent (s.inode c).ents = i) : Stays s.inode i :=
  hp ▸ (h.counts.shape c hy hc).2

lemma Good.used_get (h : Good s y E H) (i j : ℕ) :
    update s.ref i (s.ref i + 1) j = s.opened.count j + pend s j + plus H i j := by
  by_cases e : j = i
  · subst e
    simp only [update_self, plus, if_true]
    exact congrArg (· + 1) (h.used j)
  · simp only [update_of_ne e, plus, if_neg e]
    exact h.used j

lemma Good.get (h : Good s y E H) (ht : (s.inode i).type ≠ .free) :
    Good (getSt s i) y E (plus H i) := by
  refine ⟨h.counts, h.used_get i, fun j hj => ?_, h.plain, h.small⟩
  by_cases e : j = i
  · rwa [e]
  · simp only [getSt, update_of_ne e] at hj
    exact h.alloc j hj

lemma Good.lock (h : Good s y E H) : Good (lockSt s i) y E H :=
  ⟨h.counts, h.used, h.alloc, h.plain, h.small⟩

lemma Good.used_put (h : Good s y E (plus H i)) (j : ℕ) :
    update s.ref i (s.ref i - 1) j = s.opened.count j + pend s j + H j := by
  have hj := h.used j
  by_cases e : j = i
  · subst e
    simp only [plus, if_true] at hj
    rw [update_self]
    omega
  · simpa only [update_of_ne e, plus, if_neg e, add_zero] using hj

lemma Good.free (h : Good s y E (plus H i)) (hr : s.ref i = 1) (hv : s.valid i = true)
    (hn : (s.inode i).nlink = 0) (hy : ∀ j, j ≠ i → some j ≠ y' → some j ≠ y) :
    Good (putSt s i) y' E H := by
  unfold putSt
  rw [if_pos ⟨hr, hv, hn⟩]
  refine ⟨h.counts.put h.held hn hy, h.used_put, fun j hj => ?_, fun p j hp => ?_, h.small⟩ <;>
    by_cases e : j = i
  · subst e
    simp [hr] at hj
  · simp only [update_of_ne e] at hj ⊢
    exact h.alloc j hj
  · subst e
    simp
  · simp only [update_of_ne e]
    exact h.plain p j hp

lemma Good.put (h : Good s y E (plus H i)) : Good (putSt s i) y E H := by
  by_cases hc : s.ref i = 1 ∧ s.valid i ∧ (s.inode i).nlink = 0
  · exact h.free hc.1 hc.2.1 hc.2.2 fun _ _ hj => hj
  · unfold putSt
    rw [if_neg hc]
    refine ⟨h.counts, h.used_put, fun j hj => ?_, h.plain, h.small⟩
    by_cases e : j = i
    · exact e ▸ h.held
    · simp only [update_of_ne e] at hj
      exact h.alloc j hj

lemma Good.inode (h : Good s y E H) {v : Inode}
    (hv : Counts s.ninodes (update s.inode i v) y' fun j => pend s j + E' j)
    (ht : v.type = (s.inode i).type) : Good (inodeSt s i v) y' E' H := by
  have hty := update_type ht
  exact ⟨hv, h.used, fun j hj => by simpa only [inodeSt, hty] using h.alloc j hj,
    fun p j hp => by simpa only [inodeSt, hty] using h.plain p j hp, h.small⟩

lemma short_eq {v : ℤ} (h1 : -32768 ≤ v) (h2 : v ≤ 32767) : short v = v :=
  Int.bmod_eq_of_le (by omega) (by omega)

lemma Good.raise (h : Good s y E H) (ht : (s.inode i).type ≠ .free)
    (hlt : (s.inode i).nlink < 32767) :
    Good (nlinkSt s i (short ((s.inode i).nlink + 1))) y (plus E i) H := by
  have hlow := (Int.natCast_nonneg _).trans (h.counts.acc i ht)
  rw [short_eq (by omega) (by omega)]
  refine h.inode (h.counts.relink ht (fun j hj => by simp [plus, hj]) ?_ (by omega)
    fun _ _ _ _ => by omega) rfl
  simp only [plus, if_true]
  push_cast
  omega

lemma Good.drop (h : Good s y (plus E i) H) (ht : (s.inode i).type ≠ .free)
    (hk : ∀ c, some c ≠ y → (s.inode c).type = .dir → parent (s.inode c).ents = i →
      1 < (s.inode i).nlink) :
    Good (nlinkSt s i (short ((s.inode i).nlink - 1))) y E H := by
  have hlow := h.counts.acc i ht
  have hhigh := h.counts.high i ht
  simp only [plus, if_true] at hlow
  push_cast at hlow
  rw [short_eq (by omega) (by omega)]
  refine h.inode (h.counts.relink ht (fun j hj => by simp [plus, hj]) ?_ (by omega)
    fun c hy hc hp => by have := hk c hy hc hp; omega) rfl
  simp only [plus, if_true]
  push_cast
  omega

/-- The new name, and for a directory the link its `..` is. -/
lemma Good.child (h : Good s y (plus E ip) H) (hdp : (s.inode dp).type = .dir)
    (hdy : some dp ≠ y) (hne : ip ≠ dp) (hip : (s.inode ip).type ≠ .free) {ok : Bool}
    {l : List Entry} (hl : dirlink (s.inode dp).ents name ip ok = some l) {v : ℤ}
    (hv : v = (s.inode dp).nlink + if (s.inode ip).type = .dir then 1 else 0) (hm : v ≤ 32767) :
    Good (inodeSt s dp ⟨.dir, v, l⟩) y E H := by
  have hfree : (s.inode dp).type ≠ .free := by rw [hdp]; decide
  obtain ⟨hshape, hstays⟩ := h.counts.shape dp hdy hdp
  have hup : (s.inode (parent (s.inode dp).ents)).type ≠ .free := by rw [hstays.1]; decide
  obtain ⟨hshape', hpar, hname⟩ := shape_dirlink hl (h.fits hip) hshape
    (h.counts.bound dp hfree).1.ne' (h.counts.bound _ hup).1.ne'
  have hlive : live ⟨ip, name⟩ = true := by
    simpa only [live, decide_eq_true_eq] using ⟨(h.counts.bound ip hip).1.ne', hname⟩
  have hq : ∀ (e : Entry) {p : Prop} [Decidable p], decide (live e = true ∧ p) = true →
      e.inum ≠ 0 := fun e p _ he => (of_decide_eq_true (of_decide_eq_true he).1).1
  have hcnt : ∀ j, cnt j l = cnt j (s.inode dp).ents + if j = ip then 1 else 0 := by
    intro j
    rw [cnt, countP_dirlink hl (h.fits hip) fun e => hq e, cnt]
    simp only [hlive, true_and, decide_eq_true_eq]
    rw [if_congr eq_comm rfl rfl]
  have hdirs : dirs s.inode l = dirs s.inode (s.inode dp).ents +
      if (s.inode ip).type = .dir then 1 else 0 := by
    rw [dirs, countP_dirlink hl (h.fits hip) fun e => hq e, dirs]
    simp only [hlive, true_and, decide_eq_true_eq]
  refine h.inode (h.counts.edit hfree hdp.symm (fun j hj => ?_) ?_ hm (fun hx => absurd rfl hx)
    (fun _ _ => ⟨hshape', hpar ▸ hstays⟩) (fun c hc hcd hp => ?_) fun _ _ hj => hj) hdp.symm
  · rw [hcnt]
    simp only [plus]
    omega
  · rw [hcnt, hdirs, hv, if_neg hne.symm]
    simp only [plus, if_neg hne.symm]
    push_cast
    split_ifs <;> omega
  · have hp' : parent (s.inode c).ents = dp := by
      by_cases e : c = dp
      · rw [e, update_self] at hp
        rw [e, ← hpar, hp]
      · rwa [update_of_ne e] at hp
    have := (h.above hc hcd hp').2
    change 0 < v
    rw [hv]
    split_ifs <;> omega

/-! ### Paths -/

lemma namex_wp (path : List Name) : ∀ {s : St P} {ip : ℕ}, Good s none E (plus H ip) →
    wp (namex path ip) s fun r t => t.linking = s.linking ∧ Good t none E (r.elim H (plus H)) := by
  induction path with
  | nil =>
    intro s ip h
    exact wp_pure.mpr ⟨rfl, h⟩
  | cons name rest ih =>
    intro s ip h
    simp only [namex, wp_bind, wp_ilock h.held, wp_get]
    have hl := h.lock (i := ip)
    split_ifs with hd
    · simp only [wp_bind, wp_iput, wp_pure]
      exact ⟨putSt_linking _ _, hl.put⟩
    · split
      · simp only [wp_bind, wp_iput, wp_pure]
        exact ⟨putSt_linking _ _, hl.put⟩
      · rename_i k hk
        simp only [wp_bind, wp_iget, wp_iput]
        have hget := hl.get (hl.entry (not_not.mp hd) hk)
        rw [plus_comm] at hget
        exact (ih hget.put).mono fun r t hq => ⟨hq.1.trans (putSt_linking _ _), hq.2⟩

lemma namei_wp (path) (h : Good s none E H) (hs : (s.inode start).type ≠ .free) :
    wp (namei start path) s fun r t =>
      t.linking = s.linking ∧ Good t none E (r.elim H (plus H)) := by
  simp only [namei, wp_bind, wp_iget]
  exact namex_wp path (h.get hs)

lemma nameiparent_wp (path) (h : Good s none E H) (hs : (s.inode start).type ≠ .free) :
    wp (nameiparent start path) s fun r t => t.linking = s.linking ∧
      (r = none → Good t none E H) ∧ ∀ dp name, r = some (dp, name) →
        Good t none E (plus H dp) ∧ (t.inode dp).type = .dir := by
  unfold nameiparent
  split
  · simp only [wp_bind, wp_iget, wp_iput, wp_pure]
    exact ⟨putSt_linking _ _, fun _ => (h.get hs).put, by simp⟩
  · rename_i name _
    simp only [wp_bind]
    refine (namei_wp _ h hs).mono fun r t hq => ?_
    obtain ⟨hlk, hg⟩ := hq
    cases r with
    | none => exact wp_pure.mpr ⟨hlk, fun _ => hg, by simp⟩
    | some ip =>
      replace hg : Good t none E (plus H ip) := hg
      simp only [wp_bind, wp_ilock hg.held, wp_get]
      split_ifs with hd
      · simp only [wp_bind, wp_iput, wp_pure]
        exact ⟨(putSt_linking _ _).trans hlk, fun _ => hg.lock.put, by simp⟩
      · refine wp_pure.mpr ⟨hlk, by simp, ?_⟩
        rintro dp name ⟨rfl, rfl⟩
        exact ⟨hg.lock, not_not.mp hd⟩

/-! ### sys_link -/

section Link

variable [DecidableEq P] {p : P}

lemma pend_link (hp : s.linking p = none) (i j : ℕ) :
    pend (linkSt s p (some i)) j = pend s j + if j = i then 1 else 0 := by
  have hset : (Finset.univ.filter fun q => (linkSt s p (some i)).linking q = some j) =
      if j = i then insert p (Finset.univ.filter fun q => s.linking q = some j)
      else Finset.univ.filter fun q => s.linking q = some j := by
    ext q
    by_cases e : q = p
    · subst e
      split_ifs with hj
      · simp [linkSt, hj]
      · have hq : (linkSt s q (some i)).linking q = some i := update_self ..
        simp only [Finset.mem_filter, Finset.mem_univ, true_and, hq, hp, Option.some.injEq,
          reduceCtorEq, iff_false]
        exact Ne.symm hj
    · have hq : (linkSt s p (some i)).linking q = s.linking q := update_of_ne e ..
      split_ifs with hj
      · simp only [Finset.mem_filter, Finset.mem_univ, true_and, hq, Finset.mem_insert, e, false_or]
      · simp only [Finset.mem_filter, Finset.mem_univ, true_and, hq]
  rw [pend, hset]
  split_ifs with hj
  · rw [Finset.card_insert_of_notMem (by simp [hp])]
    rfl
  · rfl

/-- `p` has counted a name for the inode. -/
lemma Good.link (h : Good s y (plus E ip) (plus H ip)) (hp : s.linking p = none)
    (hd : (s.inode ip).type ≠ .dir) : Good (linkSt s p (some ip)) y E H := by
  have hpe := pend_link hp ip
  refine ⟨?_, fun j => ?_, h.alloc, fun q j hq => ?_, h.small⟩
  · have hδ : (fun j => pend (linkSt s p (some ip)) j + E j) =
        fun j => pend s j + plus E ip j := by
      funext j
      rw [hpe]
      simp only [plus]
      omega
    rw [hδ]
    exact h.counts
  · have := h.used j
    simp only [plus] at this
    rw [hpe]
    change s.ref j = s.opened.count j + _ + _
    omega
  · by_cases e : q = p
    · subst e
      obtain rfl : ip = j := by simpa [linkSt] using hq
      exact hd
    · exact h.plain q j (by simpa [linkSt, update_of_ne e] using hq)

/-- `p` is no longer in `sys_link`; what it was owed still is. -/
lemma Good.unlink (h : Good s y E H) (hp : s.linking p = some ip) :
    Good (linkSt s p none) y (plus E ip) (plus H ip) := by
  have hpe : ∀ j, pend s j = pend (linkSt s p none) j + if j = ip then 1 else 0 := by
    intro j
    have hback : linkSt (linkSt s p none) p (some ip) = s := by
      simp only [linkSt, update_idem]
      rw [← hp, update_eq_self]
    rw [← pend_link (s := linkSt s p none) (p := p) (by simp [linkSt]) ip j, hback]
  refine ⟨?_, fun j => ?_, h.alloc, fun q j hq => ?_, h.small⟩
  · have hδ : (fun j => pend (linkSt s p none) j + plus E ip j) = fun j => pend s j + E j := by
      funext j
      rw [hpe j]
      simp only [plus]
      omega
    rw [hδ]
    exact h.counts
  · have := h.used j
    rw [hpe j] at this
    simp only [plus]
    change s.ref j = s.opened.count j + _ + _
    omega
  · by_cases e : q = p
    · subst e
      simp [linkSt] at hq
    · exact h.plain q j (by simpa [linkSt, update_of_ne e] using hq)

lemma linkOld_wp (h : Good s none E H) (hs : (s.inode start).type ≠ .free)
    (hp : s.linking p = none) (hroom : ∀ ip t, namei start path s = .ok (some ip, t) →
      (t.inode ip).type ≠ .dir → (t.inode ip).nlink < 32767) :
    wp (linkOld p start path) s fun _ t => Good t none E H := by
  simp only [linkOld, wp_bind]
  obtain ⟨r, t, hrun, hlk, hg⟩ := namei_wp path h hs
  refine ⟨r, t, hrun, ?_⟩
  cases r with
  | none => exact wp_pure.mpr hg
  | some ip =>
    replace hg : Good t none E (plus H ip) := hg
    simp only [wp_bind, wp_ilock hg.held, wp_get]
    split_ifs with hd
    · exact wp_iput.mpr hg.lock.put
    · simp only [wp_bind, wp_setNlink, wp_modify]
      refine (hg.lock.raise hg.held (hroom ip t hrun hd)).link (p := p)
        (by rw [← hp, ← hlk]; rfl) ?_
      simpa [nlinkSt, inodeSt, lockSt] using hd

lemma linkBad_wp (h : Good s none E H) (hp : s.linking p = some ip) :
    wp (linkBad p ip) s fun _ t => Good t none E H := by
  simp only [linkBad, wp_bind, wp_ilock (h.linked hp), wp_get, wp_setNlink, wp_modify, wp_iput]
  refine (((h.lock (i := ip)).unlink hp).drop (h.linked hp) fun c hy hc hc' => ?_).put
  exact absurd (h.above hy hc hc').1 (h.plain p ip hp)

lemma linkNew_wp {ok : Bool} (h : Good s none E H) (hs : (s.inode start).type ≠ .free)
    (hp : s.linking p = some ip) :
    wp (linkNew p ip start path ok) s fun _ t => Good t none E H := by
  simp only [linkNew, wp_bind]
  refine (nameiparent_wp path h hs).mono fun r t hq => ?_
  obtain ⟨hlk, hnone, hsome⟩ := hq
  have hpt : t.linking p = some ip := by rw [hlk, hp]
  cases r with
  | none => exact linkBad_wp (hnone rfl) hpt
  | some r =>
    obtain ⟨dp, name⟩ := r
    obtain ⟨hg, hdp⟩ := hsome dp name rfl
    simp only [wp_bind, wp_ilock hg.held, wp_get]
    have hl := hg.lock (i := dp)
    split
    · simp only [wp_bind, wp_iput]
      exact linkBad_wp hl.put (by rw [putSt_linking]; exact hpt)
    · rename_i l hlink
      simp only [wp_bind, wp_setEnts, wp_modify, wp_iput]
      have hplain := hg.plain p ip hpt
      have hne : ip ≠ dp := fun e => hplain (e ▸ hdp)
      have hnamed := (hl.unlink hpt).child hdp (by simp) hne (hg.linked hpt) hlink
        (v := (t.inode dp).nlink) (by rw [if_neg (by exact hplain), add_zero]; rfl)
        (hg.counts.high dp hg.held)
      rw [plus_comm] at hnamed
      have hsame : inodeSt (linkSt (lockSt t dp) p none) dp ⟨.dir, (t.inode dp).nlink, l⟩ =
          linkSt (entsSt (lockSt t dp) dp l) p none := by
        simp [inodeSt, linkSt, entsSt, lockSt, hdp]
      rw [hsame] at hnamed
      exact hnamed.put.put

end Link

/-! ### sys_unlink -/

def removes (t : St P) (dp : ℕ) (name : Name) : Option ℕ :=
  if name = dot ∨ name = dotdot then none
  else (dirlookup (t.inode dp).ents name).bind fun k =>
    let ip := ((t.inode dp).ents.getD k ⟨0, []⟩).inum
    if (t.inode ip).type = .dir ∧ isdirempty (t.inode ip).ents then some ip else none

/-- When `dp` and `ip` lose a link each, every directory that is left has a parent with links. The
directory `ip` is not left if this was its last link and nobody has it open. -/
def Parting (t : St P) (dp ip : ℕ) : Prop :=
  ∀ c < t.ninodes, (t.inode c).type = .dir →
    ¬ (c = ip ∧ t.ref ip = 0 ∧ (t.inode ip).nlink = 1) →
      (parent (t.inode c).ents = dp → 1 < (t.inode dp).nlink) ∧
        (parent (t.inode c).ents = ip → 1 < (t.inode ip).nlink)

/-- An entry is taken away, and the directory loses a link if it was that of a directory; the inode
is still owed one. -/
lemma Good.unname (h : Good s none E H) (hdp : (s.inode dp).type = .dir) {k : ℕ}
    (hk : dirlookup (s.inode dp).ents name = some k) (hname : name ≠ dot ∧ name ≠ dotdot)
    (hip : ((s.inode dp).ents.getD k ⟨0, []⟩).inum = ip) (hne : ip ≠ dp) {v : ℤ}
    (hv : v = (s.inode dp).nlink - if (s.inode ip).type = .dir then 1 else 0)
    (hpos : ∀ c, some c ≠ y → (s.inode c).type = .dir → parent (s.inode c).ents = dp → 0 < v) :
    (∀ c, parent ((inodeSt s dp ⟨.dir, v, (s.inode dp).ents.set k ⟨0, []⟩⟩).inode c).ents =
      parent (s.inode c).ents) ∧
    Good (inodeSt s dp ⟨.dir, v, (s.inode dp).ents.set k ⟨0, []⟩⟩) y (plus E ip) H := by
  obtain ⟨hlt, hget, h0, rfl⟩ := dirlookup_some hk
  rw [hget] at hip
  have hlive : live ((s.inode dp).ents.get ⟨k, hlt⟩) = true := by
    simpa only [live, decide_eq_true_eq] using ⟨h0, hname⟩
  have hdead : live ⟨0, []⟩ = false := rfl
  have hfree : (s.inode dp).type ≠ .free := by rw [hdp]; decide
  obtain ⟨hshape, hstays⟩ := h.counts.shape dp (by simp) hdp
  obtain ⟨hshape', hpar⟩ := shape_set hlt hshape hname.1 hname.2
  have hcnt : ∀ j, cnt j ((s.inode dp).ents.set k ⟨0, []⟩) + (if j = ip then 1 else 0) =
      cnt j (s.inode dp).ents := by
    intro j
    have := countP_set hlt (fun e => live e ∧ e.inum = j) ⟨0, []⟩
    simp only [hlive, hdead, hip, true_and, decide_eq_true_eq, Bool.false_eq_true, false_and,
      if_false, add_zero] at this
    rw [cnt, cnt, ← this, if_congr eq_comm rfl rfl]
  have hdirs : dirs s.inode ((s.inode dp).ents.set k ⟨0, []⟩) +
      (if (s.inode ip).type = .dir then 1 else 0) = dirs s.inode (s.inode dp).ents := by
    have := countP_set hlt (fun e => live e ∧ (s.inode e.inum).type = .dir) ⟨0, []⟩
    simp only [hlive, hdead, hip, true_and, decide_eq_true_eq, Bool.false_eq_true, false_and,
      if_false, add_zero] at this
    simp only [dirs, ← this]
  have hparent : ∀ c, parent (update s.inode dp
      ⟨.dir, v, (s.inode dp).ents.set k ⟨0, []⟩⟩ c).ents = parent (s.inode c).ents := by
    intro c
    by_cases e : c = dp
    · rw [e, update_self]
      exact hpar
    · rw [update_of_ne e]
  have hhigh := h.counts.high dp hfree
  refine ⟨hparent, h.inode (h.counts.edit hfree hdp.symm (fun j hj => ?_) ?_ ?_
    (fun hx => absurd rfl hx) (fun _ _ => ⟨hshape', hpar ▸ hstays⟩)
    (fun c hy hc hp => hpos c hy hc ((hparent c).symm.trans hp)) fun _ _ _ => by simp) hdp.symm⟩
  · have := hcnt j
    simp only [plus]
    omega
  · have := hcnt dp
    rw [if_neg hne.symm] at this
    simp only [hv, plus, if_neg hne.symm]
    push_cast
    split_ifs at hdirs ⊢ <;> omega
  · simp only [hv]
    split_ifs <;> omega

/-- The end of `sys_unlink`: the directory is let go, and the inode loses a link. -/
lemma Good.part (h : Good s y (plus E ip) (plus (plus H dp) ip)) (hne : ip ≠ dp)
    (hk : ∀ c, some c ≠ y → (s.inode c).type = .dir → parent (s.inode c).ents = ip →
      1 < (s.inode ip).nlink)
    (hy : y = none ∨ y = some ip ∧ s.ref ip = 1 ∧ s.valid ip = true ∧ (s.inode ip).nlink = 1) :
    Good (putSt (nlinkSt (putSt s dp) ip (short (((putSt s dp).inode ip).nlink - 1))) ip)
      none E H := by
  rw [plus_comm] at h
  have hp := h.put
  have hi := putSt_inode hp.held
  have hd := hp.drop hp.held fun c hy hc hcp => by
    have hsame : (putSt s dp).inode c = s.inode c := putSt_inode (by rw [hc]; decide)
    rw [hsame] at hc hcp
    rw [hi]
    exact hk c hy hc hcp
  rcases hy with rfl | ⟨rfl, hr, hv, hn⟩
  · exact hd.put
  · refine hd.free ((putSt_other hne).1.trans hr) ((putSt_other hne).2.trans hv) ?_
      fun j hj _ => by simpa using hj
    simp [nlinkSt, inodeSt, hi, hn, short]

lemma cnt_pos {l : List Entry} {k : ℕ} (hk : dirlookup l name = some k)
    (hname : name ≠ dot ∧ name ≠ dotdot) : 1 ≤ cnt (l.getD k ⟨0, []⟩).inum l := by
  obtain ⟨hlt, hget, h0, rfl⟩ := dirlookup_some hk
  have hlive : live (l.get ⟨k, hlt⟩) = true := by
    simpa only [live, decide_eq_true_eq] using ⟨h0, hname⟩
  rw [hget]
  exact List.countP_pos_iff.mpr ⟨_, List.get_mem _ ⟨k, hlt⟩, by simpa using hlive⟩

lemma unlink_wp (h : Good s none E H) (hs : (s.inode start).type ≠ .free)
    (hkeep : ∀ dp name t ip, nameiparent start path s = .ok (some (dp, name), t) →
      removes t dp name = some ip → Parting t dp ip) :
    wp (unlink start path) s fun _ t => Good t none E H := by
  simp only [unlink, wp_bind]
  obtain ⟨r, t, hrun, -, hnone, hsome⟩ := nameiparent_wp path h hs
  refine ⟨r, t, hrun, ?_⟩
  cases r with
  | none => exact wp_pure.mpr (hnone rfl)
  | some r =>
    obtain ⟨dp, name⟩ := r
    obtain ⟨hg, hdp⟩ := hsome dp name rfl
    simp only [wp_bind, wp_ilock hg.held]
    have hl := hg.lock (i := dp)
    split_ifs with hname
    · exact wp_iput.mpr hl.put
    rw [not_or] at hname
    simp only [wp_bind, wp_get]
    split
    · exact wp_iput.mpr hl.put
    rename_i k hk
    have hty := hl.entry hdp hk
    have hone := cnt_pos hk hname
    obtain ⟨ip, hip⟩ : ∃ ip, ((t.inode dp).ents.getD k ⟨0, []⟩).inum = ip := ⟨_, rfl⟩
    simp only [lockSt, hip] at hk hty hone ⊢
    have hu : Good (lockSt (getSt (lockSt t dp) ip) ip) none E (plus (plus H dp) ip) :=
      (hl.get hty).lock
    have hnl : ¬ (t.inode ip).nlink < 1 := by
      have ha := hg.counts.acc ip hty
      have := cnt_le_names (f := t.inode) (hg.counts.bound dp hg.held).2 ip
      push_cast at ha
      omega
    simp only [wp_bind, wp_iget]
    rw [wp_ilock (by exact hty)]
    simp only [if_neg hnl]
    by_cases hfull : (t.inode ip).type = .dir ∧ ¬ isdirempty (t.inode ip).ents
    · simp only [if_pos hfull, wp_bind, wp_iput]
      exact hu.put.put
    have hempty : (t.inode ip).type = .dir → isdirempty (t.inode ip).ents = true := by
      simpa using hfull
    have hne : ip ≠ dp := by
      rintro rfl
      have := cnt_empty (hg.counts.shape ip (by simp) hdp).1 (hempty hdp) ip
      omega
    simp only [if_neg hfull, wp_bind, wp_setEnts]
    split_ifs with hd <;> simp only [wp_bind, wp_setNlink, wp_iput, wp_get]
    · have hpart := hkeep dp name t ip hrun (by
        simp only [removes, hname, hk, hip, hd, hempty hd, or_self, and_self, if_true, if_false,
          Option.bind_some])
      have hbound : ∀ {c}, (t.inode c).type = .dir → c < t.ninodes := fun hc =>
        (hg.counts.bound _ (by rw [hc]; decide)).2
      -- the inode is freed in the end, or is one of the directories that are left
      obtain ⟨y, hy, hleft⟩ : ∃ y, (y = none ∨ y = some ip ∧ t.ref ip = 0 ∧
          (t.inode ip).nlink = 1) ∧ ∀ c, some c ≠ y → ¬ (c = ip ∧ t.ref ip = 0 ∧
            (t.inode ip).nlink = 1) := by
        by_cases hgone : t.ref ip = 0 ∧ (t.inode ip).nlink = 1
        · exact ⟨some ip, Or.inr ⟨rfl, hgone⟩, fun c hc hcc => hc (by rw [hcc.1])⟩
        · exact ⟨none, Or.inl rfl, fun c _ hcc => hgone hcc.2⟩
      have hlow := (Int.natCast_nonneg _).trans (hg.counts.acc dp hg.held)
      have hhigh := hg.counts.high dp hg.held
      obtain ⟨hparent, hgood⟩ := hu.unname (y := y) hdp hk hname hip hne
        (v := (t.inode dp).nlink - 1) (by rw [if_pos (by exact hd)]; rfl) fun c hc hcd hp => by
          have := (hpart c (hbound hcd) hcd (hleft c hc)).1 hp
          omega
      rw [short_eq (by omega) (by omega), nlinkSt_entsSt]
      rw [← hdp] at hgood
      refine hgood.part hne (fun c hc hcd hp => ?_) (hy.imp_right fun hy => ⟨hy.1, ?_, ?_, ?_⟩)
      · rw [← hdp] at hparent
        rw [hparent] at hp
        have hcd' : (t.inode c).type = .dir := by
          rw [← hcd]
          refine (update_type ?_ c).symm
          rfl
        rw [inodeSt_other hne]
        exact (hpart c (hbound hcd') hcd' (hleft c hc)).2 hp
      · simp [inodeSt, lockSt, getSt, hy.2.1]
      · exact update_self ..
      · rw [inodeSt_other hne]
        exact hy.2.2
    · obtain ⟨hparent, hgood⟩ := hu.unname (y := none) hdp hk hname hip hne
        (v := (t.inode dp).nlink) (by rw [if_neg (by exact hd), sub_zero]; rfl)
        fun c hy hc hp => (hg.above hy hc hp).2
      rw [← hdp] at hgood
      refine hgood.part hne (fun c hy hc hp => ?_) (Or.inl rfl)
      exact absurd (hgood.above hy hc hp).1 (by rw [inodeSt_other hne]; exact hd)

/-! ### create -/

lemma keepOpen_wp (keep : Bool) (h : Good s none E (plus H ip)) :
    wp (keepOpen ip keep) s fun _ t => Good t none E H := by
  unfold keepOpen
  split_ifs
  · refine wp_modify.mpr ⟨h.counts, fun j => ?_, h.alloc, h.plain, h.small⟩
    have := h.used j
    simp only [plus] at this
    simp only [List.count_cons, beq_iff_eq]
    rw [if_congr eq_comm rfl rfl]
    change s.ref j = _ + pend s j + _
    omega
  · exact wp_iput.mpr h.put

def newSt (s : St P) (ip : ℕ) (type : Ty) : St P :=
  lockSt (inodeSt (getSt s ip) ip ⟨type, 1, []⟩) ip

lemma Good.take {type : Ty} (h : Good s none E H) (hip : ialloc s = some ip) (ht : type ≠ .free) :
    (newSt s ip type).ref ip = 1 ∧ Good (newSt s ip type) (some ip) (plus E ip) (plus H ip) := by
  obtain ⟨hN, h0, hf⟩ := ialloc_some hip
  have hr : s.ref ip = 0 := by
    by_contra hr
    exact h.alloc ip hr hf
  have hδ := (h.counts.free ip hf).2
  refine ⟨by simp [newSt, lockSt, inodeSt, getSt, hr], ?_, h.used_get ip, fun j hj => ?_,
    fun p j hp => ?_, h.small⟩
  · refine h.counts.take hf h0 hN ht (fun j hj => ?_) ?_
    · simp only [plus, if_neg hj]
      rfl
    · change pend s ip + plus E ip ip = 1
      simp only [plus, if_true]
      omega
  all_goals
    change (update s.inode ip _ j).type ≠ _
    by_cases e : j = ip
  · rwa [e, update_self]
  · rw [update_of_ne e]
    exact h.alloc j (by simpa [newSt, lockSt, inodeSt, getSt, update_of_ne e] using hj)
  · exact absurd hf (e ▸ h.linked hp)
  · rw [update_of_ne e]
    exact h.plain p j hp

lemma newEnts_some {type : Ty} {ok : Bool} {l : List Entry} (h : newEnts type ip dp ok = some l)
    (hi : ip < 2 ^ 16) (hd : dp < 2 ^ 16) (h0 : 0 < ip) :
    l = if type = .dir then [⟨ip, dot⟩, ⟨dp, dotdot⟩] else [] := by
  unfold newEnts at h
  by_cases ht : type = .dir
  · obtain ⟨l', h1, h2⟩ := Option.bind_eq_some_iff.mp (by simpa [ht] using h)
    obtain rfl : l' = [⟨ip, dot⟩] := by simpa using (dirlink_some h1 hi).2
    simpa [ht, h0.ne'] using (dirlink_some h2 hd).2
  · simpa [ht, eq_comm] using h

lemma Good.fill {l : List Entry} (h : Good s (some ip) E H) (hfree : (s.inode ip).type ≠ .free)
    (hents : (s.inode ip).ents = [])
    (hl : l = if (s.inode ip).type = .dir then [⟨ip, dot⟩, ⟨dp, dotdot⟩] else []) :
    Good (entsSt s ip l) (some ip) E H := by
  have hdead : ∀ e ∈ l, live e = false := by
    intro e he
    rw [hl] at he
    split_ifs at he
    · simp only [List.mem_cons, List.not_mem_nil, or_false] at he
      rcases he with rfl | rfl <;> simp [live]
    · simp at he
  have hcnt : ∀ j, cnt j l = 0 := fun j =>
    List.countP_eq_zero.mpr fun e he => by simp [hdead e he]
  have hdirs : dirs s.inode l = 0 := List.countP_eq_zero.mpr fun e he => by simp [hdead e he]
  refine h.inode (h.counts.edit hfree rfl (fun j _ => ?_) ?_ (h.counts.high ip hfree)
    (fun hx => by rw [hl, if_neg hx]) (fun hy => absurd rfl hy) (fun c hy hc hp => ?_)
    fun _ _ hj => hj) rfl
  · simp only [hcnt]
    omega
  · simp only [hcnt, hdirs, hents]
    push_cast
    omega
  · rw [update_of_ne (by simpa using hy)] at hp
    exact (h.above hy hc hp).2

lemma Good.settle (h : Good s (some ip) E H) (hs : (s.inode ip).type = .dir →
    Shape ip (s.inode ip).ents ∧ Stays s.inode (parent (s.inode ip).ents)) :
    Good s none E H := by
  refine ⟨{ h.counts with shape := fun d _ hd => ?_ }, h.used, h.alloc, h.plain, h.small⟩
  by_cases e : d = ip
  · exact e ▸ hs (e ▸ hd)
  · exact h.counts.shape d (by simpa using e) hd

lemma createFail_wp (h : Good s (some ip) (plus E ip) (plus (plus H dp) ip))
    (hr : s.ref ip = 1) (hv : s.valid ip = true) (hn : (s.inode ip).nlink = 1)
    (hp : ∀ c, some c ≠ some ip → (s.inode c).type = .dir → parent (s.inode c).ents ≠ ip) :
    wp (createFail ip dp) s fun _ t => Good t none E H := by
  simp only [createFail, wp_bind, wp_setNlink, wp_iput]
  have hd := h.drop h.held fun c hc hcd hcp => absurd hcp (hp c hc hcd)
  rw [hn, sub_self] at hd
  exact (hd.free hr hv (by simp [nlinkSt, inodeSt, short]) fun j hj _ => by simpa using hj).put

def makes (t : St P) (dp : ℕ) (name : Name) (ok ok' : Bool) : Bool :=
  (dirlookup (t.inode dp).ents name).isNone && (ialloc t).any fun ip =>
    (newEnts .dir ip dp ok).isSome && (dirlink (t.inode dp).ents name ip ok').isSome

lemma create_wp {type : Ty} {ok ok' keep : Bool} (h : Good s none E H)
    (hs : (s.inode start).type ≠ .free) (ht : type ≠ .free)
    (hroom : type = .dir → ∀ dp name t, nameiparent start path s = .ok (some (dp, name), t) →
      makes t dp name ok ok' = true → (t.inode dp).nlink < 32767) :
    wp (create start path type ok ok' keep) s fun _ t => Good t none E H := by
  simp only [create, wp_bind]
  obtain ⟨r, t, hrun, -, hnone, hsome⟩ := nameiparent_wp path h hs
  refine ⟨r, t, hrun, ?_⟩
  cases r with
  | none => exact wp_pure.mpr (hnone rfl)
  | some r =>
    obtain ⟨dp, name⟩ := r
    obtain ⟨hg, hdp⟩ := hsome dp name rfl
    simp only [wp_bind, wp_ilock hg.held, wp_get]
    have hl := hg.lock (i := dp)
    split
    · rename_i k hk
      have hgot := hl.get (hl.entry hdp hk)
      rw [plus_comm] at hgot
      simp only [wp_bind, wp_iget, wp_iput, wp_ilock hgot.put.held, wp_get]
      split_ifs
      · exact keepOpen_wp _ hgot.put.lock
      · exact wp_iput.mpr hgot.put.lock.put
    rename_i hno
    split
    · exact wp_iput.mpr hl.put
    rename_i ip hip
    obtain ⟨hN, h0, hf⟩ : ip < t.ninodes ∧ 0 < ip ∧ (t.inode ip).type = .free := ialloc_some hip
    obtain ⟨hr, hnew⟩ := hl.take hip ht
    have hne : ip ≠ dp := by
      rintro rfl
      rw [hf] at hdp
      cases hdp
    simp only [wp_bind, wp_iget, wp_setInode]
    rw [wp_ilock (by simpa [inodeSt] using ht)]
    change wp _ (newSt (lockSt t dp) ip type) _
    have hi : ((newSt (lockSt t dp) ip type).inode ip) = ⟨type, 1, []⟩ := update_self ..
    have hd : ((newSt (lockSt t dp) ip type).inode dp) = t.inode dp := update_of_ne hne.symm ..
    have hv : (newSt (lockSt t dp) ip type).valid ip = true := update_self ..
    -- it was free, so it is nobody's parent
    have hp : ∀ c, some c ≠ some ip → ((newSt (lockSt t dp) ip type).inode c).type = .dir →
        parent ((newSt (lockSt t dp) ip type).inode c).ents ≠ ip := by
      intro c hc hcd hcp
      have hsame : (newSt (lockSt t dp) ip type).inode c = t.inode c :=
        update_of_ne (by simpa using hc) ..
      rw [hsame] at hcd hcp
      have := (hg.above (by simp) hcd hcp).1
      rw [hf] at this
      cases this
    split
    · exact createFail_wp hnew hr hv (by rw [hi]) hp
    rename_i l hle
    have hle' := newEnts_some hle (hN.trans_le hl.small) (hl.fits hg.held) h0
    have hw := hnew.fill (l := l) (by rwa [hi]) (by rw [hi]) (by rw [hi]; exact hle')
    simp only [wp_bind, wp_setEnts]
    generalize hwdef : entsSt (newSt (lockSt t dp) ip type) ip l = w at hw ⊢
    have hiw : w.inode ip = ⟨type, 1, l⟩ := by simp [← hwdef, entsSt, inodeSt, hi]
    have hdw : w.inode dp = t.inode dp := by
      rw [← hwdef, entsSt, inodeSt_other hne.symm]
      exact hd
    split
    · refine createFail_wp hw (by rw [← hwdef]; exact hr) (by rw [← hwdef]; exact hv)
        (by rw [hiw]) fun c hc => ?_
      rw [← hwdef, entsSt, inodeSt_other (by simpa using hc)]
      exact hp c hc
    rename_i l' hl'
    have hroom' : (t.inode dp).nlink + (if type = .dir then 1 else 0) ≤ 32767 := by
      split_ifs with htd
      · subst htd
        refine hroom rfl dp name t hrun ?_
        change dirlookup (t.inode dp).ents name = none at hno
        change ialloc t = some ip at hip
        change dirlink (t.inode dp).ents name ip ok' = some l' at hl'
        simp [makes, hno, hip, hle, hl']
      · rw [add_zero]
        exact hg.counts.high dp hg.held
    have hchild := hw.child (by rw [hdw, hdp]) (by simpa using hne.symm) hne (by rwa [hiw])
      (by rw [hdw]; exact hl') (by rw [hdw, hiw]) hroom'
    have hlow := (Int.natCast_nonneg _).trans (hg.counts.acc dp hg.held)
    have hdone := hchild.settle fun hdir => by
      rw [inodeSt_other hne, hiw] at hdir ⊢
      rw [if_pos hdir] at hle'
      refine hle' ▸ ⟨⟨dp, [], rfl, by simp⟩, ?_⟩
      change Stays (update w.inode dp _) dp
      rw [Stays, update_self]
      simp only [if_pos hdir, true_and]
      omega
    rw [plus_comm] at hdone
    split_ifs at hdone ⊢ with htd <;> simp only [wp_bind, wp_setEnts, wp_setNlink, wp_iput]
    · rw [if_pos htd] at hroom'
      rw [short_eq (by simp only [lockSt]; omega) (by exact hroom'), nlinkSt_entsSt, hdw, hdp]
      exact keepOpen_wp _ hdone.put
    · rw [add_zero, ← hdp] at hdone
      rw [entsSt, hdw]
      exact keepOpen_wp _ hdone.put

/-! ### Without room -/

/-- A link count has wrapped. -/
def Wrapped (s : St P) : Prop := ∃ i, (s.inode i).type ≠ .free ∧ (s.inode i).nlink = -32768

omit [Fintype P] in
lemma Wrapped.put (h : Wrapped s) : Wrapped (putSt s i) := by
  obtain ⟨c, ht, hn⟩ := h
  have hc : (putSt s i).inode c = s.inode c := by
    unfold putSt
    split_ifs with hz
    · refine update_of_ne ?_ ..
      rintro rfl
      omega
    · rfl
  exact ⟨c, by rwa [hc], by rwa [hc]⟩

lemma linkOld_wraps [DecidableEq P] {p : P} (h : Good s none E H)
    (hs : (s.inode start).type ≠ .free) (hrun : namei start path s = .ok (some ip, t))
    (hd : (t.inode ip).type ≠ .dir) (hn : ¬ (t.inode ip).nlink < 32767) :
    wp (linkOld p start path) s fun _ u => Wrapped u := by
  obtain ⟨_, _, hrun', -, hg⟩ := namei_wp path h hs
  cases hrun.symm.trans hrun'
  replace hg : Good t none E (plus H ip) := hg
  have hv := (hg.counts.high ip hg.held).antisymm (not_lt.mp hn)
  simp only [linkOld, wp_bind]
  refine ⟨_, _, hrun, ?_⟩
  simp only [wp_bind, wp_ilock hg.held, wp_get]
  rw [if_neg (by exact hd)]
  simp only [wp_bind, wp_setNlink, wp_modify]
  exact ⟨ip, by simpa [nlinkSt, inodeSt, lockSt] using hg.held,
    by simp [nlinkSt, inodeSt, lockSt, hv, short]⟩

lemma create_wraps {ok ok' keep : Bool} (h : Good s none E H)
    (hs : (s.inode start).type ≠ .free)
    (hrun : nameiparent start path s = .ok (some (dp, name), t))
    (hm : makes t dp name ok ok' = true) (hn : ¬ (t.inode dp).nlink < 32767) :
    wp (create start path .dir ok ok' keep) s fun _ u => Wrapped u := by
  obtain ⟨_, _, hrun', -, -, hsome⟩ := nameiparent_wp path h hs
  cases hrun.symm.trans hrun'
  obtain ⟨hg, hdp⟩ := hsome dp name rfl
  have hv := (hg.counts.high dp hg.held).antisymm (not_lt.mp hn)
  simp only [makes, Bool.and_eq_true, Option.isNone_iff_eq_none, Option.any_eq_true,
    Option.isSome_iff_exists] at hm
  obtain ⟨hno, ip, hip, ⟨l, hl⟩, l', hl'⟩ := hm
  -- locking the parent changes neither its entries nor which inode is free
  change dirlookup ((lockSt t dp).inode dp).ents name = none at hno
  change ialloc (lockSt t dp) = some ip at hip
  change dirlink ((lockSt t dp).inode dp).ents name ip ok' = some l' at hl'
  simp only [create, wp_bind]
  refine ⟨_, _, hrun, ?_⟩
  simp only [wp_bind, wp_ilock hg.held, wp_get, hno, hip, wp_iget, wp_setInode]
  rw [wp_ilock (by simp [inodeSt])]
  simp only [hl, hl', wp_bind, wp_setEnts, if_true, wp_setNlink, wp_iput]
  have hw : Wrapped (nlinkSt (entsSt (entsSt (newSt (lockSt t dp) ip .dir) ip l) dp l') dp
      (short (((lockSt t dp).inode dp).nlink + 1))) :=
    ⟨dp, by simp [nlinkSt, inodeSt, entsSt, newSt, lockSt, getSt, update_apply, apply_ite, hdp],
      by simp [nlinkSt, inodeSt, lockSt, hv, short]⟩
  unfold keepOpen
  split_ifs
  · exact wp_modify.mpr hw.put
  · exact wp_iput.mpr hw.put.put

/-! ### Runs -/

lemma openOld_wp (h : Good s none E H) (hs : (s.inode start).type ≠ .free) :
    wp (openOld start path) s fun _ t => Good t none E H := by
  simp only [openOld, wp_bind]
  refine (namei_wp path h hs).mono fun r t hq => ?_
  cases r with
  | none => exact wp_pure.mpr hq.2
  | some ip =>
    have hg : Good t none E (plus H ip) := hq.2
    simp only [wp_bind, wp_ilock hg.held]
    exact keepOpen_wp true hg.lock

lemma close_wp (h : Good s none E H) : wp (close i) s fun _ t => Good t none E H := by
  simp only [close, wp_bind, wp_get]
  split_ifs with hi
  · simp only [wp_bind, wp_modify, wp_iput]
    refine Good.put ⟨h.counts, fun j => ?_, h.alloc, h.plain, h.small⟩
    have := h.used j
    have hpos := List.count_pos_iff.mpr hi
    change s.ref j = (s.opened.erase i).count j + pend s j + plus H i j
    by_cases e : j = i
    · subst e
      rw [List.count_erase_self]
      simp only [plus, if_true]
      omega
    · rw [List.count_erase_of_ne e]
      simpa only [plus, if_neg e, add_zero] using this
  · exact wp_pure.mpr h

variable [DecidableEq P] {a : Act P}

/-- The link count that an action increments is below its largest value. -/
def Room (s : St P) : Act P → Prop
  | .link _ start path => ∀ r ∈ (namei start path s).toOption, ∀ ip ∈ r.1,
      (r.2.inode ip).type ≠ .dir → (r.2.inode ip).nlink < 32767
  | .create start path type ok ok' _ => type = .dir →
      ∀ r ∈ (nameiparent start path s).toOption, ∀ q ∈ r.1, makes r.2 q.1 q.2 ok ok' →
        (r.2.inode q.1).nlink < 32767
  | _ => True

/-- No directory loses its last link while one that is left has it for its parent. -/
def Keeps (s : St P) : Act P → Prop
  | .unlink start path => ∀ r ∈ (nameiparent start path s).toOption, ∀ q ∈ r.1,
      ∀ ip ∈ removes r.2 q.1 q.2, Parting r.2 q.1 ip
  | _ => True

def Kept (s : St P) (a : Act P) : Prop := Room s a ∧ Keeps s a

instance (t : St P) (dp ip : ℕ) : Decidable (Parting t dp ip) := by
  unfold Parting
  infer_instance

instance (s : St P) (a : Act P) : Decidable (Kept s a) := by
  unfold Kept
  cases a <;> (dsimp only [Room, Keeps]; infer_instance)

/-- A well-formed file system, with no call going on. -/
structure WellFormed (s : St P) : Prop where
  counts : Counts s.ninodes s.inode none fun _ => 0
  used : ∀ i, s.ref i = s.opened.count i
  alloc : ∀ i ∈ s.opened, (s.inode i).type ≠ .free
  idle : ∀ p, s.linking p = none
  small : s.ninodes ≤ 2 ^ 16

/-- The account is right, with no call going on but those of `sys_link`. -/
abbrev Sound (s : St P) : Prop := Good s none (fun _ => 0) fun _ => 0

omit [DecidableEq P] in
lemma WellFormed.sound (h : WellFormed s) : Sound s := by
  have hpend : ∀ i, pend s i = 0 := fun i => by simp [pend, h.idle]
  refine ⟨by simpa only [hpend] using h.counts, fun i => ?_, fun i hi => ?_, fun p i hp => ?_,
    h.small⟩
  · simp [hpend, h.used]
  · rw [h.used] at hi
    exact h.alloc i (List.count_pos_iff.mp (Nat.pos_of_ne_zero hi))
  · rw [h.idle p] at hp
    cases hp

omit [DecidableEq P] in
lemma Good.begins (h : Good s y E H) (hp : pathOk s start path = true) :
    (s.inode start).type ≠ .free := by
  simp only [pathOk, decide_eq_true_eq] at hp
  rcases hp.1 with rfl | hm
  · rw [h.counts.root]
    decide
  · refine h.alloc start ?_
    have := List.count_pos_iff.mpr hm
    rw [h.used]
    omega

omit [Fintype P] [DecidableEq P] in
lemma ends_of_wp {Q : St P → Prop} {m : M P Unit} {r : Except Panic (Unit × St P)}
    (h : wp m s fun _ t => Q t) (hr : m s = r) : ∃ t, r = .ok ((), t) ∧ Q t := by
  obtain ⟨u, t, hm, hq⟩ := h
  exact ⟨t, hr ▸ hm, hq⟩

lemma Good.exec (h : Sound s) (ha : Kept s a) {r : Except Panic (Unit × St P)}
    (hr : exec s a = some r) : ∃ t, r = .ok ((), t) ∧ Sound t := by
  cases a with
  | link p start path =>
    simp only [LinkModel.exec, Option.ite_none_right_eq_some, Option.some.injEq] at hr
    exact ends_of_wp (linkOld_wp h (h.begins hr.1.1) hr.1.2 fun ip t hx =>
      ha.1 (some ip, t) (by rw [hx]; rfl) ip rfl) hr.2
  | linkNew p start path ok =>
    simp only [LinkModel.exec] at hr
    split at hr
    · rename_i ip hp
      simp only [Option.ite_none_right_eq_some, Option.some.injEq] at hr
      exact ends_of_wp (linkNew_wp h (h.begins hr.1) hp) hr.2
    · cases hr
  | unlink start path =>
    simp only [LinkModel.exec, Option.ite_none_right_eq_some, Option.some.injEq] at hr
    exact ends_of_wp (unlink_wp h (h.begins hr.1) fun dp name t ip hx hi =>
      ha.2 (some (dp, name), t) (by rw [hx]; rfl) (dp, name) rfl ip hi) hr.2
  | create start path type ok ok' keep =>
    simp only [LinkModel.exec, Option.ite_none_right_eq_some, Option.some.injEq] at hr
    exact ends_of_wp (create_wp h (h.begins hr.1.1) hr.1.2 fun ht dp name t hx =>
      ha.1 ht (some (dp, name), t) (by rw [hx]; rfl) (dp, name) rfl) hr.2
  | openOld start path =>
    simp only [LinkModel.exec, Option.ite_none_right_eq_some, Option.some.injEq] at hr
    exact ends_of_wp (openOld_wp h (h.begins hr.1)) hr.2
  | close i =>
    simp only [LinkModel.exec, Option.some.injEq] at hr
    exact ends_of_wp (close_wp h) hr

lemma ok_of_mem {α : Type} {e : Except Panic α} {x : α} (h : x ∈ e.toOption) : e = .ok x := by
  cases e <;> simp_all [Except.toOption]

lemma Good.wraps (h : Sound s) (ha : ¬ Room s a) {r : Except Panic (Unit × St P)}
    (hr : LinkModel.exec s a = some r) : ∃ t, r = .ok ((), t) ∧ Wrapped t := by
  cases a with
  | link p start path =>
    simp only [LinkModel.exec, Option.ite_none_right_eq_some, Option.some.injEq] at hr
    simp only [Room, not_forall] at ha
    obtain ⟨x, hx, ip, hip, hd, hn⟩ := ha
    refine ends_of_wp (linkOld_wraps h (h.begins hr.1.1) (t := x.2) ?_ hd hn) hr.2
    rw [ok_of_mem hx, ← Option.mem_def.mp hip]
  | create start path type ok ok' keep =>
    simp only [LinkModel.exec, Option.ite_none_right_eq_some, Option.some.injEq] at hr
    simp only [Room, not_forall] at ha
    obtain ⟨rfl, x, hx, q, hq, hm, hn⟩ := ha
    refine ends_of_wp (create_wraps h (h.begins hr.1.1) (t := x.2) ?_ hm hn) hr.2
    rw [ok_of_mem hx, ← Option.mem_def.mp hq]
  | _ => exact absurd trivial ha

lemma reach_sound (h : Reach step Kept WellFormed s) : Sound s := by
  refine h.invariant (I := fun s : St P => Sound s) (fun s hs => hs.sound) ?_
  intro s a t hg ha hs
  simp only [step] at hs
  split at hs
  · rename_i u v hx
    obtain ⟨w, he, hw⟩ := hg.exec ha hx
    cases he
    cases hs
    exact hw
  · cases hs

def InRange (s : St P) : Prop :=
  ∀ i, (s.inode i).type ≠ .free → 0 ≤ (s.inode i).nlink ∧ (s.inode i).nlink ≤ 32767

omit [DecidableEq P] in
lemma Good.inRange (h : Sound s) : InRange s := fun i hi =>
  ⟨(Int.natCast_nonneg _).trans (h.counts.acc i hi), h.counts.high i hi⟩

/-- **Link counts, where they have room.** In every run from a well-formed file system in which no
link count is incremented at 32767 and no directory loses its last link while another one has it for
its parent, in every state that is reached: link counts are between 0 and 32767; no next action ends
in a panic; every entry of a directory, `.` and `..` too, names an inode that is allocated; and a
next step that increments a link count at 32767 takes it out of its range. -/
theorem nlink_in_range (h : Reach step Kept WellFormed s) :
    InRange s ∧ (∀ a, Kept s a → panics s a = none) ∧
    (∀ d, (s.inode d).type = .dir → ∀ e ∈ (s.inode d).ents, e.inum ≠ 0 →
      (s.inode e.inum).type ≠ .free) ∧
    ∀ a t, Keeps s a → step s a = some t → (Room s a ↔ InRange t) := by
  have hg := reach_sound h
  refine ⟨hg.inRange, fun a ha => ?_, fun d hd e he h0 => ?_, fun a t hk hs => ⟨fun hr => ?_, ?_⟩⟩
  · unfold panics
    split
    · rename_i hx
      obtain ⟨t, he, -⟩ := hg.exec ha hx
      cases he
    · rfl
  · exact hg.counts.entry (by simp) hd he h0
  · exact (reach_sound (h.step ⟨hr, hk⟩ hs)).inRange
  · intro hin
    by_contra hr
    simp only [step] at hs
    split at hs
    · rename_i hx
      cases hs
      obtain ⟨_, he, i, ht, hn⟩ := hg.wraps hr hx
      cases he
      have := (hin i ht).1
      omega
    · cases hs

/-! ### The largest link count -/

def letter (a : ℕ) : UInt8 := UInt8.ofNat (97 + a % 26)

def label (k : ℕ) : Name := [letter k, letter (k / 26), letter (k / 676)]

def many : List Entry := (List.range 16383).map fun k => ⟨2, label k⟩

lemma letter_toNat (a : ℕ) : (letter a).toNat = 97 + a % 26 := by
  have h : ∀ b < 26, (UInt8.ofNat (97 + b)).toNat = 97 + b := by decide
  exact h _ (Nat.mod_lt _ (by decide))

lemma proper_label (k : ℕ) : proper (label k) = true := by
  have h : ∀ a, letter a ≠ 0 ∧ letter a ≠ slash := by
    intro a
    have h1 := letter_toNat a
    refine ⟨fun h0 => ?_, fun h0 => ?_⟩
    all_goals
      rw [h0] at h1
      simp [slash] at h1
      omega
  simp [proper, label, DIRSIZ, (h _).1.symm, (h _).2.symm]

lemma label_injOn {j k : ℕ} (hj : j < 17576) (hk : k < 17576) (h : label j = label k) :
    j = k := by
  simp only [label, List.cons.injEq, and_true] at h
  have h1 := congrArg UInt8.toNat h.1
  have h2 := congrArg UInt8.toNat h.2.1
  have h3 := congrArg UInt8.toNat h.2.2
  simp only [letter_toNat] at h1 h2 h3
  omega

lemma many_proper : (∀ e ∈ many, proper e.name = true) ∧ (many.map Entry.name).Nodup := by
  refine ⟨fun e he => ?_, ?_⟩
  · obtain ⟨k, -, rfl⟩ := List.mem_map.mp he
    exact proper_label k
  · rw [many, List.map_map]
    refine List.Nodup.map_on (fun j hj k hk h => label_injOn ?_ ?_ h) List.nodup_range
    all_goals
      simp only [List.mem_range] at hj hk
      omega

lemma live_label (k : ℕ) : live ⟨2, label k⟩ = true := by
  simp [live, label, dot, dotdot]

lemma cnt_many (i : ℕ) : cnt i many = if i = 2 then 16383 else 0 := by
  rw [cnt, many, List.countP_map]
  split_ifs with hi
  · rw [List.countP_eq_length.mpr, List.length_range]
    intro k _
    simp [live_label, hi]
  · refine List.countP_eq_zero.mpr fun k _ => ?_
    simp [Ne.symm hi]

def fullInode (i : ℕ) : Inode :=
  match i with
  | 1 => ⟨.dir, 4, [⟨1, dot⟩, ⟨1, dotdot⟩, ⟨2, [102]⟩, ⟨3, [97]⟩, ⟨4, [98]⟩, ⟨5, [99]⟩]⟩
  | 2 => ⟨.file, 32767, []⟩
  | 3 => ⟨.dir, 1, [⟨3, dot⟩, ⟨1, dotdot⟩]⟩
  | 4 => ⟨.dir, 1, ⟨4, dot⟩ :: ⟨1, dotdot⟩ :: many⟩
  | 5 => ⟨.dir, 1, ⟨5, dot⟩ :: ⟨1, dotdot⟩ :: many⟩
  | _ => ⟨.free, 0, []⟩

/-- A file system with the directories `a`, `b` and `c`, and a file with the name `f` in the root
and 16383 names in each of `b` and `c`. -/
def full : St Unit where
  ninodes := 8
  inode := fullInode
  ref := fun _ => 0
  valid := fun _ => false
  opened := []
  linking := fun _ => none

lemma names_full (i : ℕ) : names 8 fullInode i =
    (if i = 2 then 32767 else 0) + if i ∈ [3, 4, 5] then 1 else 0 := by
  have hdots : ∀ a, cnt i (⟨a, dot⟩ :: ⟨1, dotdot⟩ :: many) = cnt i many := fun a => by
    simp [cnt, live]
  have h4 : cnt i (fullInode 4).ents = cnt i many := hdots 4
  have h5 : cnt i (fullInode 5).ents = cnt i many := hdots 5
  simp only [names, Finset.sum_range_succ, Finset.sum_range_zero, h4, h5, cnt_many]
  simp [cnt, fullInode, live, dot, dotdot, List.countP_cons]
  split_ifs <;> omega

lemma dirs_full (i : ℕ) : dirs fullInode (fullInode i).ents = if i = 1 then 3 else 0 := by
  have hmany : ∀ a, dirs fullInode (⟨a, dot⟩ :: ⟨1, dotdot⟩ :: many) = 0 := by
    refine fun a => List.countP_eq_zero.mpr fun e he => ?_
    rcases List.mem_cons.mp he with rfl | he
    · simp [live]
    rcases List.mem_cons.mp he with rfl | he
    · simp [live]
    · obtain ⟨k, -, rfl⟩ := List.mem_map.mp he
      simp [fullInode]
  obtain _ | _ | _ | _ | _ | _ | _ := i
  iterate 4 · decide
  · exact hmany 4
  · exact hmany 5
  · rfl

lemma full_exact (i : ℕ) : (full.inode i).type = .free ∨ ((base i + names 8 full.inode i +
    dirs full.inode (full.inode i).ents : ℕ) : ℤ) = (full.inode i).nlink := by
  change (fullInode i).type = .free ∨ ((base i + names 8 fullInode i +
    dirs fullInode (fullInode i).ents : ℕ) : ℤ) = (fullInode i).nlink
  rw [names_full, dirs_full]
  match i with
  | 0 | 1 | 2 | 3 | 4 | 5 => decide
  | _ + 6 => exact Or.inl rfl

lemma full_wellFormed : WellFormed full := by
  refine ⟨⟨fun i hi => ?_, fun i hi => ?_, fun i hi => ?_, fun i hi => ⟨?_, rfl⟩, fun i hi => ?_,
    fun i _ hi => ?_, rfl⟩, fun i => rfl, by simp [full], fun _ => rfl, by decide⟩
  · match i, hi with
    | 0, hi => exact absurd rfl hi
    | 1, _ | 2, _ | 3, _ | 4, _ | 5, _ => decide
    | _ + 6, hi => exact absurd rfl hi
  · have hex := (full_exact i).resolve_left hi
    rw [← Nat.add_zero (base i + _ + _)] at hex
    exact hex.le
  · match i with
    | 0 | 1 | 2 | 3 | 4 | 5 => decide
    | _ + 6 => exact (by decide : (0 : ℤ) ≤ 32767)
  · change names 8 fullInode i = 0
    rw [names_full]
    match i, hi with
    | 0, _ => rfl
    | i + 6, _ => simp
  · match i, hi with
    | 0, _ | 2, _ | _ + 6, _ => rfl
    | 1, hi | 3, hi | 4, hi | 5, hi => exact absurd rfl hi
  · have hmany : ∀ e ∈ many, e.inum ≠ 0 → live e = true := fun e he _ => by
      obtain ⟨k, -, rfl⟩ := List.mem_map.mp he
      exact live_label k
    match i, hi with
    | 1, _ => exact ⟨⟨1, _, rfl, by decide⟩, rfl, by decide⟩
    | 3, _ => exact ⟨⟨1, _, rfl, by decide⟩, rfl, by decide⟩
    | 4, _ | 5, _ => exact ⟨⟨1, _, rfl, hmany⟩, rfl, by decide⟩

/-- `mkdir("d")`, a new file `d/g`, and the first half of `link("d/g", "a/g")`. -/
def linking : List (Act Unit) := [.create 1 [[100]] .dir true true false,
  .create 1 [[100], [103]] .file true true false, .link () 1 [[100], [103]]]

/-- Its second half, `unlink("d/g")` and `unlink("d")`. -/
def unlinking : List (Act Unit) :=
  [.linkNew () 1 [[97], [103]] true, .unlink 1 [[100], [103]], .unlink 1 [[100]]]

/-- `mkdir("d")`, `mkdir("d/c")`, `open("d/c")`, `unlink("d/c")` and `unlink("d")`. -/
def orphaning : List (Act Unit) := [.create 1 [[100]] .dir true true false,
  .create 1 [[100], [99]] .dir true true false, .openOld 1 [[100], [99]],
  .unlink 1 [[100], [99]], .unlink 1 [[100]]]

lemma exists_of_any {α : Type} {o : Option α} {p : α → Prop} [DecidablePred p]
    (h : (o.any fun a => p a) = true) : ∃ a, o = some a ∧ p a := by
  cases o with
  | none => cases h
  | some a => exact ⟨a, rfl, of_decide_eq_true h⟩

theorem nlink_in_range_links : ∃ t, run (guarded step Kept) full (linking ++ unlinking) = some t ∧
    ((t.inode 6).type = .free ∧ (t.inode 7).nlink = 1) ∧
    ∀ d, (t.inode d).type = .dir → ∀ e ∈ (t.inode d).ents, e.inum ≠ 0 →
      (t.inode e.inum).type ≠ .free := by
  obtain ⟨t, ht, hp⟩ := exists_of_any (o := run (guarded step Kept) full (linking ++ unlinking))
    (p := fun t => (t.inode 6).type = .free ∧ (t.inode 7).nlink = 1) (by decide +kernel)
  exact ⟨t, ht, hp, (nlink_in_range (Reach.of_guarded (.init full_wellFormed) ht)).2.2.1⟩

/-- **The link count wraps.** In a well-formed file system with exact link counts, all of whose
names a call can make, `link("f", "a/n")` takes the count of the file from 32767 to -32768 and makes
the new entry, and the next `unlink("f")` panics, although the file has 32768 names. **And an inode
is freed that an entry names.** After `mkdir("d")`, `mkdir("d/c")`, `open("d/c")`, `unlink("d/c")`
and `unlink("d")`, none of which increments a link count at 32767, the `..` of the directory that is
open names a free inode, and following it panics. -/
theorem nlink_wraps : WellFormed full ∧
    (∀ i, (full.inode i).type = .free ∨ ((base i + names 8 full.inode i +
      dirs full.inode (full.inode i).ents : ℕ) : ℤ) = (full.inode i).nlink) ∧
    ((∀ e ∈ many, proper e.name = true) ∧ (many.map Entry.name).Nodup) ∧
    (∃ t u, step full (.link () 1 [[102]]) = some t ∧ (t.inode 2).nlink = -32768 ∧
      step t (.linkNew () 1 [[97], [110]] true) = some u ∧
      panics u (.unlink 1 [[102]]) = some .nlinkLow) ∧
    ∃ t, run step full orphaning = some t ∧
      (t.inode 7).type = .dir ∧ (⟨6, dotdot⟩ : Entry) ∈ (t.inode 7).ents ∧
      (t.inode 6).type = .free ∧ panics t (.openOld 7 [dotdot]) = some .noType := by
  refine ⟨full_wellFormed, full_exact, many_proper, ⟨_, _, rfl, by decide, rfl, rfl⟩, ?_⟩
  exact exists_of_any (by decide +kernel)

/-- **Link counts cover names.** Also with calls of `sys_link` half way through: a link count is at
least the number of names, subdirectories and names that calls have counted but not made yet, and
every directory begins with `.` and with a `..` that names a directory with links. -/
theorem links_cover_names (h : Reach step Kept WellFormed s) :
    (∀ i, (s.inode i).type ≠ .free → ((base i + names s.ninodes s.inode i +
      dirs s.inode (s.inode i).ents + pend s i : ℕ) : ℤ) ≤ (s.inode i).nlink) ∧
    ∀ d, (s.inode d).type = .dir →
      Shape d (s.inode d).ents ∧ Stays s.inode (parent (s.inode d).ents) :=
  ⟨(reach_sound h).counts.acc, fun d => (reach_sound h).counts.shape d (by simp)⟩

theorem links_cover_names_linking : ∃ t, run (guarded step Kept) full linking = some t ∧
    (t.inode 7).nlink = 2 ∧ pend t 7 = 1 ∧ names t.ninodes t.inode 7 + pend t 7 ≤ 2 ∧
    Shape 6 (t.inode 6).ents := by
  obtain ⟨t, ht, h6, h7, h2, hl⟩ := exists_of_any (o := run (guarded step Kept) full linking)
    (p := fun t => (t.inode 6).type = .dir ∧ (t.inode 7).type = .file ∧ (t.inode 7).nlink = 2 ∧
      t.linking () = some 7) (by decide +kernel)
  have h := links_cover_names (Reach.of_guarded (.init full_wellFormed) ht)
  have hc := h.1 7 (by rw [h7]; decide)
  exact ⟨t, ht, h2, by simp [pend, hl], by omega, (h.2 6 h6).1⟩

end Xv6.LinkSafe
