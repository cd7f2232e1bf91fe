import Xv6.FsPath

/-!
Orphans after a crash.

`ireclaim` goes over all inodes and frees those that are allocated and have no link: it takes a
reference and drops it again, and `iput` does the rest. What a round changes is said by `Cleared`,
and the rounds compose.
-/

namespace Xv6.FsReclaim

open Bytes Params FsLayout Threads Alone FsModel FsCode FsImage
open Function FsContent FsWrite FsFile FsPath

variable {n : ℕ} {p : Fin n} {sb : Superblock} {blk blk' : Blocks} {s t : St n} {i : ℕ}
  {e : Ent} {T : Ent → Inode n} {c : Core} {ip : Ent}

def ireclaimFrom (sb : Superblock) : ℕ → ℕ → Kernel Unit
  | 0, _ => pure ()
  | k + 1, inum => do
    ireclaimOne sb inum
    ireclaimFrom sb k (inum + 1)

def ireclaim (sb : Superblock) : Kernel Unit := ireclaimFrom sb (sb.ninodes - 1) 1

def Orphan (sb : Superblock) (blk : Blocks) (i : ℕ) : Prop :=
  (inode sb blk i).type ≠ 0 ∧ (inode sb blk i).nlink = 0

def cleared (d : Dinode) : Dinode := { d with type := 0, size := 0, addrs := fun _ => 0 }

/-- The inodes `S` have been freed, with their blocks, and nothing else has changed. -/
structure Cleared (sb : Superblock) (S : ℕ → Prop) (blk blk' : Blocks) : Prop where
  freed : ∀ j < sb.ninodes, S j → inode sb blk' j = cleared (inode sb blk j)
  others : ∀ j < sb.ninodes, ¬ S j → inode sb blk' j = inode sb blk j
  data : ∀ b, sb.dataStart ≤ b → blk' b = blk b
  marks : ∀ b < sb.size, used sb blk' b = true ↔ used sb blk b = true ∧
    ¬ (b ≠ 0 ∧ ∃ j < sb.ninodes, S j ∧ ∃ k ≤ MAXFILE, b = ref (inode sb blk) blk j k)

/-! ### Freeing one inode -/

lemma cleared_of {x y : Core} (hsb : sb.Ok) (hi : i < sb.ninodes) (hd : c.d = inode sb c.blk i)
    (h : Truncated sb i c x) (hb : y.blk = x.blk) (hy : y.d = { x.d with type := 0 }) :
    Cleared sb (· = i) c.blk (save sb i y).blk ∧
      Wf sb (inode sb (save sb i y).blk) (save sb i y).blk := by
  have hino : inodes sb i c = inode sb c.blk := by
    rw [inodes, hd, update_eq_self]
  have hfits : y.d.Fits := by
    have hx := h.wf.fits i hi
    rw [inodes_self] at hx
    rw [hy]
    exact ⟨by norm_num, hx.major, hx.minor, hx.nlink, hx.size, hx.addrs, hx.rest⟩
  have hself : inode sb (save sb i y).blk i = y.d := save_self hfits
  have hle : sb.bmapstart ≤ sb.dataStart := by
    rw [Superblock.dataStart, add_assoc]
    exact Nat.le_add_right _ _
  refine ⟨⟨?_, fun j hj hne => ?_, fun b hb' => ?_, fun b hb' => ?_⟩, ?_⟩
  · rintro j hj rfl
    rw [hself, hy, h.fields, hd]
    rfl
  · rw [save_ne hne, hb]
    exact h.others j hj hne
  · rw [save_data hsb hi (hle.trans hb'), hb]
    exact h.data b hb'
  · rw [save_used hsb hi, hb, h.marks b hb', hino]
    refine and_congr_right fun _ => not_congr (and_congr_right fun _ => ?_)
    constructor
    · rintro ⟨k, hk, rfl⟩
      exact ⟨i, hi, rfl, k, hk, rfl⟩
    · rintro ⟨_, -, rfl, k, hk, rfl⟩
      exact ⟨k, hk, rfl⟩
  · have hsame : ∀ j, (inodes sb i y j).addrs = (inodes sb i x j).addrs ∧
        (inodes sb i y j).size = (inodes sb i x j).size := by
      intro j
      by_cases hj : j = i
      · rw [hj, inodes_self, inodes_self, hy]
        exact ⟨rfl, rfl⟩
      · rw [inodes_ne hj, inodes_ne hj, hb]
        exact ⟨rfl, rfl⟩
    have hwf : Wf sb (inodes sb i y) y.blk := by
      rw [hb]
      refine h.wf.congr (fun j k _ => ref_congr (hsame j).1 (fun _ => rfl) k) (fun _ _ hu => hu)
        hsb.data (fun j _ => (hsame j).2) fun j hj => ?_
      by_cases hji : j = i
      · rw [hji, inodes_self]
        exact hfits
      · have hx := h.wf.fits j hj
        rw [inodes_ne hji, ← hb] at hx
        rwa [inodes_ne hji]
    have hsave := save_wf hsb hi hwf
    have heq : inodes sb i (save sb i y) = inode sb (save sb i y).blk := by
      change update (inode sb (save sb i y).blk) i y.d = _
      rw [← hself, update_eq_self]
    rwa [heq] at hsave

/-- The state after the locked inode of entry `e` was freed, and the reference dropped. -/
structure Put (sb : Superblock) (e : Ent) (i : ℕ) (s t : St n) : Prop where
  itable : t.itable = update s.itable e { s.itable e with
    ref := (s.itable e).ref - 1, lock := none, valid := false, d := (t.itable e).d }
  blkLock : t.blkLock = s.blkLock
  cwd : t.cwd = s.cwd
  outstanding : t.outstanding = s.outstanding
  blk : Cleared sb (· = i) s.blk t.blk
  wf : Wf sb (inode sb t.blk) t.blk

lemma blkLock_eq {t : St n} (h : Locked p e i s) (h' : Locked p e i t) :
    t.blkLock = s.blkLock := funext fun b => (h'.buffers b).trans (h.buffers b).symm

def untyped (c : Core) : Core := { c with d := { c.d with type := 0 } }

lemma emptied_runs {good : User → Prop} (hsb : sb.Ok) (h : Wf sb (inodes sb i c) c.blk)
    (hi : i < sb.ninodes) (hl : c.lk = fun _ => false) :
    runs ip i good (do
      itrunc sb ip
      let d ← getI ip
      setI ip { d with type := 0 }
      iupdate sb ip) c fun _ c' => ∃ x, Truncated sb i c x ∧ c' = save sb i (untyped x) ∧
        Logs sb i ∅ c c' := by
  refine (itrunc_runs hsb h hi hl).seq fun _ x hx => ?_
  refine do_getI (do_setI (iupdate_last (hx.lk.trans hl) ⟨x, hx, rfl, ?_⟩))
  refine hx.log.trans (fun b hb => ?_) fun k hk => absurd hk (Finset.notMem_empty k)
  rcases Finset.mem_insert.mp hb with rfl | hb
  · exact .inr (.inl rfl)
  · exact .inl hb

lemma freeing_runs (hsb : sb.Ok) (hi : i < sb.ninodes) (h : Locked p e i s)
    (hd : (s.itable e).d = inode sb s.blk i) (hwf : Wf sb (inode sb s.blk) s.blk)
    (hroom : s.lh.length + truncBlocks sb < LOGBLOCKS) :
    alone (exec p) Accessible (do
      itrunc sb e
      let d ← getI e
      setI e { d with type := 0 }
      iupdate sb e
      setValid e false
      releasesleep e
      unref e) s fun _ t => Put sb e i s t := by
  have hwf' : Wf sb (inodes sb i (core e s)) (core e s).blk := by
    rw [inodes, show (core e s).d = inode sb (core e s).blk i from hd, update_eq_self]
    exact hwf
  have hfirst := h.runs (emptied_runs hsb hwf' hi h.lk) fun _ c hc => ?_
  · have hall := hfirst.seq (f := fun _ => do
      setValid e false
      releasesleep e
      unref e) (Q := fun _ t => Put sb e i s t) ?_
    · simpa only [bind_assoc] using hall
    rintro _ x ⟨hrest, ⟨_, ⟨y, hy, rfl, -⟩, hc, -⟩, hlx⟩
    have hlk : x.blkLock = s.blkLock := blkLock_eq h (hlx (by rw [hc]; exact hy.lk))
    obtain ⟨hcl, hw⟩ := cleared_of (y := untyped y) hsb hi hd hy rfl rfl
    have hxb : x.blk = (save sb i (untyped y)).blk := congrArg Core.blk hc
    rw [← hxb] at hcl hw
    refine alone_step (fun u _ => rfl) ?_
    refine alone_step (fun u _ => rfl) ?_
    refine alone_ask (fun u _ => rfl) ?_
    refine ⟨?_, hlk, hrest.cwd, hrest.outstanding, hcl, hw⟩
    simp only [St.setInode, update_self, update_idem]
    rw [hrest.itable]
    simp only [update_self, update_idem]
  · obtain ⟨x, -, -, hlog⟩ := hc
    have hcard := hlog.card
    have h0 : (core e s).log.card = 0 := rfl
    rw [Finset.card_empty] at hcard
    unfold truncBlocks at hroom
    exact .inr (by omega)

lemma iput_frees (hsb : sb.Ok) (hwf : Wf sb (inode sb s.blk) s.blk)
    (hb : ∀ b, s.blkLock b = none) (hop : 1 ≤ s.outstanding) (h : At s T t)
    (hT : Table sb s.blk p none T) (hr : (T e).ref = 1) (hv : (T e).valid = true)
    (hn : (inode sb s.blk (T e).inum).nlink = 0)
    (hroom : s.lh.length + truncBlocks sb < LOGBLOCKS) :
    alone (exec p) Accessible (iput sb e) t fun _ t' =>
      Put sb e (T e).inum (t.setInode e { T e with lock := some p }) t' := by
  have he : 0 < (T e).ref := by omega
  have hd := hT.copy e he hv
  have hlock : (T e).lock = none := (hT.lock e).trans (if_neg (by simp))
  have h1 := h.set e { T e with lock := some p }
  have hl1 : Locked p e (T e).inum (t.setInode e { T e with lock := some p }) := by
    refine ⟨?_, ?_, ?_, fun b => (congrFun h1.blkLock b).trans (hb b), h1.outstanding ▸ hop⟩ <;>
      rw [h1.itable, update_self]
    exact hv
  rw [iput]
  refine alone_step (r := true) (t := t.setInode e { T e with lock := some p })
    (fun u _ => ?_) ?_
  · simp only [exec, h.itable]
    rw [if_pos ⟨hr, hv, by rw [hd, hn]⟩, if_pos hlock]
  rw [if_pos rfl]
  refine freeing_runs hsb (hT.inum e he) hl1 ?_ ?_ ?_
  · rw [h1.itable, update_self, h1.blk]
    exact hd
  · rw [h1.blk]
    exact hwf
  · have := h1.header
    omega

/-! ### Rounds -/

/-- What holds between the rounds: inodes in use have a link, there is room in the table, and the
log is empty. -/
structure Boot (sb : Superblock) (p : Fin n) (s : St n) : Prop where
  wf : Wf sb (inode sb s.blk) s.blk
  table : Table sb s.blk p none s.itable
  buffers : ∀ b, s.blkLock b = none
  room : 0 < free s.itable
  live : ∀ e, 0 < (s.itable e).ref → (inode sb s.blk (s.itable e).inum).nlink ≠ 0
  idle : s.outstanding = 0
  header : s.lh = []

/-- No lock, reference or transaction is left behind. -/
structure Clean (s t : St n) : Prop where
  blkLock : t.blkLock = s.blkLock
  cwd : t.cwd = s.cwd
  outstanding : t.outstanding = s.outstanding
  header : t.lh = s.lh
  ref : ∀ e, (t.itable e).ref = (s.itable e).ref
  inodes : ∀ e, 0 < (s.itable e).ref → t.itable e = s.itable e
  lock : ∀ e, (t.itable e).lock = (s.itable e).lock

lemma Clean.refl (s : St n) : Clean s s :=
  ⟨rfl, rfl, rfl, rfl, fun _ => rfl, fun _ _ => rfl, fun _ => rfl⟩

lemma Clean.trans {u : St n} (h : Clean s t) (h' : Clean t u) : Clean s u :=
  ⟨h'.blkLock.trans h.blkLock, h'.cwd.trans h.cwd, h'.outstanding.trans h.outstanding,
    h'.header.trans h.header,
    fun e => (h'.ref e).trans (h.ref e),
    fun e he => (h'.inodes e (by rw [h.ref e]; exact he)).trans (h.inodes e he),
    fun e => (h'.lock e).trans (h.lock e)⟩

/-- Inodes without a link are not in the table, so that freeing them changes nothing there. -/
lemma Boot.next {S : ℕ → Prop} (h : Boot sb p s) (hc : Clean s t) (hcl : Cleared sb S s.blk t.blk)
    (hS : ∀ j, S j → (inode sb s.blk j).nlink = 0) (hwf : Wf sb (inode sb t.blk) t.blk) :
    Boot sb p t := by
  have hkeep : ∀ e, 0 < (t.itable e).ref → 0 < (s.itable e).ref ∧ t.itable e = s.itable e ∧
      inode sb t.blk (s.itable e).inum = inode sb s.blk (s.itable e).inum := by
    intro e he
    have hs : 0 < (s.itable e).ref := by rwa [← hc.ref e]
    exact ⟨hs, hc.inodes e hs, hcl.others _ (h.table.inum e hs) fun hSe => h.live e hs (hS _ hSe)⟩
  refine ⟨hwf, ⟨fun e e' he he' hi => ?_, fun e he => ?_, fun e he => ?_, fun e he hv => ?_,
    fun e => ?_⟩, fun b => ?_, ?_, fun e he => ?_, hc.outstanding.trans h.idle,
    hc.header.trans h.header⟩
  · obtain ⟨h1, h2, -⟩ := hkeep e he
    obtain ⟨h1', h2', -⟩ := hkeep e' he'
    rw [h2, h2'] at hi
    exact h.table.once e e' h1 h1' hi
  · obtain ⟨h1, h2, -⟩ := hkeep e he
    rw [h2]
    exact h.table.inum e h1
  · obtain ⟨h1, h2, h3⟩ := hkeep e he
    rw [h2, h3]
    exact h.table.type e h1
  · obtain ⟨h1, h2, h3⟩ := hkeep e he
    rw [h2] at hv ⊢
    rw [h3]
    exact h.table.copy e h1 hv
  · rw [hc.lock e]
    exact h.table.lock e
  · rw [hc.blkLock]
    exact h.buffers b
  · have hfree : free t.itable = free s.itable := by
      unfold free
      exact total_congr fun e => by rw [hc.ref e]
    rw [hfree]
    exact h.room
  · obtain ⟨h1, h2, h3⟩ := hkeep e he
    rw [h2, h3]
    exact h.live e h1

lemma Cleared.none {S : ℕ → Prop} (h : ∀ j, ¬ S j) (blk : Blocks) : Cleared sb S blk blk :=
  ⟨fun j _ hj => absurd hj (h j), fun _ _ _ => rfl, fun _ _ => rfl,
    fun _ _ => ⟨fun hu => ⟨hu, fun ⟨_, j, _, hj, _⟩ => h j hj⟩, And.left⟩⟩

lemma relock (h : ∀ b, s.blkLock b = none) (b : ℕ) :
    update (update s.blkLock b (some p)) b none = s.blkLock := by
  rw [update_idem, ← h b, update_eq_self]

lemma endOp_at (h : s.outstanding = 1) : alone (exec p) Accessible endOp s fun _ t =>
    t.itable = s.itable ∧ t.blk = s.blk ∧ t.blkLock = s.blkLock ∧ t.cwd = s.cwd ∧
      t.outstanding = 0 ∧ t.lh = [] :=
  have h0 : s.outstanding - 1 = 0 := by rw [h]
  alone_ask (fun _ _ => if_pos h0) ⟨rfl, rfl, rfl, rfl, h0, rfl⟩

lemma ireclaimOne_live (hb : ∀ b, s.blkLock b = none) (ho : ¬ Orphan sb s.blk i) :
    alone (exec p) Accessible (ireclaimOne sb i) s fun _ t => Clean s t ∧ t.blk = s.blk := by
  unfold Orphan inode at ho
  rw [ireclaimOne]
  refine alone_step (fun u _ => if_pos (hb _)) ?_
  rw [if_neg ho]
  refine alone_ask (fun u _ => if_pos (update_self _ _ _)) ?_
  exact ⟨⟨relock hb _, rfl, rfl, rfl, fun _ => rfl, fun _ _ => rfl, fun _ => rfl⟩, rfl⟩

lemma ireclaimOne_orphan (hsb : sb.Ok) (hmap : truncBlocks sb < LOGBLOCKS) (h : Boot sb p s)
    (hi : i < sb.ninodes) (ho : Orphan sb s.blk i) :
    alone (exec p) Accessible (ireclaimOne sb i) s fun _ t => Clean s t ∧
      Cleared sb (· = i) s.blk t.blk ∧ Wf sb (inode sb t.blk) t.blk := by
  have ho' := ho
  unfold Orphan inode at ho'
  rw [ireclaimOne]
  refine alone_step (fun u _ => if_pos (h.buffers _)) ?_
  rw [if_pos ho']
  refine (iget_at (At.refl { s with
    blkLock := update s.blkLock (sb.IBLOCK i) (some p) }) h.room i).seq ?_
  rintro e t ⟨hs, ht⟩
  change Slotted s.itable i e at hs
  have hfresh : (s.itable e).ref = 0 := by
    by_contra hne
    have hpos : 0 < (s.itable e).ref := Nat.pos_of_ne_zero hne
    have hlive := h.live e hpos
    rw [hs.used hpos] at hlive
    exact hlive ho.2
  obtain ⟨hgi, hgr⟩ := got_self hs
  have hge : 0 < (got s.itable e i e).ref := by omega
  have hTG := h.table.got hs hi ho.1
  have hTL := hTG.lockedAt hge
  refine alone_step (fun u _ => if_pos ((congrFun ht.blkLock _).trans
    (update_self _ _ _))) ?_
  have hidle : t.outstanding = 0 := ht.outstanding.trans h.idle
  have hempty : t.lh.length = 0 := Nat.le_zero.mp (ht.header.trans (by rw [h.header]; rfl))
  refine alone_step (fun u _ => if_neg ?_) ?_
  · simp only [hidle, hempty]
    decide
  -- the transaction runs in `x`, which is `s` with one more operation
  let x : St n := { s with outstanding := s.outstanding + 1 }
  have hx : At x (got s.itable e i)
      { t with
        blkLock := update t.blkLock (sb.IBLOCK i) none
        outstanding := t.outstanding + 1 } := by
    refine ⟨ht.itable, ht.blk, ?_, ht.cwd, ?_, ht.disk, ht.header⟩
    · rw [ht.blkLock]
      exact relock h.buffers _
    · rw [ht.outstanding]
  refine (ilock_at (s := x) h.buffers hx hTG hge).seq fun _ t1 h1 => ?_
  refine (iunlock_at h1 ((hTL.lock e).trans (if_pos rfl)) (by rw [lockedAt_ref]; exact hge)).seq
    fun _ t2 h2 => ?_
  have hT2 : unlockedAt (lockedAt sb x.blk p (got s.itable e i) e) e e =
      { inum := i, ref := 1, lock := none, valid := true, d := inode sb x.blk i } := by
    simp only [unlockedAt, lockedAt, got, if_neg (Nat.not_lt.mpr hfresh.le), update_self]
  have hput := iput_frees (s := x) hsb h.wf h.buffers (Nat.le_add_left 1 _) h2 hTL.unlockedAt
    (by rw [hT2]) (by rw [hT2]) (by rw [hT2]; exact ho.2) (by
      rw [show x.lh = [] from h.header, List.length_nil, Nat.zero_add]
      exact hmap)
  refine hput.seq fun _ t3 h3 => ?_
  have hone : t3.outstanding = 1 := by
    rw [h3.outstanding]
    exact h2.outstanding.trans (congrArg (· + 1) h.idle)
  refine (endOp_at hone).mono fun _ t4 h4 => ?_
  obtain ⟨h4i, h4b, h4l, h4c, h4o, h4h⟩ := h4
  have hne : ∀ y, y ≠ e → t4.itable y = s.itable y := by
    intro y hy
    rw [h4i, h3.itable, update_of_ne hy, St.setInode]
    simp only [update_of_ne hy, h2.itable, unlockedAt, lockedAt]
    exact got_of_ne hy
  have hself : (t4.itable e).ref = 0 ∧ (t4.itable e).lock = none := by
    rw [h4i, h3.itable, update_self, St.setInode]
    simp only [update_self, hT2, and_self]
  rw [hT2] at h3
  refine ⟨⟨?_, ?_, h4o.trans h.idle.symm, h4h.trans h.header.symm, fun y => ?_, fun y hy => ?_,
    fun y => ?_⟩, ?_, ?_⟩
  · rw [h4l, h3.blkLock]
    exact h2.blkLock
  · rw [h4c, h3.cwd]
    exact h2.cwd
  · rcases eq_or_ne y e with rfl | hy
    · rw [hself.1, hfresh]
    · rw [hne y hy]
  · refine hne y ?_
    rintro rfl
    omega
  · rcases eq_or_ne y e with rfl | hy
    · rw [hself.2, h.table.lock y, if_neg (by simp)]
    · rw [hne y hy]
  · rw [h4b, ← show (t2.setInode e _).blk = s.blk from h2.blk]
    exact h3.blk
  · rw [h4b]
    exact h3.wf

/-! ### All inodes -/

section Compose

variable {S S' : ℕ → Prop} {j : ℕ}

lemma Cleared.congr (h : Cleared sb S blk blk') (hS : ∀ j < sb.ninodes, S j ↔ S' j) :
    Cleared sb S' blk blk' := by
  refine ⟨fun j hj hs => h.freed j hj ((hS j hj).mpr hs),
    fun j hj hs => h.others j hj fun hc => hs ((hS j hj).mp hc), h.data, fun b hb => ?_⟩
  refine (h.marks b hb).trans (and_congr_right fun _ => not_congr (and_congr_right fun _ => ?_))
  exact exists_congr fun j => and_congr_right fun hj => and_congr_left fun _ => hS j hj

lemma Cleared.ref_eq (hwf : Wf sb (inode sb blk) blk) (h : Cleared sb S blk blk')
    (hj : j < sb.ninodes) (hS : ¬ S j) (k : ℕ) :
    ref (inode sb blk') blk' j k = ref (inode sb blk) blk j k :=
  ref_congr (by rw [h.others j hj hS]) (fun h0 => h.data _ (hwf.ind_range hj h0).1) k

lemma Cleared.byteAt_eq (hwf : Wf sb (inode sb blk) blk) (h : Cleared sb S blk blk')
    (hj : j < sb.ninodes) (hS : ¬ S j) {q : ℕ} (hq : q < (inode sb blk j).size) :
    byteAt (inode sb blk') blk' j q = byteAt (inode sb blk) blk j q := by
  have hq' : q < MAXFILE * BSIZE := lt_of_lt_of_le hq (hwf.small j hj)
  have ha : addr (inode sb blk') blk' j (q / BSIZE) = addr (inode sb blk) blk j (q / BSIZE) :=
    h.ref_eq hwf hj hS _
  rw [byteAt, byteAt, ha]
  split_ifs with h0
  · rfl
  · rw [h.data _ (hwf.addr_range hj (div_lt hq') h0).1]

lemma Cleared.trans {blk'' : Blocks} (hwf : Wf sb (inode sb blk) blk) (h : Cleared sb S blk blk')
    (h' : Cleared sb S' blk' blk'') (hdis : ∀ j, S' j → ¬ S j) :
    Cleared sb (fun j => S j ∨ S' j) blk blk'' := by
  refine ⟨fun j hj hs => ?_, fun j hj hs => ?_, fun b hb => (h'.data b hb).trans (h.data b hb),
    fun b hb => ?_⟩
  · by_cases hs' : S' j
    · rw [h'.freed j hj hs', h.others j hj (hdis j hs')]
    · rw [h'.others j hj hs', h.freed j hj (hs.resolve_right hs')]
  · rw [h'.others j hj fun hc => hs (.inr hc), h.others j hj fun hc => hs (.inl hc)]
  · rw [h'.marks b hb, h.marks b hb]
    constructor
    · rintro ⟨⟨hu, h1⟩, h2⟩
      refine ⟨hu, ?_⟩
      rintro ⟨h0, j, hj, hs | hs, k, hk, hb⟩
      · exact h1 ⟨h0, j, hj, hs, k, hk, hb⟩
      · exact h2 ⟨h0, j, hj, hs, k, hk, by rw [h.ref_eq hwf hj (hdis j hs)]; exact hb⟩
    · rintro ⟨hu, h1⟩
      refine ⟨⟨hu, ?_⟩, ?_⟩
      · rintro ⟨h0, j, hj, hs, hr⟩
        exact h1 ⟨h0, j, hj, .inl hs, hr⟩
      · rintro ⟨h0, j, hj, hs, k, hk, hb⟩
        rw [h.ref_eq hwf hj (hdis j hs)] at hb
        exact h1 ⟨h0, j, hj, .inr hs, k, hk, hb⟩

end Compose

section

variable (hsb : sb.Ok) (hmap : truncBlocks sb < LOGBLOCKS) (h : Boot sb p s)
include hsb hmap h

lemma ireclaimOne_at
    (hi : i < sb.ninodes) :
    alone (exec p) Accessible (ireclaimOne sb i) s fun _ t => Boot sb p t ∧ Clean s t ∧
      Cleared sb (fun j => j = i ∧ Orphan sb s.blk j) s.blk t.blk := by
  by_cases ho : Orphan sb s.blk i
  · refine (ireclaimOne_orphan hsb hmap h hi ho).mono ?_
    rintro _ t ⟨hc, hcl, hwf⟩
    refine ⟨h.next hc hcl (fun j hj => hj ▸ ho.2) hwf, hc, hcl.congr fun j _ => ?_⟩
    exact ⟨fun hj => ⟨hj, hj ▸ ho⟩, And.left⟩
  · refine (ireclaimOne_live h.buffers ho).mono ?_
    rintro _ t ⟨hc, hb⟩
    have hcl : Cleared sb (fun j => j = i ∧ Orphan sb s.blk j) s.blk t.blk := by
      rw [hb]
      refine Cleared.none ?_ _
      rintro j ⟨rfl, hj⟩
      exact ho hj
    refine ⟨h.next hc hcl (fun j hj => hj.2.2) ?_, hc, hcl⟩
    rw [hb]
    exact h.wf

/-- The rounds one after the other; an inode is looked at in its own round only. -/
lemma ireclaimFrom_at
    {k m : ℕ} (hk : m + k ≤ sb.ninodes) :
    alone (exec p) Accessible (ireclaimFrom sb k m) s fun _ t => Boot sb p t ∧ Clean s t ∧
      Cleared sb (fun j => m ≤ j ∧ j < m + k ∧ Orphan sb s.blk j) s.blk t.blk := by
  induction k generalizing m s with
  | zero =>
    exact alone_pure.mpr ⟨h, Clean.refl s, Cleared.none (fun j hj => by omega) _⟩
  | succ k ih =>
    rw [ireclaimFrom]
    refine (ireclaimOne_at hsb hmap h (by omega)).seq ?_
    rintro _ t ⟨hb, hc, hcl⟩
    refine (ih hb (m := m + 1) (by omega)).mono ?_
    rintro _ u ⟨hb', hc', hcl'⟩
    refine ⟨hb', hc.trans hc', (hcl.trans h.wf hcl' ?_).congr fun j hj => ?_⟩
    · rintro j ⟨hj, -⟩ ⟨hjm, -⟩
      omega
    have hor : j ≠ m → (Orphan sb t.blk j ↔ Orphan sb s.blk j) := fun hne => by
      rw [Orphan, hcl.others j hj fun hc => hne hc.1, Orphan]
    by_cases hjm : j = m
    · subst hjm
      exact ⟨fun hj => hj.elim (fun hj => ⟨le_rfl, by omega, hj.2⟩) fun hj => by omega,
        fun hj => .inl ⟨rfl, hj.2.2⟩⟩
    · rw [hor hjm]
      exact ⟨fun hj => hj.elim (fun hj => absurd hj.1 hjm) fun hj => ⟨by omega, by omega, hj.2.2⟩,
        fun hj => .inr ⟨by omega, by omega, hj.2.2⟩⟩

end

/-! ### A file with an indirect block, and a directory -/

def orphanSb : Superblock := ⟨20, 4, 0, 2, 2, 3⟩

/-- The disk inodes: the root with one block, a file of thirteen blocks and a directory. The file
and the directory have no link. -/
def orphanInode (i : ℕ) : Dinode :=
  if i = 1 then ⟨T_DIR, 0, 0, 1, 32, fun k => if k = 0 then 4 else 0⟩
  else if i = 2 then ⟨T_FILE, 0, 0, 0, 13312, fun k => if k ≤ NDIRECT then 5 + k else 0⟩
  else if i = 3 then ⟨T_DIR, 0, 0, 0, 32, fun k => if k = 0 then 19 else 0⟩
  else ⟨0, 0, 0, 0, 0, fun _ => 0⟩

/-- Block 17 is the indirect block of the file, and has block 18. -/
def orphanBlocks : Blocks := fun b =>
  if b = 2 then (List.range 4).foldl (fun v i => Dinode.put v (slotOff i) (orphanInode i))
    (Buf.fill BSIZE 0)
  else if b = 3 then Buf.fill BSIZE 0xff
  else if b = 4 then dirBlock [⟨1, [46]⟩, ⟨1, [46, 46]⟩]
  else if b = 17 then (Buf.fill BSIZE 0).setLE 0 4 18
  else if b = 19 then dirBlock [⟨3, [46]⟩, ⟨1, [46, 46]⟩]
  else Buf.fill BSIZE 97

def orphanRef (i k : ℕ) : ℕ :=
  if i = 1 ∧ k = 0 then 4 else if i = 2 ∧ k ≤ 13 then 5 + k else if i = 3 ∧ k = 0 then 19 else 0

lemma orphan_ref : ∀ i < 4, ∀ k ≤ MAXFILE,
    ref (inode orphanSb orphanBlocks) orphanBlocks i k = orphanRef i k := by decide +kernel

lemma orphan_inode : ∀ i < 4, (inode orphanSb orphanBlocks i).type = (orphanInode i).type ∧
    (inode orphanSb orphanBlocks i).nlink = (orphanInode i).nlink ∧
    (inode orphanSb orphanBlocks i).size = (orphanInode i).size := by decide +kernel

lemma orphan_used : ∀ b < 20, used orphanSb orphanBlocks b = true := by decide +kernel

lemma orphan_ok : orphanSb.Ok := by
  refine ⟨by decide, by decide, by decide, by decide, by decide, by decide⟩

lemma orphan_wf : Wf orphanSb (inode orphanSb orphanBlocks) orphanBlocks := by
  have hd : orphanSb.dataStart = 4 := by decide
  have hz : orphanSb.size = 20 := rfl
  refine ⟨fun i k hs hne => ?_, fun i k j l hs hs' hne he => ?_,
    fun b hb => orphan_used b (by omega), fun i bn hi hb => ?_, fun i hi => ?_,
    fun i hi => Dinode.get_fits _ _⟩
  · rw [orphan_ref i hs.1 k hs.2] at hne ⊢
    have hlt : 4 ≤ orphanRef i k ∧ orphanRef i k < 20 := by
      unfold orphanRef at hne ⊢
      split_ifs at hne ⊢ <;> omega
    exact ⟨by omega, by omega, orphan_used _ hlt.2⟩
  · rw [orphan_ref i hs.1 k hs.2] at hne he
    rw [orphan_ref j hs'.1 l hs'.2] at he
    unfold orphanRef at hne he
    split_ifs at hne he <;> omega
  · rw [(orphan_inode i hi).2.2] at hb
    have hsize : (orphanInode i).size ≤ 13312 := by
      unfold orphanInode
      split_ifs <;> decide
    have hbn : bn < 13 := by
      change bn * 1024 < _ at hb
      omega
    have hslot := slot_addr hi (hbn.trans (by decide : 13 < MAXFILE))
    rw [addr, orphan_ref i hslot.1 _ hslot.2]
    change bn * 1024 < _ at hb
    unfold orphanInode at hb
    unfold orphanRef slotOf NDIRECT
    split_ifs at hb ⊢ <;> simp only at hb <;> omega
  · rw [(orphan_inode i hi).2.2]
    unfold orphanInode
    split_ifs <;> decide

def orphaned : St 1 where
  blk := orphanBlocks
  blkLock := fun _ => none
  itable := fun _ => ⟨0, 0, none, false, ⟨0, 0, 0, 0, 0, fun _ => 0⟩⟩
  cwd := fun _ => none
  outstanding := 0
  disk := orphanBlocks
  lh := []

lemma orphan_boot : Boot orphanSb 0 orphaned := by
  have hno : ∀ e : Ent, ¬ 0 < (orphaned.itable e).ref := fun e => by simp [orphaned]
  exact ⟨orphan_wf,
    ⟨fun e _ he => absurd he (hno e), fun e he => absurd he (hno e), fun e he => absurd he (hno e),
      fun e he => absurd he (hno e), fun e => rfl⟩, fun _ => rfl,
    free_pos (e := ⟨0, by decide⟩) rfl, fun e he => absurd he (hno e), rfl, rfl⟩

lemma orphan_iff : ∀ j < 4, Orphan orphanSb orphanBlocks j ↔ j = 2 ∨ j = 3 := by
  have hall : ∀ j < 4, (orphanInode j).type ≠ 0 ∧ (orphanInode j).nlink = 0 ↔ j = 2 ∨ j = 3 := by
    decide
  intro j hj
  obtain ⟨h1, h2, -⟩ := orphan_inode j hj
  rw [Orphan, h1, h2]
  exact hall j hj

end Xv6.FsReclaim
