import Mathlib.Data.Finset.Card
import Xv6.Alone
import Xv6.FsImage

/-!
The content of an inode, as the process sees it that holds its lock.

While a process is between `ilock` and `iunlock`, its functions read and write blocks, the
inode it has locked, and nothing else. `Core` is that part of the state, with the set of blocks
that were passed to `log_write`: `Logs` bounds it, and with it the room that a call needs in the
header of the log.
-/

namespace Xv6.FsContent

open Function

open Bytes Params FsLayout Threads Alone FsModel FsCode FsImage

/-- The blocks, those whose buffers are locked, the inode in memory, and the blocks logged. -/
structure Core where
  blk : Blocks
  lk : ℕ → Bool
  d : Dinode
  log : Finset ℕ

def execCore (ip : Ent) (inum : ℕ) (o : Op) (u : User) (c : Core) : Option (o.Resp × Core) :=
  match o with
  | .bread b => if c.lk b then none else some
    (c.blk b, { c with lk := update c.lk b true })
  | .bset b v => if c.lk b then some ((), { c with blk := update c.blk b v }) else none
  | .logWrite b => if c.lk b then some ((), { c with log := insert b c.log }) else none
  | .brelse b => if c.lk b then some ((), { c with lk := update c.lk b false }) else none
  | .inumOf e => if e = ip then some (inum, c) else none
  | .getI e => if e = ip then some (c.d, c) else none
  | .setI e d => if e = ip then some ((), { c with d := d }) else none
  | .user => some (u, c)
  | _ => none

abbrev runs {α : Type} (ip : Ent) (inum : ℕ) (good : User → Prop) (m : Kernel α) (c : Core)
    (Q : α → Core → Prop) : Prop :=
  alone (execCore ip inum) good m c Q

variable {ip : Ent} {i : ℕ} {good : User → Prop} {c : Core} {α β : Type} {Q : α → Core → Prop}
  {b : ℕ}

/-! ### Single requests -/

lemma do_bread {k : Block → Kernel α} (h : c.lk b = false)
    (hk : runs ip i good (k (c.blk b)) { c with lk := update c.lk b true } Q) :
    runs ip i good (bread b >>= k) c Q :=
  alone_step (fun _ _ => by simp [execCore, h]) hk

lemma do_bset {k : Unit → Kernel α} {v : Block} (h : c.lk b = true)
    (hk : runs ip i good (k ()) { c with blk := update c.blk b v } Q) :
    runs ip i good (bset b v >>= k) c Q :=
  alone_step (fun _ _ => by simp [execCore, h]) hk

lemma do_logWrite {k : Unit → Kernel α} (h : c.lk b = true)
    (hk : runs ip i good (k ()) { c with log := insert b c.log } Q) :
    runs ip i good (logWrite b >>= k) c Q :=
  alone_step (fun _ _ => by simp [execCore, h]) hk

lemma do_brelse {k : Unit → Kernel α} (h : c.lk b = true)
    (hk : runs ip i good (k ()) { c with lk := update c.lk b false } Q) :
    runs ip i good (brelse b >>= k) c Q :=
  alone_step (fun _ _ => by simp [execCore, h]) hk

lemma do_getI {k : Dinode → Kernel α} (hk : runs ip i good (k c.d) c Q) :
    runs ip i good (getI ip >>= k) c Q :=
  alone_step (fun _ _ => by simp [execCore]) hk

lemma do_setI {k : Unit → Kernel α} {d : Dinode} (hk : runs ip i good (k ()) { c with d := d } Q) :
    runs ip i good (setI ip d >>= k) c Q :=
  alone_step (fun _ _ => by simp [execCore]) hk

lemma do_inumOf {k : ℕ → Kernel α} (hk : runs ip i good (k i) c Q) :
    runs ip i good (inumOf ip >>= k) c Q :=
  alone_step (fun _ _ => by simp [execCore]) hk

lemma release {lk : ℕ → Bool} (h : lk b = false) :
    update (update lk b true) b false = lk := by
  rw [update_idem, ← h, update_eq_self]

lemma do_put {v : Block} {k : Kernel α} (h : c.lk b = false)
    (hk : runs ip i good k
      { c with blk := update c.blk b v, log := insert b c.log } Q) :
    runs ip i good (do bset b v; logWrite b; brelse b; k)
      { c with lk := update c.lk b true } Q := by
  refine do_bset (update_self _ _ _) (do_logWrite (update_self _ _ _)
    (do_brelse (update_self _ _ _) ?_))
  rw [release h]
  exact hk

lemma do_leave {k : Kernel α} (h : c.lk b = false) (hk : runs ip i good k c Q) :
    runs ip i good (do brelse b; k) { c with lk := update c.lk b true } Q := by
  refine do_brelse (update_self _ _ _) ?_
  rw [release h]
  exact hk

/-! ### Blocks -/

variable {sb : Superblock} {a : ℕ}

lemma bzero_runs {k : Kernel α} (h : c.lk b = false)
    (hk : runs ip i good k { c with
      blk := update c.blk b (Buf.fill BSIZE 0)
      log := insert b c.log } Q) :
    runs ip i good (do bzero b; k) c Q := by
  rw [bzero]
  simp only [bind_assoc]
  exact do_bread h (do_put h hk)

lemma findFree_some {v : Block} {k bi r : ℕ} (h : findFree sb v b k bi = some r) :
    bi ≤ r ∧ r < bi + k ∧ b + r < sb.size ∧ bit v r = false := by
  induction k generalizing bi with
  | zero => simp [findFree] at h
  | succ k ih =>
    rw [findFree] at h
    split_ifs at h with h1 h2
    · obtain ⟨h3, h4, h5, h6⟩ := ih h
      exact ⟨by omega, by omega, h5, h6⟩
    · obtain rfl : bi = r := Option.some.inj h
      exact ⟨le_rfl, by omega, h1, by simpa using h2⟩

lemma findFree_none {v : Block} {k bi r : ℕ} (h : findFree sb v b k bi = none) (h1 : bi ≤ r)
    (h2 : r < bi + k) (h3 : b + r < sb.size) : bit v r = true := by
  induction k generalizing bi with
  | zero => omega
  | succ k ih =>
    rw [findFree] at h
    split_ifs at h with h4 h5
    · by_cases e : bi = r
      · exact e ▸ h5
      · exact ih h (by omega) (by omega)
    · omega

/-- What `balloc` does: there is no free block, or one is marked as used and zeroed. -/
def Alloc (sb : Superblock) (c : Core) (a : ℕ) (c' : Core) : Prop :=
  a = 0 ∧ c' = c ∧ Full sb c.blk ∨
    sb.dataStart ≤ a ∧ a < sb.size ∧ used sb c.blk a = false ∧
      c' = { c with
        blk := update (mark sb c.blk a) a (Buf.fill BSIZE 0)
        log := insert a (insert (sb.BBLOCK a) c.log) }

def Holds (sb : Superblock) (c : Core) : Prop :=
  ∀ b, c.lk b = true → sb.dataStart ≤ b ∧ used sb c.blk b = true

lemma Holds.low (h : Holds sb c) (hb : b < sb.dataStart) : c.lk b = false := by
  by_contra hc
  have := (h b (by simpa using hc)).1
  omega

lemma Holds.free (h : Holds sb c) (hb : used sb c.blk b = false) : c.lk b = false := by
  by_contra hc
  have := (h b (by simpa using hc)).2
  rw [hb] at this
  cases this

lemma ballocFrom_runs (hl : Holds sb c) (hlow : ∀ b < sb.dataStart, used sb c.blk b)
    (k m : ℕ) (hk : sb.size / BPB < m + k) (hm : ∀ x < m * BPB, x < sb.size → used sb c.blk x) :
    runs ip i good (ballocFrom sb k (m * BPB)) c (Alloc sb c) := by
  have hall : ∀ m, sb.size / BPB < m → (∀ x < m * BPB, x < sb.size → used sb c.blk x) →
      Full sb c.blk := by
    intro m h1 h2 x hx
    refine h2 x ?_ hx
    have := Nat.div_add_mod sb.size BPB
    have hlt : sb.size % BPB < BPB := Nat.mod_lt _ (by decide)
    calc x < sb.size := hx
      _ = BPB * (sb.size / BPB) + sb.size % BPB := this.symm
      _ ≤ BPB * (sb.size / BPB) + BPB := by omega
      _ = (sb.size / BPB + 1) * BPB := by ring
      _ ≤ m * BPB := Nat.mul_le_mul_right _ h1
  induction k generalizing m with
  | zero => exact alone_pure.mpr (.inl ⟨rfl, rfl, hall m (by omega) hm⟩)
  | succ k ih =>
    rw [ballocFrom]
    split_ifs with h1
    · have hbb := hl.low (bblock_lt h1)
      have hdiv : ∀ r < BPB, (m * BPB + r) / BPB = m ∧ (m * BPB + r) % BPB = r := by
        intro r hr
        unfold BPB at hr ⊢
        omega
      have hmap : ∀ r < BPB, sb.BBLOCK (m * BPB + r) = sb.BBLOCK (m * BPB) := by
        intro r hr
        have h0 := hdiv 0 (by decide)
        rw [Nat.add_zero] at h0
        rw [Superblock.BBLOCK, Superblock.BBLOCK, (hdiv r hr).1, h0.1]
      refine do_bread hbb ?_
      cases hf : findFree sb (c.blk (sb.BBLOCK (m * BPB))) (m * BPB) BPB 0 with
      | some r =>
        obtain ⟨-, hr, hsz, hbit⟩ := findFree_some hf
        rw [Nat.zero_add] at hr
        have hfree : used sb c.blk (m * BPB + r) = false := by
          rw [used, hmap r hr, (hdiv r hr).2]
          exact hbit
        have hdata : sb.dataStart ≤ m * BPB + r := by
          by_contra hc
          have := hlow (m * BPB + r) (by omega)
          rw [hfree] at this
          cases this
        refine do_put hbb ?_
        refine bzero_runs (hl.free hfree) ?_
        refine alone_pure.mpr (.inr ⟨hdata, hsz, hfree, ?_⟩)
        rw [mark, hmap r hr, (hdiv r hr).2]
      | none =>
        refine do_leave hbb ?_
        rw [show m * BPB + BPB = (m + 1) * BPB by ring]
        refine ih (m + 1) (by omega) fun x hx hxs => ?_
        by_cases hlt : x < m * BPB
        · exact hm x hlt hxs
        · obtain ⟨r, rfl⟩ := Nat.exists_eq_add_of_le (Nat.not_lt.mp hlt)
          have hr : r < BPB := by
            rw [Nat.add_mul, Nat.one_mul] at hx
            omega
          rw [used, hmap r hr, (hdiv r hr).2]
          exact findFree_none hf (Nat.zero_le _) (by omega) hxs
    · refine alone_pure.mpr (.inl ⟨rfl, rfl, fun x hx => hm x (by omega) hx⟩)

lemma balloc_runs (hl : Holds sb c) (hlow : ∀ b < sb.dataStart, used sb c.blk b) :
    runs ip i good (balloc sb) c (Alloc sb c) := by
  have h : runs ip i good (ballocFrom sb (sb.size / BPB + 1) (0 * BPB)) c (Alloc sb c) :=
    ballocFrom_runs hl hlow _ 0 (by omega) fun x hx => by omega
  rwa [Nat.zero_mul] at h

lemma bfree_runs {k : Kernel α} (hl : c.lk (sb.BBLOCK b) = false) (hu : used sb c.blk b = true)
    (hk : runs ip i good k
      { c with blk := unmark sb c.blk b, log := insert (sb.BBLOCK b) c.log } Q) :
    runs ip i good (do bfree sb b; k) c Q := by
  rw [bfree]
  simp only [bind_assoc]
  refine do_bread hl ?_
  rw [used] at hu
  rw [if_pos hu]
  simp only [bind_assoc]
  exact do_put hl hk

/-! ### Changes that keep the contents -/

/-- The inodes: the locked one from memory, the others from the disk. -/
def inodes (sb : Superblock) (i : ℕ) (c : Core) : ℕ → Dinode :=
  update (inode sb c.blk) i c.d

def bitmaps (sb : Superblock) : Finset ℕ :=
  (Finset.range (sb.size / BPB + 1)).image (· + sb.bmapstart)

lemma bblock_mem (ha : a < sb.size) : sb.BBLOCK a ∈ bitmaps sb :=
  Finset.mem_image_of_mem _ (Finset.mem_range.mpr
    (Nat.lt_succ_of_le (Nat.div_le_div_right ha.le)))

/-- What was logged from `c₀` to `c`: the block of the inode, blocks of the bitmap, and blocks of
the inode's content in the slots `K`. -/
def Logs (sb : Superblock) (i : ℕ) (K : Finset ℕ) (c₀ c : Core) : Prop :=
  ∀ b ∈ c.log, b ∈ c₀.log ∨ b = sb.IBLOCK i ∨ b ∈ bitmaps sb ∨
    b ≠ 0 ∧ ∃ k ∈ K, k ≤ MAXFILE ∧ b = ref (inodes sb i c) c.blk i k

section Logs

variable {K K' : Finset ℕ} {c₀ c' : Core}

lemma Logs.refl (K : Finset ℕ) (c : Core) : Logs sb i K c c := fun _ hb => .inl hb

lemma Logs.mono (h : Logs sb i K c₀ c) (hK : K ⊆ K') : Logs sb i K' c₀ c := fun b hb =>
  (h b hb).imp_right (Or.imp_right (Or.imp_right fun ⟨h0, k, hk, h1⟩ => ⟨h0, k, hK hk, h1⟩))

/-- References that are kept stay the same, so that what was logged before still counts. -/
lemma Logs.trans (h : Logs sb i K c₀ c) (h' : Logs sb i K c c')
    (hrefs : ∀ k ∈ K, k ≤ MAXFILE → ref (inodes sb i c) c.blk i k ≠ 0 →
      ref (inodes sb i c') c'.blk i k = ref (inodes sb i c) c.blk i k) : Logs sb i K c₀ c' := by
  intro b hb
  rcases h' b hb with h1 | h1
  · rcases h b h1 with h2 | h2 | h2 | ⟨h0, k, hk, hle, rfl⟩
    · exact .inl h2
    · exact .inr (.inl h2)
    · exact .inr (.inr (.inl h2))
    · exact .inr (.inr (.inr ⟨h0, k, hk, hle, (hrefs k hk hle h0).symm⟩))
  · exact .inr h1

lemma Logs.quiet (h : Logs sb i ∅ c₀ c)
    (hlog : ∀ b ∈ c'.log, b ∈ c.log ∨ b ∈ bitmaps sb) : Logs sb i ∅ c₀ c' := by
  refine h.trans (fun b hb => ?_) fun k hk => absurd hk (Finset.notMem_empty k)
  exact (hlog b hb).imp_right fun h1 => .inr (.inl h1)

lemma Logs.card (h : Logs sb i K c₀ c) :
    c.log.card ≤ c₀.log.card + (sb.size / BPB + 1) + K.card + 1 := by
  have hsub : c.log ⊆ insert (sb.IBLOCK i)
      (c₀.log ∪ bitmaps sb ∪ K.image (ref (inodes sb i c) c.blk i)) := by
    intro b hb
    rcases h b hb with h1 | h1 | h1 | ⟨-, k, hk, -, rfl⟩
    · simp [h1]
    · simp [h1]
    · simp [h1]
    · exact Finset.mem_insert_of_mem
        (Finset.mem_union_right _ (Finset.mem_image_of_mem _ hk))
  have hbits : (bitmaps sb).card ≤ sb.size / BPB + 1 :=
    Finset.card_image_le.trans (Finset.card_range _).le
  calc c.log.card
      ≤ (c₀.log ∪ bitmaps sb ∪ K.image (ref (inodes sb i c) c.blk i)).card + 1 :=
        (Finset.card_le_card hsub).trans (Finset.card_insert_le _ _)
    _ ≤ (c₀.log ∪ bitmaps sb).card + (K.image (ref (inodes sb i c) c.blk i)).card + 1 :=
        Nat.add_le_add_right (Finset.card_union_le _ _) 1
    _ ≤ c₀.log.card + (bitmaps sb).card + K.card + 1 :=
        Nat.add_le_add_right (Nat.add_le_add (Finset.card_union_le _ _) Finset.card_image_le) 1
    _ ≤ c₀.log.card + (sb.size / BPB + 1) + K.card + 1 := by omega

end Logs

lemma inodes_self (sb : Superblock) (i : ℕ) (c : Core) : inodes sb i c i = c.d :=
  update_self _ _ _

lemma inodes_ne {j : ℕ} (h : j ≠ i) : inodes sb i c j = inode sb c.blk j :=
  update_of_ne h _ _

/-- Blocks may have been added to the inode, and nothing else has changed. -/
structure Kept (sb : Superblock) (i : ℕ) (c c' : Core) : Prop where
  wf : Wf sb (inodes sb i c') c'.blk
  lk : c'.lk = c.lk
  fields : c'.d = { c.d with addrs := c'.d.addrs }
  bytes : ∀ j q, j < sb.ninodes → q < MAXFILE * BSIZE →
    byteAt (inodes sb i c') c'.blk j q = byteAt (inodes sb i c) c.blk j q
  disk : ∀ j, j < sb.ninodes → inode sb c'.blk j = inode sb c.blk j
  refs : ∀ j k, Slot sb j k → j ≠ i ∨ ref (inodes sb i c) c.blk j k ≠ 0 →
    ref (inodes sb i c') c'.blk j k = ref (inodes sb i c) c.blk j k
  marks : ∀ b < sb.size, used sb c.blk b → used sb c'.blk b

lemma Kept.refl (h : Wf sb (inodes sb i c) c.blk) : Kept sb i c c :=
  ⟨h, rfl, rfl, fun _ _ _ _ => rfl, fun _ _ => rfl, fun _ _ _ _ => rfl, fun _ _ h => h⟩

lemma Kept.trans {c' c'' : Core} (h : Kept sb i c c') (h' : Kept sb i c' c'') :
    Kept sb i c c'' := by
  refine ⟨h'.wf, h'.lk.trans h.lk, ?_, fun j q hj hq => ?_, fun j hj => ?_, fun j k hs hor => ?_,
    fun b hb hu => h'.marks b hb (h.marks b hb hu)⟩
  · rw [h'.fields, h.fields]
  · rw [h'.bytes j q hj hq, h.bytes j q hj hq]
  · rw [h'.disk j hj, h.disk j hj]
  · have h1 := h.refs j k hs hor
    rw [h'.refs j k hs (hor.imp_right fun h0 => h1.symm ▸ h0), h1]

abbrev allocated (sb : Superblock) (blk : Blocks) (a : ℕ) : Blocks :=
  update (mark sb blk a) a (Buf.fill BSIZE 0)

variable {blk : Blocks}

lemma allocated_ne (ha : a < sb.size) (hb : sb.dataStart ≤ b) (hne : b ≠ a) :
    allocated sb blk a b = blk b := by
  have := bblock_lt ha
  rw [allocated, update_of_ne hne, mark, update_of_ne (by omega)]

lemma used_allocated (ha : sb.dataStart ≤ a) (hb : b < sb.size) :
    used sb (allocated sb blk a) b = true ↔ b = a ∨ used sb blk b = true := by
  rw [allocated, used_update ha hb, used_mark]

lemma inode_allocated {j : ℕ} (hsb : sb.Ok) (ha : sb.dataStart ≤ a) (hj : j < sb.ninodes) :
    inode sb (allocated sb blk a) j = inode sb blk j := by
  have hle : sb.bmapstart ≤ sb.dataStart := by
    rw [Superblock.dataStart, add_assoc]
    exact Nat.le_add_right _ _
  rw [allocated, inode_update hsb (hle.trans ha) hj, mark, inode_update hsb (bmapstart_le _) hj]

lemma kept_of {k : ℕ} {c' : Core} (h : Wf sb (inodes sb i c) c.blk) (hs : Slot sb i k)
    (h0 : ref (inodes sb i c) c.blk i k = 0) (hself : ref (inodes sb i c') c'.blk i k = a)
    (ha : sb.dataStart ≤ a ∧ a < sb.size) (hfree : used sb c.blk a = false)
    (hne : ∀ j l, Slot sb j l → ¬(j = i ∧ l = k) →
      ref (inodes sb i c') c'.blk j l = ref (inodes sb i c) c.blk j l)
    (hused : ∀ b < sb.size, used sb c'.blk b = true ↔ b = a ∨ used sb c.blk b = true)
    (hlk : c'.lk = c.lk) (hd : c'.d = { c.d with addrs := c'.d.addrs })
    (hfits : c'.d.Fits) (hdis : ∀ j, j < sb.ninodes → inode sb c'.blk j = inode sb c.blk j)
    (hzero : c'.blk a = Buf.fill BSIZE 0)
    (hdata : ∀ j bn, j < sb.ninodes → bn < MAXFILE → addr (inodes sb i c) c.blk j bn ≠ 0 →
      c'.blk (addr (inodes sb i c) c.blk j bn) = c.blk (addr (inodes sb i c) c.blk j bn)) :
    Kept sb i c c' := by
  have hsize : ∀ j, j < sb.ninodes → (inodes sb i c' j).size = (inodes sb i c j).size := by
    intro j hj
    by_cases e : j = i
    · subst e
      rw [inodes_self, inodes_self, hd]
    · rw [inodes_ne e, inodes_ne e, hdis j hj]
  have hall : ∀ j, j < sb.ninodes → (inodes sb i c' j).Fits := by
    intro j hj
    by_cases e : j = i
    · subst e
      rw [inodes_self]
      exact hfits
    · rw [inodes_ne e]
      exact Dinode.get_fits _ _
  refine ⟨h.add hs h0 hself ha hfree hne hused hsize hall, hlk, hd, fun j q hj hq => ?_, hdis,
    fun j l hl hor => ?_, fun b hb hu => (hused b hb).mpr (.inr hu)⟩
  · exact byteAt_add h0 hself hzero hne hdata hj hq
  · refine hne j l hl ?_
    rintro ⟨rfl, rfl⟩
    rcases hor with hor | hor
    · exact hor rfl
    · exact hor h0

lemma logs_alloc {K : Finset ℕ} {k : ℕ} {c' : Core} (ha : sb.dataStart ≤ a ∧ a < sb.size)
    (hc : c'.log = insert a (insert (sb.BBLOCK a) c.log)) (hk : k ∈ K) (hle : k ≤ MAXFILE)
    (hself : ref (inodes sb i c') c'.blk i k = a) : Logs sb i K c c' := by
  have hpos : 0 < sb.dataStart := dataStart_pos
  intro b hb
  rw [hc, Finset.mem_insert, Finset.mem_insert] at hb
  rcases hb with rfl | rfl | hb
  · exact .inr (.inr (.inr ⟨by omega, k, hk, hle, hself.symm⟩))
  · exact .inr (.inr (.inl (bblock_mem ha.2)))
  · exact .inl hb

lemma kept_addr {k : ℕ} (hsb : sb.Ok) (h : Wf sb (inodes sb i c) c.blk) (hi : i < sb.ninodes)
    (hk : k ≤ NDIRECT) (h0 : c.d.addrs k = 0) (ha : sb.dataStart ≤ a ∧ a < sb.size)
    (hfree : used sb c.blk a = false) {c' : Core}
    (hc : c' = { c with
      blk := allocated sb c.blk a
      d := { c.d with addrs := update c.d.addrs k a }
      log := insert a (insert (sb.BBLOCK a) c.log) }) :
    Kept sb i c c' ∧ ref (inodes sb i c') c'.blk i k = a ∧ Logs sb i {k} c c' := by
  have hpos : 0 < sb.dataStart := dataStart_pos
  have hdis : ∀ j, j < sb.ninodes → inode sb c'.blk j = inode sb c.blk j := by
    intro j hj
    rw [hc]
    exact inode_allocated hsb ha.1 hj
  have hslot : Slot sb i k := ⟨hi, hk.trans (by decide)⟩
  have hzero : ref (inodes sb i c) c.blk i k = 0 := by
    rw [ref, if_pos hk, inodes_self]
    exact h0
  have hself : ref (inodes sb i c') c'.blk i k = a := by
    rw [ref, if_pos hk, inodes_self, hc]
    exact update_self _ _ _
  have hblk : ∀ b, sb.dataStart ≤ b → b ≠ a → c'.blk b = c.blk b := by
    intro b hb hne
    rw [hc]
    exact allocated_ne ha.2 hb hne
  have hind : ∀ j, j < sb.ninodes → (inodes sb i c j).addrs NDIRECT ≠ 0 →
      c'.blk ((inodes sb i c j).addrs NDIRECT) = c.blk ((inodes sb i c j).addrs NDIRECT) := by
    intro j hj hne
    refine hblk _ (h.ind_range hj hne).1 ?_
    rw [← ref_ind _ c.blk]
    exact h.ref_ne (slot_ind hj) hfree (by omega)
  have hne : ∀ j l, Slot sb j l → ¬(j = i ∧ l = k) →
      ref (inodes sb i c') c'.blk j l = ref (inodes sb i c) c.blk j l := by
    intro j l hs hx
    by_cases hj : j = i
    · subst hj
      have hl : l ≠ k := fun e => hx ⟨rfl, e⟩
      have haddr : ∀ l ≠ k, (inodes sb j c' j).addrs l = (inodes sb j c j).addrs l := by
        intro l hl
        rw [inodes_self, inodes_self, hc]
        exact update_of_ne hl _ _
      by_cases hkd : k = NDIRECT
      · subst hkd
        unfold ref
        split_ifs with h1 h2 h3 h3
        · exact haddr l hl
        · rfl
        · rw [inodes_self, hc] at h2
          simp only [update_self] at h2
          omega
        · rw [inodes_self, hc]
          simp only [update_self]
          exact Buf.getLE_fill_zero _ _
        · rw [inodes_self] at h3
          exact absurd h0 h3
      · have h12 := haddr NDIRECT (Ne.symm hkd)
        unfold ref
        rw [h12]
        split_ifs with h1 h2
        · exact haddr l hl
        · rfl
        · rw [hind j hi h2]
    · refine ref_congr ?_ (hind j hs.1) l
      rw [inodes_ne hj, inodes_ne hj, hdis j hs.1]
  have hused : ∀ b < sb.size, used sb c'.blk b = true ↔ b = a ∨ used sb c.blk b = true := by
    intro b hb
    rw [hc]
    exact used_allocated ha.1 hb
  have hfits : c'.d.Fits := by
    have hf := h.fits i hi
    have hlt := hsb.fits
    rw [inodes_self] at hf
    rw [hc]
    refine ⟨hf.type, hf.major, hf.minor, hf.nlink, hf.size, fun l => ?_, fun l hl => ?_⟩
    · by_cases e : l = k
      · subst e
        simp only [update_self]
        omega
      · simp only [update_of_ne e]
        exact hf.addrs l
    · simp only [update_of_ne (show l ≠ k by omega)]
      exact hf.rest l hl
  refine ⟨kept_of h hslot hzero hself ha hfree hne hused (by rw [hc]) (by rw [hc]) hfits hdis
    (by rw [hc]; exact update_self _ _ _) fun j bn hj hbn hb0 => ?_, hself, ?_⟩
  · obtain ⟨h1, -⟩ := h.addr_range hj hbn hb0
    exact hblk _ h1 (h.ref_ne (slot_addr hj hbn) hfree (by omega))
  · exact logs_alloc ha (by rw [hc]) (Finset.mem_singleton_self k) hslot.2 hself

lemma kept_entry {m : ℕ} (hsb : sb.Ok) (h : Wf sb (inodes sb i c) c.blk) (hi : i < sb.ninodes)
    (hm : m < NINDIRECT) (hx : c.d.addrs NDIRECT ≠ 0)
    (h0 : (c.blk (c.d.addrs NDIRECT)).getLE (4 * m) 4 = 0) (ha : sb.dataStart ≤ a ∧ a < sb.size)
    (hfree : used sb c.blk a = false) {c' : Core}
    (hc : c' = { c with
      blk := update (allocated sb c.blk a) (c.d.addrs NDIRECT)
        ((c.blk (c.d.addrs NDIRECT)).setLE (4 * m) 4 a)
      log := insert (c.d.addrs NDIRECT) (insert a (insert (sb.BBLOCK a) c.log)) }) :
    Kept sb i c c' ∧ ref (inodes sb i c') c'.blk i (NDIRECT + 1 + m) = a ∧
      Logs sb i {NDIRECT, NDIRECT + 1 + m} c c' := by
  have hpos : 0 < sb.dataStart := dataStart_pos
  have hlt := hsb.fits
  have hd : c'.d = c.d := by rw [hc]
  have hxr := h.ind_range hi (by rw [inodes_self]; exact hx)
  have hxa : c.d.addrs NDIRECT ≠ a := by
    have := h.ref_ne (slot_ind hi) hfree (by omega)
    rwa [ref_ind, inodes_self] at this
  rw [inodes_self] at hxr
  have hle : sb.bmapstart ≤ sb.dataStart := by
    rw [Superblock.dataStart, add_assoc]
    exact Nat.le_add_right _ _
  have hdis : ∀ j, j < sb.ninodes → inode sb c'.blk j = inode sb c.blk j := by
    intro j hj
    rw [hc]
    exact (inode_update hsb (hle.trans hxr.1) hj _).trans (inode_allocated hsb ha.1 hj)
  have hslot : Slot sb i (NDIRECT + 1 + m) := by
    refine ⟨hi, ?_⟩
    unfold MAXFILE
    omega
  have hgt : ¬ NDIRECT + 1 + m ≤ NDIRECT := by omega
  have hmm : NDIRECT + 1 + m - (NDIRECT + 1) = m := by omega
  have hzero : ref (inodes sb i c) c.blk i (NDIRECT + 1 + m) = 0 := by
    rw [ref, if_neg hgt, inodes_self, if_neg hx, hmm]
    exact h0
  have hxb : c'.blk (c.d.addrs NDIRECT) = (c.blk (c.d.addrs NDIRECT)).setLE (4 * m) 4 a := by
    rw [hc]
    exact update_self _ _ _
  have hself : ref (inodes sb i c') c'.blk i (NDIRECT + 1 + m) = a := by
    rw [ref, if_neg hgt, inodes_self, hd, if_neg hx, hmm, hxb]
    refine Buf.getLE_setLE_of_lt _ ?_ (by omega)
    unfold NINDIRECT at hm
    unfold BSIZE
    omega
  have hblk : ∀ b, sb.dataStart ≤ b → b ≠ a → b ≠ c.d.addrs NDIRECT → c'.blk b = c.blk b := by
    intro b hb hne hne'
    rw [hc]
    exact (update_of_ne hne' _ _).trans (allocated_ne ha.2 hb hne)
  have hne : ∀ j l, Slot sb j l → ¬(j = i ∧ l = NDIRECT + 1 + m) →
      ref (inodes sb i c') c'.blk j l = ref (inodes sb i c) c.blk j l := by
    intro j l hs hxl
    by_cases hj : j = i
    · subst hj
      unfold ref
      rw [inodes_self, inodes_self, hd, if_neg hx, hxb]
      split_ifs with h1
      · rfl
      · refine Buf.getLE_setLE_disjoint _ ?_
        have : l - (NDIRECT + 1) ≠ m := fun e => hxl ⟨rfl, by omega⟩
        omega
    · have hjd : inodes sb i c' j = inodes sb i c j := by
        rw [inodes_ne hj, inodes_ne hj, hdis j hs.1]
      refine ref_congr (by rw [hjd]) (fun hj0 => ?_) l
      refine hblk _ (h.ind_range hs.1 hj0).1 ?_ fun e => ?_
      · rw [← ref_ind _ c.blk]
        exact h.ref_ne (slot_ind hs.1) hfree (by omega)
      · refine hj (h.once j NDIRECT i NDIRECT (slot_ind hs.1) (slot_ind hi) ?_ ?_).1
        · rw [ref_ind]
          exact hj0
        · rw [ref_ind, ref_ind, inodes_self]
          exact e
  have hused : ∀ b < sb.size, used sb c'.blk b = true ↔ b = a ∨ used sb c.blk b = true := by
    intro b hb
    rw [hc]
    refine Iff.trans ?_ (used_allocated ha.1 hb)
    rw [used_update hxr.1 hb]
  have hfits : c'.d.Fits := by
    have hf := h.fits i hi
    rwa [inodes_self, ← hd] at hf
  refine ⟨kept_of h hslot hzero hself ha hfree hne hused (by rw [hc]) (by rw [hd]) hfits hdis ?_
    fun j bn hj hbn hb0 => ?_, hself, fun b hb => ?_⟩
  · rw [hc]
    exact (update_of_ne hxa.symm _ _).trans (update_self _ _ _)
  · obtain ⟨h1, -⟩ := h.addr_range hj hbn hb0
    refine hblk _ h1 (h.ref_ne (slot_addr hj hbn) hfree (by omega)) ?_
    have := h.addr_ne_ind hj hi hbn hb0
    rwa [inodes_self] at this
  · have hlog : c'.log = insert (c.d.addrs NDIRECT) (insert a (insert (sb.BBLOCK a) c.log)) := by
      rw [hc]
    rw [hlog, Finset.mem_insert, Finset.mem_insert, Finset.mem_insert] at hb
    rcases hb with rfl | rfl | rfl | hb
    · refine .inr (.inr (.inr ⟨hx, NDIRECT, Finset.mem_insert_self _ _, by decide, ?_⟩))
      rw [ref_ind, inodes_self, hd]
    · exact .inr (.inr (.inr ⟨by omega, _, by simp, hslot.2, hself.symm⟩))
    · exact .inr (.inr (.inl (bblock_mem ha.2)))
    · exact .inl hb

/-! ### `bmap` -/

lemma addr_direct {bn : ℕ} (h : bn < NDIRECT) :
    addr (inodes sb i c) c.blk i bn = c.d.addrs bn := by
  rw [addr, slotOf, if_pos h, ref, if_pos h.le, inodes_self]

lemma addr_indirect {bn : ℕ} (h : ¬ bn < NDIRECT) : addr (inodes sb i c) c.blk i bn =
    if c.d.addrs NDIRECT = 0 then 0
    else (c.blk (c.d.addrs NDIRECT)).getLE (4 * (bn - NDIRECT)) 4 := by
  rw [addr, slotOf, if_neg h, ref, if_neg (by omega), inodes_self, Nat.add_sub_add_right]

def Mapped (sb : Superblock) (i bn : ℕ) (c : Core) (a : ℕ) (c' : Core) : Prop :=
  Kept sb i c c' ∧ (a = 0 → Full sb c'.blk) ∧
    (a ≠ 0 → addr (inodes sb i c') c'.blk i bn = a) ∧
    (addr (inodes sb i c) c.blk i bn ≠ 0 → c' = c ∧ a = addr (inodes sb i c) c.blk i bn) ∧
    Logs sb i {NDIRECT, slotOf bn} c c'

lemma Kept.logs {K : Finset ℕ} {c₀ c' : Core} (hi : i < sb.ninodes) (h : Logs sb i K c₀ c)
    (hk : Kept sb i c c') (h' : Logs sb i K c c') : Logs sb i K c₀ c' :=
  h.trans h' fun k _ hle h0 => hk.refs i k ⟨hi, hle⟩ (.inr h0)

lemma indirect_runs (hsb : sb.Ok) (h : Wf sb (inodes sb i c) c.blk) (hi : i < sb.ninodes)
    (hl : c.lk = fun _ => false) :
    runs ip i good (if c.d.addrs NDIRECT = 0 then do
        let addr ← balloc sb
        if addr = 0 then pure 0
        else
          let d ← getI ip
          setI ip { d with addrs := update d.addrs NDIRECT addr }
          pure addr
      else pure (c.d.addrs NDIRECT)) c fun a c' => Kept sb i c c' ∧
        (a = 0 → Full sb c'.blk) ∧ (a ≠ 0 → c'.d.addrs NDIRECT = a) ∧
        (c.d.addrs NDIRECT ≠ 0 → c' = c ∧ a = c.d.addrs NDIRECT) ∧
        Logs sb i {NDIRECT} c c' := by
  have hpos : 0 < sb.dataStart := dataStart_pos
  have hold : Holds sb c := fun b hb => by
    rw [hl] at hb
    cases hb
  split_ifs with h0
  · refine (balloc_runs hold h.low).seq ?_
    rintro a c' (⟨rfl, rfl, hfull⟩ | ⟨ha1, ha2, hfree, rfl⟩)
    · rw [if_pos rfl]
      exact alone_pure.mpr ⟨Kept.refl h, fun _ => hfull, fun e => absurd rfl e,
        fun e => absurd h0 e, Logs.refl _ _⟩
    · rw [if_neg (by omega)]
      refine do_getI (do_setI (alone_pure.mpr ?_))
      obtain ⟨hk, -, hlog⟩ := kept_addr hsb h hi le_rfl h0 ⟨ha1, ha2⟩ hfree rfl
      exact ⟨hk, fun e => by omega, fun _ => by simp only [update_self],
        fun e => absurd h0 e, hlog⟩
  · exact alone_pure.mpr ⟨Kept.refl h, fun e => absurd e h0, fun _ => rfl, fun _ => ⟨rfl, rfl⟩,
      Logs.refl _ _⟩

lemma entry_runs {m ind : ℕ} (hsb : sb.Ok) (h : Wf sb (inodes sb i c) c.blk) (hi : i < sb.ninodes)
    (hl : c.lk = fun _ => false) (hm : m < NINDIRECT) (hx : c.d.addrs NDIRECT = ind)
    (h0 : ind ≠ 0) :
    runs ip i good (if (c.blk ind).getLE (4 * m) 4 = 0 then do
        let addr ← balloc sb
        if addr = 0 then pure 0
        else
          bset ind ((c.blk ind).setLE (4 * m) 4 addr)
          logWrite ind
          pure addr
      else pure ((c.blk ind).getLE (4 * m) 4))
      { c with lk := update c.lk ind true } fun a c' => ∃ c₂, Kept sb i c c₂ ∧
        c' = { c₂ with lk := update c.lk ind true } ∧ (a = 0 → Full sb c₂.blk) ∧
        (a ≠ 0 → ref (inodes sb i c₂) c₂.blk i (NDIRECT + 1 + m) = a) ∧
        ((c.blk ind).getLE (4 * m) 4 ≠ 0 → c₂ = c ∧ a = (c.blk ind).getLE (4 * m) 4) ∧
        Logs sb i {NDIRECT, NDIRECT + 1 + m} c c₂ := by
  have hpos : 0 < sb.dataStart := dataStart_pos
  have hxr := h.ind_range hi (by rw [inodes_self, hx]; exact h0)
  rw [inodes_self, hx] at hxr
  split_ifs with hz
  · have hold : Holds sb { c with lk := update c.lk ind true } := by
      intro b hb
      by_cases e : b = ind
      · rw [e]
        exact ⟨hxr.1, hxr.2.2⟩
      · simp only [update_of_ne e, hl] at hb
        cases hb
    refine (balloc_runs hold h.low).seq ?_
    rintro a c₂ (⟨rfl, rfl, hfull⟩ | ⟨ha1, ha2, hfree, rfl⟩)
    · rw [if_pos rfl]
      exact alone_pure.mpr ⟨c, Kept.refl h, rfl, fun _ => hfull, fun e => absurd rfl e,
        fun e => absurd hz e, Logs.refl _ _⟩
    · rw [if_neg (by omega)]
      obtain ⟨hk, hself, hlog⟩ := kept_entry hsb h hi hm (by rw [hx]; exact h0)
        (by rw [hx]; exact hz) ⟨ha1, ha2⟩ hfree rfl
      refine do_bset (update_self _ _ _) (do_logWrite (update_self _ _ _)
        (alone_pure.mpr ⟨_, hk, ?_, fun e => by omega, fun _ => hself, fun e => absurd hz e,
          hlog⟩))
      rw [hx]
  · refine alone_pure.mpr ⟨c, Kept.refl h, rfl, fun e => absurd e hz, fun _ => ?_,
      fun _ => ⟨rfl, rfl⟩, Logs.refl _ _⟩
    rw [ref, if_neg (by omega), inodes_self, hx, if_neg h0, Nat.add_sub_cancel_left]

theorem bmap_runs {bn : ℕ} (hsb : sb.Ok) (h : Wf sb (inodes sb i c) c.blk) (hi : i < sb.ninodes)
    (hl : c.lk = fun _ => false) (hbn : bn < MAXFILE) :
    runs ip i good (bmap sb ip bn) c (Mapped sb i bn c) := by
  have hpos : 0 < sb.dataStart := dataStart_pos
  have hold : Holds sb c := fun b hb => by
    rw [hl] at hb
    cases hb
  rw [bmap]
  split_ifs with h1 h2
  · refine do_getI ?_
    split_ifs with h0
    · refine (balloc_runs hold h.low).seq ?_
      rintro a c' (⟨rfl, rfl, hfull⟩ | ⟨ha1, ha2, hfree, rfl⟩)
      · rw [if_pos rfl]
        refine alone_pure.mpr ⟨Kept.refl h, fun _ => hfull, fun e => absurd rfl e, fun e => ?_,
          Logs.refl _ _⟩
        rw [addr_direct h1] at e
        exact absurd h0 e
      · rw [if_neg (by omega)]
        refine do_getI (do_setI (alone_pure.mpr ?_))
        obtain ⟨hk, -, hlog⟩ := kept_addr hsb h hi h1.le h0 ⟨ha1, ha2⟩ hfree rfl
        refine ⟨hk, fun e => by omega, fun _ => ?_, fun e => ?_, hlog.mono (by simp [slotOf, h1])⟩
        · rw [addr_direct h1]
          exact update_self _ _ _
        · rw [addr_direct h1] at e
          exact absurd h0 e
    · refine alone_pure.mpr ⟨Kept.refl h, fun e => absurd e h0, fun _ => addr_direct h1,
        fun _ => ⟨rfl, (addr_direct h1).symm⟩, Logs.refl _ _⟩
  · refine do_getI ((indirect_runs hsb h hi hl).seq ?_)
    rintro ind c₁ ⟨hk₁, hfull, hind, hsame, hlog₁⟩
    replace hlog₁ : Logs sb i {NDIRECT, slotOf bn} c c₁ := hlog₁.mono (by simp)
    have hsame' : addr (inodes sb i c) c.blk i bn ≠ 0 → c₁ = c ∧ ind ≠ 0 := by
      intro e
      rw [addr_indirect h1] at e
      have hx : c.d.addrs NDIRECT ≠ 0 := fun e' => e (if_pos e')
      obtain ⟨h3, h4⟩ := hsame hx
      exact ⟨h3, h4.symm ▸ hx⟩
    split_ifs with h0
    · refine alone_pure.mpr ⟨hk₁, fun _ => hfull h0, fun e => absurd rfl e, fun e => ?_, hlog₁⟩
      exact absurd h0 (hsame' e).2
    · have hx := hind h0
      have hl₁ : c₁.lk ind = false := by rw [hk₁.lk, hl]
      refine do_bread hl₁ ((entry_runs hsb hk₁.wf hi (hk₁.lk.trans hl) h2 hx h0).seq ?_)
      rintro a _ ⟨c₂, hk, rfl, hfull₂, hself, hsame₂, hlog₂⟩
      have hslot : slotOf bn = NDIRECT + 1 + (bn - NDIRECT) := by
        rw [slotOf, if_neg h1]
        omega
      rw [← hslot] at hlog₂
      have hl₂ : c₂.lk = c₁.lk := hk.lk
      rw [← hl₂]
      refine do_leave (by rw [hl₂]; exact hl₁) (alone_pure.mpr ⟨hk₁.trans hk, hfull₂, ?_, ?_,
        hk.logs hi hlog₁ hlog₂⟩)
      · intro e
        rw [addr, hslot]
        exact hself e
      · intro e
        obtain ⟨rfl, -⟩ := hsame' e
        rw [addr_indirect h1, hx, if_neg h0] at e ⊢
        exact hsame₂ e
  · unfold MAXFILE at hbn
    omega

/-! ### `readi` -/

lemma byteAt_of_addr {q bn : ℕ} (hq : q / BSIZE = bn) (ha : addr (inodes sb i c) c.blk i bn = a)
    (h0 : a ≠ 0) : byteAt (inodes sb i c) c.blk i q = (c.blk a).get (q % BSIZE) := by
  rw [byteAt, hq, ha, if_neg h0]

lemma readiLoop_runs {n : ℕ} (hsb : sb.Ok) (h : Wf sb (inodes sb i c) c.blk) (hi : i < sb.ninodes)
    (hl : c.lk = fun _ => false) (hgood : ∀ u, good u → u.2 = true) (userDst : Bool)
    (k off : ℕ) (got : List UInt8) (hk : n ≤ got.length + k) (hgot : got.length ≤ n)
    (hsz : off + (n - got.length) ≤ c.d.size) :
    runs ip i good (readiLoop sb ip userDst n k off got) c fun r c' => c' = c ∧
      r = ((n : ℤ), got ++ (List.range (n - got.length)).map fun x =>
        byteAt (inodes sb i c) c.blk i (off + x)) := by
  have hdone : ∀ (off : ℕ) (got : List UInt8), got.length = n →
      runs ip i good (pure ((got.length : ℤ), got)) c fun r c' => c' = c ∧
        r = ((n : ℤ), got ++ (List.range (n - got.length)).map fun x =>
          byteAt (inodes sb i c) c.blk i (off + x)) := by
    intro off got e
    refine alone_pure.mpr ⟨rfl, ?_⟩
    rw [e, Nat.sub_self]
    simp
  have hsmall := h.small i hi
  rw [inodes_self] at hsmall
  induction k generalizing off got with
  | zero => exact hdone off got (by omega)
  | succ k ih =>
    rw [readiLoop]
    by_cases hlt : got.length < n
    · rw [if_pos hlt]
      have hbs : 0 < BSIZE := by decide
      have hmod := Nat.mod_lt off hbs
      have hdiv : off / BSIZE * BSIZE ≤ off := Nat.div_mul_le_self off BSIZE
      have hbn : off / BSIZE < MAXFILE := div_lt (by omega)
      have hin := h.dense i (off / BSIZE) hi (by rw [inodes_self]; omega)
      refine (bmap_runs hsb h hi hl hbn).seq ?_
      rintro a c' ⟨-, -, -, hsame, -⟩
      obtain ⟨rfl, ha⟩ := hsame hin
      have h0 : a ≠ 0 := ha ▸ hin
      rw [if_neg h0]
      have hla : c'.lk a = false := by rw [hl]
      refine do_bread hla ?_
      have hrest : ∀ copied, copied = true → runs ip i good (do
          brelse a
          if copied = true then
            readiLoop sb ip userDst n k (off + min (n - got.length) (BSIZE - off % BSIZE))
              (got ++ slice (c'.blk a) (off % BSIZE)
                (min (n - got.length) (BSIZE - off % BSIZE)))
          else pure (-1, got)) { c' with lk := update c'.lk a true } fun r c'' =>
          c'' = c' ∧ r = ((n : ℤ), got ++ (List.range (n - got.length)).map fun x =>
            byteAt (inodes sb i c') c'.blk i (off + x)) := by
        intro copied hcopied
        refine do_leave hla ?_
        rw [if_pos hcopied]
        generalize hm : min (n - got.length) (BSIZE - off % BSIZE) = m
        have hlen : (got ++ slice (c'.blk a) (off % BSIZE) m).length = got.length + m := by
          simp [slice]
        have hslice : slice (c'.blk a) (off % BSIZE) m = (List.range m).map fun x =>
            byteAt (inodes sb i c') c'.blk i (off + x) := by
          refine List.map_congr_left fun x hx => ?_
          have hx := List.mem_range.mp hx
          have hxb : off % BSIZE + x < BSIZE := by omega
          have h1 : (off + x) / BSIZE = off / BSIZE := by
            unfold BSIZE at hxb ⊢
            omega
          have h2 : (off + x) % BSIZE = off % BSIZE + x := by
            unfold BSIZE at hxb ⊢
            omega
          rw [byteAt_of_addr h1 ha.symm h0, h2]
        refine (ih (off + m) _ (by rw [hlen]; omega) (by rw [hlen]; omega)
          (by rw [hlen]; omega)).mono ?_
        rintro r c'' ⟨rfl, rfl⟩
        refine ⟨rfl, ?_⟩
        rw [hlen, hslice, List.append_assoc, show n - got.length = m + (n - (got.length + m)) by
          omega, List.range_add, List.map_append, List.map_map]
        congr 3
        refine List.map_congr_left fun x _ => ?_
        simp only [comp_apply, add_assoc]
      cases userDst with
      | false => exact hrest true rfl
      | true =>
        refine alone_bind.mpr (alone_bind.mpr (alone_ask_iff.mpr fun u hu => ⟨u, _, rfl, ?_⟩))
        exact alone_pure.mpr (hrest u.2 (hgood u hu))
    · rw [if_neg hlt]
      exact hdone off got (by omega)

def readLen (size off n : ℕ) : ℕ :=
  if size < off ∨ 2 ^ 32 ≤ off + n then 0 else min (off + n) size - off

theorem readi_runs (hsb : sb.Ok) (h : Wf sb (inodes sb i c) c.blk) (hi : i < sb.ninodes)
    (hl : c.lk = fun _ => false) (hgood : ∀ u, good u → u.2 = true) (userDst : Bool) (off n : ℕ) :
    runs ip i good (readi sb ip userDst off n) c fun r c' => c' = c ∧
      r = ((readLen c.d.size off n : ℤ), (List.range (readLen c.d.size off n)).map fun x =>
        byteAt (inodes sb i c) c.blk i (off + x)) := by
  rw [readi]
  refine do_getI ?_
  rw [readLen]
  by_cases hbad : c.d.size < off ∨ 2 ^ 32 ≤ off + n
  · rw [if_pos hbad, if_pos hbad]
    exact alone_pure.mpr ⟨rfl, rfl⟩
  · rw [if_neg hbad, if_neg hbad]
    have hn : (if c.d.size < off + n then c.d.size - off else n) =
      min (off + n) c.d.size - off := by
      split_ifs <;> omega
    dsimp only
    rw [hn]
    refine (readiLoop_runs hsb h hi hl hgood userDst _ off [] (by simp) (by simp)
      (by simp; omega)).mono ?_
    rintro r c' ⟨rfl, rfl⟩
    exact ⟨rfl, by simp⟩

end Xv6.FsContent
