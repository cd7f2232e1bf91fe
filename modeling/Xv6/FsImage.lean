import Xv6.FsCode

/-!
What the blocks of a file system mean: which block each inode refers to where, which blocks are
in use, and what the files contain.
-/

namespace Xv6.FsImage

open Function Bytes Params FsLayout
open FsCode (slotOff)

abbrev Blocks := ℕ → Block

/-- The references of an inode are its 13 addresses and the entries of its indirect block. -/
def ref (ino : ℕ → Dinode) (blk : Blocks) (i k : ℕ) : ℕ :=
  if k ≤ NDIRECT then (ino i).addrs k
  else if (ino i).addrs NDIRECT = 0 then 0
  else (blk ((ino i).addrs NDIRECT)).getLE (4 * (k - (NDIRECT + 1))) 4

def slotOf (bn : ℕ) : ℕ := if bn < NDIRECT then bn else bn + 1

/-- Block `bn` of file `i`; 0 if there is none. -/
def addr (ino : ℕ → Dinode) (blk : Blocks) (i bn : ℕ) : ℕ := ref ino blk i (slotOf bn)

/-- Byte `q` of file `i`; a block that is not there reads as zero. -/
def byteAt (ino : ℕ → Dinode) (blk : Blocks) (i q : ℕ) : UInt8 :=
  if addr ino blk i (q / BSIZE) = 0 then 0
  else (blk (addr ino blk i (q / BSIZE))).get (q % BSIZE)

variable (sb : Superblock)

def inode (blk : Blocks) (i : ℕ) : Dinode := Dinode.get (blk (sb.IBLOCK i)) (slotOff i)

def used (blk : Blocks) (b : ℕ) : Bool := bit (blk (sb.BBLOCK b)) (b % BPB)

def Slot (i k : ℕ) : Prop := i < sb.ninodes ∧ k ≤ MAXFILE

/-- A well-formed file system: every reference is to a block of data that is marked as used,
and no two are to the same; the blocks before the data are marked; all blocks below the size of
a file are there. -/
structure Wf (ino : ℕ → Dinode) (blk : Blocks) : Prop where
  range : ∀ i k, Slot sb i k → ref ino blk i k ≠ 0 →
    sb.dataStart ≤ ref ino blk i k ∧ ref ino blk i k < sb.size ∧ used sb blk (ref ino blk i k)
  once : ∀ i k j l, Slot sb i k → Slot sb j l → ref ino blk i k ≠ 0 →
    ref ino blk i k = ref ino blk j l → i = j ∧ k = l
  low : ∀ b < sb.dataStart, used sb blk b
  dense : ∀ i bn, i < sb.ninodes → bn * BSIZE < (ino i).size → addr ino blk i bn ≠ 0
  small : ∀ i, i < sb.ninodes → (ino i).size ≤ MAXFILE * BSIZE
  fits : ∀ i, i < sb.ninodes → (ino i).Fits

def Full (blk : Blocks) : Prop := ∀ b < sb.size, used sb blk b

variable {sb} {ino ino' : ℕ → Dinode} {blk blk' : Blocks} {i j k l q a b bn : ℕ}

/-! ### Where blocks are -/

lemma bblock_lt (h : b < sb.size) : sb.BBLOCK b < sb.dataStart := by
  have := Nat.div_le_div_right (c := BPB) h.le
  unfold Superblock.BBLOCK Superblock.dataStart
  omega

lemma bmapstart_le (b : ℕ) : sb.bmapstart ≤ sb.BBLOCK b := Nat.le_add_left _ _

lemma iblock_lt (hsb : sb.Ok) (h : i < sb.ninodes) : sb.IBLOCK i < sb.bmapstart := by
  have := Nat.div_le_div_right (c := IPB) h.le
  have := hsb.inodes
  unfold Superblock.IBLOCK
  omega

lemma bblock_eq_iff : sb.BBLOCK a = sb.BBLOCK b ∧ a % BPB = b % BPB ↔ a = b := by
  constructor
  · rintro ⟨h1, h2⟩
    unfold Superblock.BBLOCK at h1
    have ha := Nat.div_add_mod a BPB
    have hb := Nat.div_add_mod b BPB
    rw [show a / BPB = b / BPB by omega, h2] at ha
    omega
  · rintro rfl
    exact ⟨rfl, rfl⟩

lemma dataStart_pos : 0 < sb.dataStart := Nat.succ_pos _

lemma slotOff_disjoint (h : i ≠ j) (hb : sb.IBLOCK i = sb.IBLOCK j) :
    slotOff i + DISIZE ≤ slotOff j ∨ slotOff j + DISIZE ≤ slotOff i := by
  unfold Superblock.IBLOCK at hb
  unfold slotOff IPB DISIZE at *
  omega

lemma slotOff_le (i : ℕ) : slotOff i + DISIZE ≤ BSIZE := by
  unfold slotOff IPB DISIZE BSIZE
  omega

lemma slotOf_inj (h : slotOf a = slotOf b) : a = b := by
  unfold slotOf at h
  split_ifs at h <;> omega

lemma slotOf_ne (a : ℕ) : slotOf a ≠ NDIRECT := by
  unfold slotOf
  split_ifs <;> omega

lemma slotOf_le (h : bn < MAXFILE) : slotOf bn ≤ MAXFILE := by
  unfold slotOf
  split_ifs <;> omega

lemma div_lt (h : q < MAXFILE * BSIZE) : q / BSIZE < MAXFILE :=
  Nat.div_lt_of_lt_mul (by rw [mul_comm]; exact h)

/-! ### Changes of blocks -/

lemma used_update (hb : sb.dataStart ≤ b) (ha : a < sb.size) (v : Block) :
    used sb (update blk b v) a = used sb blk a := by
  have := bblock_lt ha
  rw [used, update_of_ne (by omega), used]

lemma inode_update (hsb : sb.Ok) (hb : sb.bmapstart ≤ b) (hi : i < sb.ninodes) (v : Block) :
    inode sb (update blk b v) i = inode sb blk i := by
  have := iblock_lt hsb hi
  rw [inode, update_of_ne (by omega), inode]

def mark (sb : Superblock) (blk : Blocks) (b : ℕ) : Blocks :=
  update blk (sb.BBLOCK b) (setBit (blk (sb.BBLOCK b)) (b % BPB))

def unmark (sb : Superblock) (blk : Blocks) (b : ℕ) : Blocks :=
  update blk (sb.BBLOCK b) (clearBit (blk (sb.BBLOCK b)) (b % BPB))

lemma byte_lt (b : ℕ) : b % BPB / 8 < BSIZE := by
  unfold BPB BSIZE
  omega

lemma used_mark : used sb (mark sb blk b) a = true ↔ a = b ∨ used sb blk a = true := by
  unfold used mark
  by_cases e : sb.BBLOCK a = sb.BBLOCK b
  · have hiff : a % BPB = b % BPB ↔ a = b :=
      ⟨fun h => bblock_eq_iff.mp ⟨e, h⟩, fun h => by rw [h]⟩
    rw [e, update_self, bit_setBit _ (byte_lt b), hiff]
  · rw [update_of_ne e]
    exact ⟨.inr, fun h => h.resolve_left fun h => e (by rw [h])⟩

lemma used_unmark : used sb (unmark sb blk b) a = true ↔ a ≠ b ∧ used sb blk a = true := by
  unfold used unmark
  by_cases e : sb.BBLOCK a = sb.BBLOCK b
  · have hiff : a % BPB = b % BPB ↔ a = b :=
      ⟨fun h => bblock_eq_iff.mp ⟨e, h⟩, fun h => by rw [h]⟩
    rw [e, update_self, bit_clearBit _ (byte_lt b), Ne, hiff]
  · rw [update_of_ne e]
    exact ⟨fun h => ⟨fun h' => e (by rw [h']), h⟩, fun h => h.2⟩

lemma ref_congr (ha : (ino' i).addrs = (ino i).addrs)
    (hb : (ino i).addrs NDIRECT ≠ 0 → blk' ((ino i).addrs NDIRECT) = blk ((ino i).addrs NDIRECT))
    (k : ℕ) : ref ino' blk' i k = ref ino blk i k := by
  unfold ref
  rw [ha]
  split_ifs with h1 h2
  · rfl
  · rfl
  · rw [hb h2]

lemma ref_ind (ino : ℕ → Dinode) (blk : Blocks) (i : ℕ) :
    ref ino blk i NDIRECT = (ino i).addrs NDIRECT := if_pos le_rfl

lemma slot_addr (hi : i < sb.ninodes) (hb : bn < MAXFILE) : Slot sb i (slotOf bn) :=
  ⟨hi, slotOf_le hb⟩

lemma slot_ind (hi : i < sb.ninodes) : Slot sb i NDIRECT := ⟨hi, by decide⟩

namespace Wf

section

variable (h : Wf sb ino blk) (hi : i < sb.ninodes)
include h hi

lemma addr_range (hb : bn < MAXFILE)
    (h0 : addr ino blk i bn ≠ 0) : sb.dataStart ≤ addr ino blk i bn ∧
      addr ino blk i bn < sb.size ∧ used sb blk (addr ino blk i bn) :=
  h.range i _ (slot_addr hi hb) h0

lemma ind_range (h0 : (ino i).addrs NDIRECT ≠ 0) :
    sb.dataStart ≤ (ino i).addrs NDIRECT ∧ (ino i).addrs NDIRECT < sb.size ∧
      used sb blk ((ino i).addrs NDIRECT) := by
  rw [← ref_ind ino blk i] at h0 ⊢
  exact h.range i _ (slot_ind hi) h0

lemma addr_inj (hj : j < sb.ninodes) {bn' : ℕ}
    (hb : bn < MAXFILE) (hb' : bn' < MAXFILE) (h0 : addr ino blk i bn ≠ 0)
    (he : addr ino blk i bn = addr ino blk j bn') : i = j ∧ bn = bn' := by
  obtain ⟨h1, h2⟩ := h.once i _ j _ (slot_addr hi hb) (slot_addr hj hb') h0 he
  exact ⟨h1, slotOf_inj h2⟩

lemma addr_ne_ind (hj : j < sb.ninodes)
    (hb : bn < MAXFILE) (h0 : addr ino blk i bn ≠ 0) :
    addr ino blk i bn ≠ (ino j).addrs NDIRECT := by
  intro he
  rw [← ref_ind ino blk j] at he
  exact slotOf_ne bn (h.once i _ j _ (slot_addr hi hb) (slot_ind hj) h0 he).2

end

lemma ref_ne (h : Wf sb ino blk) (hs : Slot sb i k) (ha : used sb blk a = false) (h0 : a ≠ 0) :
    ref ino blk i k ≠ a := by
  rintro rfl
  have := (h.range i k hs h0).2.2
  rw [ha] at this
  cases this

lemma congr (h : Wf sb ino blk) (hr : ∀ i k, Slot sb i k → ref ino' blk' i k = ref ino blk i k)
    (hu : ∀ b < sb.size, used sb blk b → used sb blk' b)
    (hsb : sb.dataStart ≤ sb.size)
    (hs : ∀ i, i < sb.ninodes → (ino' i).size = (ino i).size)
    (hf : ∀ i, i < sb.ninodes → (ino' i).Fits) : Wf sb ino' blk' := by
  refine ⟨fun i k hk h0 => ?_, fun i k j l hk hl h0 he => ?_, fun b hb => ?_,
    fun i bn hi hbn => ?_, fun i hi => ?_, hf⟩
  · rw [hr i k hk] at h0 ⊢
    obtain ⟨h1, h2, h3⟩ := h.range i k hk h0
    exact ⟨h1, h2, hu _ h2 h3⟩
  · rw [hr i k hk] at h0 he
    rw [hr j l hl] at he
    exact h.once i k j l hk hl h0 he
  · exact hu b (by omega) (h.low b hb)
  · rw [hs i hi] at hbn
    have hmax : bn < MAXFILE := Nat.lt_of_mul_lt_mul_right (hbn.trans_le (h.small i hi))
    rw [addr, hr i _ (slot_addr hi hmax)]
    exact h.dense i bn hi hbn
  · rw [hs i hi]
    exact h.small i hi

lemma add (h : Wf sb ino blk) (hs : Slot sb i k) (hk : ref ino blk i k = 0)
    (hself : ref ino' blk' i k = a) (ha : sb.dataStart ≤ a ∧ a < sb.size)
    (hfree : used sb blk a = false)
    (hne : ∀ j l, Slot sb j l → ¬(j = i ∧ l = k) → ref ino' blk' j l = ref ino blk j l)
    (hu : ∀ b < sb.size, used sb blk' b = true ↔ b = a ∨ used sb blk b = true)
    (hz : ∀ j, j < sb.ninodes → (ino' j).size = (ino j).size)
    (hf : ∀ j, j < sb.ninodes → (ino' j).Fits) : Wf sb ino' blk' := by
  have hpos : 0 < sb.dataStart := dataStart_pos
  have hold : ∀ j l, Slot sb j l → ¬(j = i ∧ l = k) → ref ino' blk' j l ≠ a := by
    intro j l hl hx
    rw [hne j l hl hx]
    exact h.ref_ne hl hfree (by omega)
  refine ⟨fun j l hl h0 => ?_, fun j l j' l' h1 h2 h0 he => ?_, fun b hb => ?_,
    fun j bn hj hbn => ?_, fun j hj => ?_, hf⟩
  · by_cases hx : j = i ∧ l = k
    · obtain ⟨rfl, rfl⟩ := hx
      rw [hself]
      exact ⟨ha.1, ha.2, (hu a ha.2).mpr (.inl rfl)⟩
    · rw [hne j l hl hx] at h0 ⊢
      obtain ⟨r1, r2, r3⟩ := h.range j l hl h0
      exact ⟨r1, r2, (hu _ r2).mpr (.inr r3)⟩
  · by_cases hx : j = i ∧ l = k <;> by_cases hy : j' = i ∧ l' = k
    · omega
    · obtain ⟨rfl, rfl⟩ := hx
      rw [hself] at he
      exact absurd he.symm (hold j' l' h2 hy)
    · obtain ⟨rfl, rfl⟩ := hy
      rw [hself] at he
      exact absurd he (hold j l h1 hx)
    · rw [hne j l h1 hx] at h0 he
      rw [hne j' l' h2 hy] at he
      exact h.once j l j' l' h1 h2 h0 he
  · exact (hu b (by omega)).mpr (.inr (h.low b hb))
  · rw [hz j hj] at hbn
    have hmax : bn < MAXFILE := Nat.lt_of_mul_lt_mul_right (hbn.trans_le (h.small j hj))
    have h0 := h.dense j bn hj hbn
    rw [addr, hne j _ (slot_addr hj hmax)]
    · exact h0
    · rintro ⟨rfl, rfl⟩
      exact h0 hk
  · rw [hz j hj]
    exact h.small j hj

end Wf

lemma byteAt_add (hk : ref ino blk i k = 0) (hself : ref ino' blk' i k = a)
    (hzero : blk' a = Buf.fill BSIZE 0)
    (hne : ∀ j l, Slot sb j l → ¬(j = i ∧ l = k) → ref ino' blk' j l = ref ino blk j l)
    (hdata : ∀ j bn, j < sb.ninodes → bn < MAXFILE → addr ino blk j bn ≠ 0 →
      blk' (addr ino blk j bn) = blk (addr ino blk j bn))
    (hj : j < sb.ninodes) (hq : q < MAXFILE * BSIZE) :
    byteAt ino' blk' j q = byteAt ino blk j q := by
  have hs := slot_addr hj (div_lt hq)
  by_cases hx : j = i ∧ slotOf (q / BSIZE) = k
  · obtain ⟨rfl, rfl⟩ := hx
    have h0 : addr ino blk j (q / BSIZE) = 0 := hk
    have h1 : addr ino' blk' j (q / BSIZE) = a := hself
    rw [byteAt, byteAt, if_pos h0, h1, hzero]
    split_ifs
    · rfl
    · exact Buf.get_fill_zero _
  · have h1 : addr ino' blk' j (q / BSIZE) = addr ino blk j (q / BSIZE) := hne j _ hs hx
    rw [byteAt, byteAt, h1]
    split_ifs with h0
    · rfl
    · rw [hdata j _ hj (div_lt hq) h0]

end Xv6.FsImage
