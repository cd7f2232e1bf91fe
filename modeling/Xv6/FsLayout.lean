import Xv6.CString
import Xv6.Params

/-!
The on-disk format of `kernel/fs.h`: where the inode, bitmap and data blocks are, and how
inodes, block addresses, directory entries and bits of the free map sit in them.
-/

namespace Xv6.FsLayout

open Bytes CString Params

/-! ### Constants -/

def ROOTINO : ℕ := 1
def NDIRECT : ℕ := 12
def NINDIRECT : ℕ := 256
def MAXFILE : ℕ := NDIRECT + NINDIRECT
def IPB : ℕ := 16
def BPB : ℕ := 8192
def DIRSIZ : ℕ := 14
def DESIZE : ℕ := 16
def DISIZE : ℕ := 64

def T_DIR : ℕ := 1
def T_FILE : ℕ := 2
def T_DEVICE : ℕ := 3

structure Superblock where
  size : ℕ
  ninodes : ℕ
  nlog : ℕ
  logstart : ℕ
  inodestart : ℕ
  bmapstart : ℕ

namespace Superblock

def IBLOCK (sb : Superblock) (i : ℕ) : ℕ := i / IPB + sb.inodestart

/-- The block of the free map that contains the bit for block `b`. -/
def BBLOCK (sb : Superblock) (b : ℕ) : ℕ := b / BPB + sb.bmapstart

def dataStart (sb : Superblock) : ℕ := sb.bmapstart + sb.size / BPB + 1

/-- The parts of the disk follow one another, and its numbers fit their fields. -/
structure Ok (sb : Superblock) : Prop where
  log : 2 ≤ sb.logstart ∧ sb.logstart + sb.nlog ≤ sb.inodestart
  inodes : sb.inodestart + sb.ninodes / IPB + 1 ≤ sb.bmapstart
  data : sb.dataStart ≤ sb.size
  fits : sb.size < 2 ^ 31
  root : ROOTINO < sb.ninodes
  inums : sb.ninodes ≤ 2 ^ 16

end Superblock

/-! ### Copies between buffers -/

variable {n m : ℕ}

lemma getLE_blit_in (dst : Buf n) (src : Buf m) {doff soff len i k : ℕ} (hi : i + k ≤ len)
    (hn : doff + len ≤ n) :
    (Buf.blit dst doff src soff len).getLE (doff + i) k = src.getLE (soff + i) k := by
  induction k generalizing i with
  | zero => rfl
  | succ k ih =>
    rw [Buf.getLE, Buf.getLE, Buf.get_blit_in _ _ (by omega) (by omega), Nat.add_assoc,
      ih (by omega), Nat.add_assoc]

lemma getLE_blit_out (dst : Buf n) (src : Buf m) {doff soff len off k : ℕ}
    (h : off + k ≤ doff ∨ doff + len ≤ off) :
    (Buf.blit dst doff src soff len).getLE off k = dst.getLE off k :=
  Buf.getLE_congr fun i h1 h2 => Buf.get_blit_out _ _ (by omega)

def patch (b : Buf n) (off : ℕ) (bs : List UInt8) : Buf n := fun j =>
  if off ≤ j.val ∧ j.val < off + bs.length then (bs[j.val - off]?).getD 0 else b j

/-! ### Inodes -/

structure Dinode where
  type : ℕ
  major : ℕ
  minor : ℕ
  nlink : ℕ
  size : ℕ
  addrs : ℕ → ℕ

namespace Dinode

/-- The fields fit in a `short`, or in a `uint`, and there are `NDIRECT + 1` addresses. -/
structure Fits (d : Dinode) : Prop where
  type : d.type < 2 ^ 16
  major : d.major < 2 ^ 16
  minor : d.minor < 2 ^ 16
  nlink : d.nlink < 2 ^ 16
  size : d.size < 2 ^ 32
  addrs : ∀ k, d.addrs k < 2 ^ 32
  rest : ∀ k, NDIRECT < k → d.addrs k = 0

def get (b : Buf n) (off : ℕ) : Dinode where
  type := b.getLE off 2
  major := b.getLE (off + 2) 2
  minor := b.getLE (off + 4) 2
  nlink := b.getLE (off + 6) 2
  size := b.getLE (off + 8) 4
  addrs := fun k => if k ≤ NDIRECT then b.getLE (off + (12 + 4 * k)) 4 else 0

def putAddrs (d : Dinode) (b : Buf DISIZE) : ℕ → Buf DISIZE
  | 0 => b
  | k + 1 => (putAddrs d b k).setLE (12 + 4 * k) 4 (d.addrs k)

def bytes (d : Dinode) : Buf DISIZE :=
  putAddrs d (((((Buf.fill DISIZE 0).setLE 0 2 d.type).setLE 2 2 d.major).setLE 4 2 d.minor).setLE
    6 2 d.nlink |>.setLE 8 4 d.size) (NDIRECT + 1)

def put (b : Buf n) (off : ℕ) (d : Dinode) : Buf n := Buf.blit b off d.bytes 0 DISIZE

lemma putAddrs_low (d : Dinode) (b : Buf DISIZE) {j off k : ℕ} (h : off + k ≤ 12) :
    (putAddrs d b j).getLE off k = b.getLE off k := by
  induction j with
  | zero => rfl
  | succ j ih => rw [putAddrs, Buf.getLE_setLE_disjoint _ (by omega), ih]

lemma putAddrs_addr (d : Dinode) (b : Buf DISIZE) {j k : ℕ} (h : k < j) (hj : j ≤ NDIRECT + 1)
    (hd : d.addrs k < 2 ^ 32) : (putAddrs d b j).getLE (12 + 4 * k) 4 = d.addrs k := by
  unfold NDIRECT at hj
  induction j with
  | zero => omega
  | succ j ih =>
    rw [putAddrs]
    by_cases e : k = j
    · subst e
      exact Buf.getLE_setLE_of_lt _ (by unfold DISIZE; omega) hd
    · rw [Buf.getLE_setLE_disjoint _ (by omega), ih (by omega) (by omega)]

lemma get_bytes {d : Dinode} (h : d.Fits) : get d.bytes 0 = d := by
  have hlow : ∀ {off k : ℕ}, off + k ≤ 12 → d.bytes.getLE off k =
      (((((Buf.fill DISIZE 0).setLE 0 2 d.type).setLE 2 2 d.major).setLE 4 2 d.minor).setLE
        6 2 d.nlink |>.setLE 8 4 d.size).getLE off k := fun hk => putAddrs_low _ _ hk
  have hsz : DISIZE = 64 := rfl
  obtain ⟨type, major, minor, nlink, size, addrs⟩ := d
  simp only [get, Dinode.mk.injEq]
  refine ⟨?_, ?_, ?_, ?_, ?_, ?_⟩
  · rw [hlow (by omega), Buf.getLE_setLE_disjoint _ (by omega),
      Buf.getLE_setLE_disjoint _ (by omega), Buf.getLE_setLE_disjoint _ (by omega),
      Buf.getLE_setLE_disjoint _ (by omega)]
    exact Buf.getLE_setLE_of_lt _ (by omega) h.type
  · rw [hlow (by omega), Buf.getLE_setLE_disjoint _ (by omega),
      Buf.getLE_setLE_disjoint _ (by omega), Buf.getLE_setLE_disjoint _ (by omega)]
    exact Buf.getLE_setLE_of_lt _ (by omega) h.major
  · rw [hlow (by omega), Buf.getLE_setLE_disjoint _ (by omega),
      Buf.getLE_setLE_disjoint _ (by omega)]
    exact Buf.getLE_setLE_of_lt _ (by omega) h.minor
  · rw [hlow (by omega), Buf.getLE_setLE_disjoint _ (by omega)]
    exact Buf.getLE_setLE_of_lt _ (by omega) h.nlink
  · rw [hlow (by omega)]
    exact Buf.getLE_setLE_of_lt _ (by omega) h.size
  · funext k
    split_ifs with hk
    · rw [Nat.zero_add]
      exact putAddrs_addr _ _ (by omega) le_rfl (h.addrs k)
    · exact (h.rest k (by omega)).symm

lemma get_put_self (b : Buf n) {off : ℕ} {d : Dinode} (h : d.Fits) (hn : off + DISIZE ≤ n) :
    get (put b off d) off = d := by
  have hsz : DISIZE = 64 := rfl
  have hin : ∀ {i k : ℕ}, i + k ≤ 64 → (put b off d).getLE (off + i) k = d.bytes.getLE (0 + i) k :=
    fun hk => getLE_blit_in _ _ (by omega) hn
  have h0 := hin (show 0 + 2 ≤ 64 by omega)
  rw [Nat.add_zero] at h0
  rw [show get (put b off d) off = get d.bytes 0 from ?_, get_bytes h]
  unfold get
  rw [h0, hin (by omega), hin (by omega), hin (by omega), hin (by omega)]
  congr 1
  funext k
  split_ifs with hk
  · exact hin (by unfold NDIRECT at hk; omega)
  · rfl

lemma get_put_ne (b : Buf n) {off off' : ℕ} {d : Dinode}
    (h : off + DISIZE ≤ off' ∨ off' + DISIZE ≤ off) : get (put b off d) off' = get b off' := by
  have hsz : DISIZE = 64 := rfl
  have hout : ∀ {i k : ℕ}, i + k ≤ 64 → (put b off d).getLE (off' + i) k = b.getLE (off' + i) k :=
    fun hk => getLE_blit_out _ _ (by omega)
  have h0 := hout (show 0 + 2 ≤ 64 by omega)
  rw [Nat.add_zero] at h0
  unfold get
  rw [h0, hout (by omega), hout (by omega), hout (by omega), hout (by omega)]
  congr 1
  funext k
  split_ifs with hk
  · exact hout (by unfold NDIRECT at hk; omega)
  · rfl

lemma get_fits (b : Buf n) (off : ℕ) : (get b off).Fits := by
  have h2 : ∀ i, b.getLE i 2 < 2 ^ 16 := fun i => Buf.getLE_lt b i 2
  have h4 : ∀ i, b.getLE i 4 < 2 ^ 32 := fun i => Buf.getLE_lt b i 4
  refine ⟨h2 _, h2 _, h2 _, h2 _, h4 _, fun k => ?_, fun k hk => if_neg (by omega)⟩
  simp only [get]
  split_ifs
  · exact h4 _
  · norm_num

end Dinode

/-! ### Directory entries -/

def slash : UInt8 := 47

/-- The name is what `namecmp` sees of it: at most `DIRSIZ` bytes, up to the first NUL. -/
structure Dirent where
  inum : ℕ
  name : List UInt8
  deriving DecidableEq

namespace Dirent

structure Fits (de : Dirent) : Prop where
  inum : de.inum < 2 ^ 16
  len : de.name.length ≤ DIRSIZ
  noNul : 0 ∉ de.name

def get (b : Buf n) (off : ℕ) : Dirent where
  inum := b.getLE off 2
  name := cstr (fun j => b.get (off + (2 + j))) DIRSIZ

/-- The bytes of an entry; the name is padded with NULs. -/
def bytes (de : Dirent) : Buf DESIZE :=
  Buf.setLE (fun j : Fin DESIZE => (de.name[j.val - 2]?).getD 0) 0 2 de.inum

def zero : Dirent := ⟨0, []⟩

lemma cstr_list {l : List UInt8} (h : 0 ∉ l) (k : ℕ) :
    cstr (fun j => (l[j]?).getD 0) k = l.take k := by
  induction k generalizing l with
  | zero => simp [cstr]
  | succ k ih =>
    cases l with
    | nil => simp [cstr]
    | cons x l =>
      have hx : x ≠ 0 := fun e => h (by simp [e])
      have hl : 0 ∉ l := fun e => h (by simp [e])
      rw [cstr]
      simp only [List.getElem?_cons_zero, Option.getD_some, hx, if_false,
        List.getElem?_cons_succ, List.take_succ_cons]
      rw [ih hl]

lemma get_bytes {de : Dirent} (h : de.Fits) : get de.bytes 0 = de := by
  have hsz : DESIZE = 16 := rfl
  have hds : DIRSIZ = 14 := rfl
  obtain ⟨inum, name⟩ := de
  simp only [get, Dirent.mk.injEq]
  refine ⟨Buf.getLE_setLE_of_lt _ (by omega) h.inum, ?_⟩
  have hname : ∀ j < DIRSIZ, (bytes ⟨inum, name⟩).get (0 + (2 + j)) = (name[j]?).getD 0 := by
    intro j hj
    rw [bytes, Buf.get_setLE_out _ (by omega), Buf.get_of_lt _ (by omega)]
    congr 2
    simp only
    omega
  rw [cstr_congr hname, cstr_list h.noNul, List.take_of_length_le h.len]

lemma get_congr {a : Buf n} {b : Buf m} {off off' : ℕ}
    (h : ∀ i < DESIZE, a.get (off + i) = b.get (off' + i)) : get a off = get b off' := by
  have hsz : DESIZE = 16 := rfl
  have hds : DIRSIZ = 14 := rfl
  simp only [get, Dirent.mk.injEq]
  refine ⟨?_, cstr_congr fun j hj => h _ (by omega)⟩
  have h0 := h 0 (by omega)
  have h1 := h 1 (by omega)
  rw [Nat.add_zero, Nat.add_zero] at h0
  simp only [Buf.getLE, h0, h1]

end Dirent

/-! ### The free map -/

def mask (bi : ℕ) : UInt8 := 1 <<< UInt8.ofNat (bi % 8)

def bit (b : Buf n) (bi : ℕ) : Bool := b.get (bi / 8) &&& mask bi ≠ 0

def setBit (b : Buf n) (bi : ℕ) : Buf n := b.set (bi / 8) (b.get (bi / 8) ||| mask bi)

def clearBit (b : Buf n) (bi : ℕ) : Buf n := b.set (bi / 8) (b.get (bi / 8) &&& ~~~ mask bi)

lemma mask_eq (bi : ℕ) : mask bi = ⟨BitVec.twoPow 8 (bi % 8)⟩ := by
  have h : ∀ i : Fin 8, (1 : UInt8) <<< UInt8.ofNat i.val = ⟨BitVec.twoPow 8 i.val⟩ := by decide
  exact h ⟨bi % 8, Nat.mod_lt _ (by omega)⟩

lemma and_mask (x : UInt8) (bi : ℕ) : (x &&& mask bi ≠ 0) ↔ x.toBitVec.getLsbD (bi % 8) = true := by
  have hlt : bi % 8 < 8 := Nat.mod_lt _ (by omega)
  rw [mask_eq, ← UInt8.toBitVec_inj.ne]
  show x.toBitVec &&& BitVec.twoPow 8 (bi % 8) ≠ 0#8 ↔ _
  rw [BitVec.and_twoPow]
  constructor
  · intro h
    by_contra hc
    rw [if_neg hc] at h
    exact h rfl
  · intro h he
    rw [if_pos h] at he
    have := congrArg (fun v => BitVec.getLsbD v (bi % 8)) he
    simp [hlt] at this

lemma bit_iff (b : Buf n) (bi : ℕ) :
    bit b bi = true ↔ (b.get (bi / 8)).toBitVec.getLsbD (bi % 8) := by
  rw [bit, decide_eq_true_eq, and_mask]

lemma bit_setBit (b : Buf n) {bi bj : ℕ} (hi : bi / 8 < n) :
    bit (setBit b bi) bj = true ↔ bj = bi ∨ bit b bj = true := by
  have hmi : bi % 8 < 8 := Nat.mod_lt _ (by omega)
  have hmj : bj % 8 < 8 := Nat.mod_lt _ (by omega)
  rw [bit_iff, bit_iff]
  by_cases e : bi / 8 = bj / 8
  · rw [setBit, e, Buf.get_set_self _ (by omega), mask_eq]
    have h : bj = bi ↔ bi % 8 = bj % 8 := by omega
    rw [h]
    simp only [UInt8.toBitVec_or, BitVec.getLsbD_or, BitVec.getLsbD_twoPow, Bool.or_eq_true,
      Bool.and_eq_true, decide_eq_true_eq]
    tauto
  · rw [setBit, Buf.get_set_ne _ e]
    exact ⟨.inr, fun h => h.resolve_left fun h => e (by rw [h])⟩

lemma bit_clearBit (b : Buf n) {bi bj : ℕ} (hi : bi / 8 < n) :
    bit (clearBit b bi) bj = true ↔ bj ≠ bi ∧ bit b bj = true := by
  have hmi : bi % 8 < 8 := Nat.mod_lt _ (by omega)
  have hmj : bj % 8 < 8 := Nat.mod_lt _ (by omega)
  rw [bit_iff, bit_iff]
  by_cases e : bi / 8 = bj / 8
  · rw [clearBit, e, Buf.get_set_self _ (by omega), mask_eq]
    have h : bj = bi ↔ bi % 8 = bj % 8 := by omega
    rw [Ne, h]
    simp only [UInt8.toBitVec_and, UInt8.toBitVec_not, BitVec.getLsbD_and, BitVec.getLsbD_not,
      BitVec.getLsbD_twoPow, Bool.and_eq_true, Bool.not_eq_true', decide_eq_true_eq]
    constructor
    · rintro ⟨h1, -, h2⟩
      refine ⟨fun h3 => ?_, h1⟩
      simp [h3, hmj] at h2
    · rintro ⟨h1, h2⟩
      refine ⟨h2, hmj, ?_⟩
      simp [h1]
  · rw [clearBit, Buf.get_set_ne _ e]
    exact ⟨fun h => ⟨fun h' => e (by rw [h']), h⟩, fun h => h.2⟩

end Xv6.FsLayout
