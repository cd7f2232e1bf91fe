import Mathlib.Data.List.GetD
import Xv6.MkfsModel

/-!
The blocks of an image: which block each inode refers to where, and what the files contain.
-/

namespace Xv6.MkfsImage

open Bytes FsLayout Params MkfsModel

/-! ### References to blocks -/

/-- The references of inode `i` are its 13 addresses and the entries of its indirect block. -/
def Slot (i k : ℕ) : Prop := i < NINODES ∧ k ≤ MAXFILE

/-- The references are to different blocks, and to all blocks from `nmeta` to `fb`. -/
structure Refs (r : ℕ → ℕ → ℕ) (fb : ℕ) : Prop where
  range : ∀ i k, Slot i k → r i k ≠ 0 → nmeta ≤ r i k ∧ r i k < fb
  once : ∀ i k j l, Slot i k → Slot j l → r i k ≠ 0 → r i k = r j l → i = j ∧ k = l
  onto : ∀ b, nmeta ≤ b → b < fb → ∃ i k, Slot i k ∧ r i k = b

variable {r r' : ℕ → ℕ → ℕ} {fb i j k q bn : ℕ} {ino ino' : ℕ → Dinode} {d d' : Disk}

lemma nmeta_eq : nmeta = 47 := rfl

lemma Refs.congr (h : Refs r fb) (hr : ∀ i k, Slot i k → r' i k = r i k) : Refs r' fb := by
  refine ⟨fun i k hs h0 => ?_, fun i k j l hs hs' h0 he => ?_, fun b h1 h2 => ?_⟩
  · rw [hr i k hs] at h0 ⊢
    exact h.range i k hs h0
  · rw [hr i k hs] at h0 he
    rw [hr j l hs'] at he
    exact h.once i k j l hs hs' h0 he
  · obtain ⟨i, k, hs, he⟩ := h.onto b h1 h2
    exact ⟨i, k, hs, by rw [hr i k hs, he]⟩

lemma Refs.add (h : Refs r fb) (hs : Slot i k) (h0 : r i k = 0) (hfb : nmeta ≤ fb)
    (hself : r' i k = fb) (hne : ∀ j l, Slot j l → ¬(j = i ∧ l = k) → r' j l = r j l) :
    Refs r' (fb + 1) := by
  have hold : ∀ j l, Slot j l → ¬(j = i ∧ l = k) → r' j l ≠ 0 → r' j l < fb := by
    intro j l hs' hx hz
    rw [hne j l hs' hx] at hz ⊢
    exact (h.range j l hs' hz).2
  refine ⟨fun j l hs' hz => ?_, fun j l j' l' hs1 hs2 hz he => ?_, fun b h1 h2 => ?_⟩
  · by_cases hx : j = i ∧ l = k
    · obtain ⟨rfl, rfl⟩ := hx
      omega
    · have h1 := hold j l hs' hx hz
      rw [hne j l hs' hx] at hz ⊢
      have := h.range j l hs' hz
      omega
  · by_cases hx : j = i ∧ l = k <;> by_cases hy : j' = i ∧ l' = k
    · omega
    · obtain ⟨rfl, rfl⟩ := hx
      have := hold j' l' hs2 hy (by omega)
      omega
    · obtain ⟨rfl, rfl⟩ := hy
      have := hold j l hs1 hx hz
      omega
    · rw [hne j l hs1 hx] at hz he
      rw [hne j' l' hs2 hy] at he
      exact h.once j l j' l' hs1 hs2 hz he
  · by_cases hb : b = fb
    · exact ⟨i, k, hs, by rw [hself, hb]⟩
    · obtain ⟨j, l, hs', he⟩ := h.onto b h1 (by omega)
      refine ⟨j, l, hs', ?_⟩
      rw [hne j l hs' ?_, he]
      rintro ⟨rfl, rfl⟩
      rw [h0] at he
      have := nmeta_eq
      omega

/-! ### Files -/

def inode (d : Disk) (i : ℕ) : Dinode := Dinode.get (d (sb.IBLOCK i)) (i % IPB * DISIZE)

def ref (ino : ℕ → Dinode) (d : Disk) (i k : ℕ) : ℕ :=
  if k ≤ NDIRECT then (ino i).addrs k
  else if (ino i).addrs NDIRECT = 0 then 0
  else word (d ((ino i).addrs NDIRECT)) (k - (NDIRECT + 1))

def slotOf (bn : ℕ) : ℕ := if bn < NDIRECT then bn else bn + 1

/-- Block `bn` of file `i`, as `bmap` in the kernel finds it; 0 if it is not allocated. -/
def addr (ino : ℕ → Dinode) (d : Disk) (i bn : ℕ) : ℕ := ref ino d i (slotOf bn)

def byteAt (ino : ℕ → Dinode) (d : Disk) (i q : ℕ) : UInt8 :=
  (d (addr ino d i (q / BSIZE))).get (q % BSIZE)

lemma slot_addr (hi : i < NINODES) (hb : bn < MAXFILE) : Slot i (slotOf bn) := by
  refine ⟨hi, ?_⟩
  unfold slotOf
  split_ifs <;> omega

lemma slot_ind (hi : i < NINODES) : Slot i NDIRECT := ⟨hi, by decide⟩

lemma slotOf_inj {a b : ℕ} (h : slotOf a = slotOf b) : a = b := by
  unfold slotOf at h
  split_ifs at h <;> omega

lemma slotOf_ne (a : ℕ) : slotOf a ≠ NDIRECT := by
  unfold slotOf
  split_ifs <;> omega

lemma ref_ind {f : ℕ → Dinode} : ref f d i NDIRECT = (f i).addrs NDIRECT := if_pos le_rfl

/-- The image while `mkfs` runs: blocks from `fb` on are free and zero, and the blocks of a file are
the ones below its size, with zeroes after its end. -/
structure Img (ino : ℕ → Dinode) (d : Disk) (fb : ℕ) : Prop where
  refs : Refs (ref ino d) fb
  zero : ∀ b, fb ≤ b → d b = zeroes
  alloc : ∀ i bn, i < NINODES → bn < MAXFILE →
    (addr ino d i bn ≠ 0 ↔ bn * BSIZE < (ino i).size)
  ind : ∀ i, i < NINODES → ((ino i).addrs NDIRECT ≠ 0 ↔ NDIRECT * BSIZE < (ino i).size)
  clear : ∀ i q, i < NINODES → (ino i).size ≤ q → q < MAXFILE * BSIZE →
    addr ino d i (q / BSIZE) ≠ 0 → byteAt ino d i q = 0
  small : ∀ i, i < NINODES → (ino i).size ≤ MAXFILE * BSIZE
  fits : ∀ i, i < NINODES → (ino i).Fits
  room : nmeta ≤ fb ∧ fb ≤ FSSIZE

lemma div_lt (h : q < MAXFILE * BSIZE) : q / BSIZE < MAXFILE :=
  Nat.div_lt_of_lt_mul (by rw [mul_comm]; exact h)

lemma Refs.addr_ne_ind (h : Refs (ref ino d) fb) (hi : i < NINODES) (hj : j < NINODES)
    (hb : bn < MAXFILE) (h0 : addr ino d i bn ≠ 0) : addr ino d i bn ≠ (ino j).addrs NDIRECT := by
  intro he
  rw [← ref_ind (f := ino) (d := d)] at he
  exact slotOf_ne bn (h.once i _ j _ (slot_addr hi hb) (slot_ind hj) h0 he).2

lemma Refs.addr_inj {bn' : ℕ} (h : Refs (ref ino d) fb) (hi : i < NINODES) (hj : j < NINODES)
    (hb : bn < MAXFILE) (hb' : bn' < MAXFILE) (h0 : addr ino d i bn ≠ 0)
    (he : addr ino d i bn = addr ino d j bn') : i = j ∧ bn = bn' := by
  obtain ⟨h1, h2⟩ := h.once i _ j _ (slot_addr hi hb) (slot_addr hj hb') h0 he
  exact ⟨h1, slotOf_inj h2⟩

lemma Refs.addr_range (h : Refs (ref ino d) fb) (hi : i < NINODES) (hb : bn < MAXFILE)
    (h0 : addr ino d i bn ≠ 0) : nmeta ≤ addr ino d i bn ∧ addr ino d i bn < fb :=
  h.range i _ (slot_addr hi hb) h0

lemma ref_congr (ha : ∀ k, (ino' i).addrs k = (ino i).addrs k)
    (hd : (ino i).addrs NDIRECT ≠ 0 → d' ((ino i).addrs NDIRECT) = d ((ino i).addrs NDIRECT))
    (k : ℕ) : ref ino' d' i k = ref ino d i k := by
  unfold ref
  simp only [ha]
  split_ifs with h1 h2
  · rfl
  · rfl
  · rw [hd h2]

lemma Img.congr (h : Img ino d fb) (ha : ∀ i, i < NINODES → ∀ k, (ino' i).addrs k = (ino i).addrs k)
    (hs : ∀ i, i < NINODES → (ino' i).size = (ino i).size)
    (hf : ∀ i, i < NINODES → (ino' i).Fits) (hd : ∀ b, nmeta ≤ b → d' b = d b) :
    Img ino' d' fb := by
  have href : ∀ i k, i < NINODES → ref ino' d' i k = ref ino d i k := by
    intro i k hi
    refine ref_congr (ha i hi) (fun h0 => hd _ ?_) k
    rw [← ref_ind (f := ino) (d := d)] at h0 ⊢
    exact (h.refs.range i _ (slot_ind hi) h0).1
  have haddr : ∀ i bn, i < NINODES → addr ino' d' i bn = addr ino d i bn :=
    fun i bn hi => href i _ hi
  refine ⟨h.refs.congr fun i k hs => href i k hs.1, fun b hb => ?_, fun i bn hi hb => ?_,
    fun i hi => ?_, fun i q hi hq hq' h0 => ?_, fun i hi => ?_, hf, h.room⟩
  · rw [hd b (by have := h.room; omega), h.zero b hb]
  · rw [haddr i bn hi, hs i hi]
    exact h.alloc i bn hi hb
  · rw [ha i hi, hs i hi]
    exact h.ind i hi
  · rw [haddr i _ hi] at h0
    rw [hs i hi] at hq
    have := h.clear i q hi hq hq' h0
    rw [byteAt] at this ⊢
    rw [haddr i _ hi, hd _ (h.refs.addr_range hi (div_lt hq') h0).1]
    exact this
  · rw [hs i hi]
    exact h.small i hi

end Xv6.MkfsImage
