import Mathlib.Data.Nat.ModEq
import Mathlib.Tactic.Common
import Mathlib.Tactic.Ring

/-!
Fixed-size byte buffers, and the little-endian integers stored in them.

A buffer is read and written at natural-number offsets: a read past the end gives `0` and
a write past the end does nothing, so every access is total and the bounds show up only
as side conditions of the lemmas.
-/

namespace Xv6.Bytes

abbrev Buf (n : ℕ) := Fin n → UInt8

namespace Buf

variable {n m : ℕ}

def get (b : Buf n) (i : ℕ) : UInt8 := if h : i < n then b ⟨i, h⟩ else 0

def set (b : Buf n) (i : ℕ) (v : UInt8) : Buf n := fun j => if j.val = i then v else b j

def fill (n : ℕ) (v : UInt8) : Buf n := fun _ => v

def blit (dst : Buf n) (doff : ℕ) (src : Buf m) (soff len : ℕ) : Buf n := fun j =>
  if doff ≤ j.val ∧ j.val < doff + len then src.get (soff + (j.val - doff)) else dst j

lemma get_of_lt (b : Buf n) {i : ℕ} (h : i < n) : b.get i = b ⟨i, h⟩ := dif_pos h

lemma get_of_ge (b : Buf n) {i : ℕ} (h : n ≤ i) : b.get i = 0 := dif_neg (by omega)

lemma get_set_self (b : Buf n) {i : ℕ} (h : i < n) (v : UInt8) : (b.set i v).get i = v := by
  rw [get_of_lt _ h]; simp [set]

lemma get_set_ne (b : Buf n) {i j : ℕ} (h : i ≠ j) (v : UInt8) :
    (b.set i v).get j = b.get j := by
  by_cases hj : j < n
  · rw [get_of_lt _ hj, get_of_lt _ hj]
    simp only [set]
    exact if_neg (Ne.symm h)
  · rw [get_of_ge _ (by omega), get_of_ge _ (by omega)]

lemma get_fill (v : UInt8) {i : ℕ} (h : i < n) : (fill n v).get i = v := get_of_lt _ h

lemma get_fill_zero (i : ℕ) : (fill n 0).get i = 0 := by
  by_cases h : i < n
  · exact get_fill 0 h
  · exact get_of_ge _ (by omega)

lemma get_blit_in (dst : Buf n) (src : Buf m) {doff soff len i : ℕ} (hi : i < len)
    (hn : doff + i < n) : (blit dst doff src soff len).get (doff + i) = src.get (soff + i) := by
  rw [get_of_lt _ hn]
  simp only [blit]
  rw [if_pos (by omega), Nat.add_sub_cancel_left]

lemma get_blit_out (dst : Buf n) (src : Buf m) {doff soff len i : ℕ}
    (h : i < doff ∨ doff + len ≤ i) : (blit dst doff src soff len).get i = dst.get i := by
  by_cases hi : i < n
  · rw [get_of_lt _ hi, get_of_lt _ hi]
    simp only [blit]
    exact if_neg (by omega)
  · rw [get_of_ge _ (by omega), get_of_ge _ (by omega)]

/-! ### Little-endian integers -/

def getLE (b : Buf n) : ℕ → ℕ → ℕ
  | _, 0 => 0
  | off, k + 1 => (b.get off).toNat + 256 * getLE b (off + 1) k

def setLE (b : Buf n) : ℕ → ℕ → ℕ → Buf n
  | _, 0, _ => b
  | off, k + 1, v => setLE (b.set off (UInt8.ofNat v)) (off + 1) k (v / 256)

lemma getLE_lt (b : Buf n) (off k : ℕ) : getLE b off k < 256 ^ k := by
  induction k generalizing off with
  | zero => simp [getLE]
  | succ k ih =>
    have h := ih (off + 1)
    have hb : (b.get off).toNat < 256 := (b.get off).toNat_lt
    rw [getLE, pow_succ]
    omega

lemma getLE_congr {a b : Buf n} {off k : ℕ}
    (h : ∀ i, off ≤ i → i < off + k → a.get i = b.get i) : getLE a off k = getLE b off k := by
  induction k generalizing off with
  | zero => rfl
  | succ k ih =>
    rw [getLE, getLE, h off (by omega) (by omega),
      ih fun i h1 h2 => h i (by omega) (by omega)]

lemma get_setLE_out (b : Buf n) {off k v i : ℕ} (h : i < off ∨ off + k ≤ i) :
    (setLE b off k v).get i = b.get i := by
  induction k generalizing b off v with
  | zero => rfl
  | succ k ih => rw [setLE, ih _ (by omega), get_set_ne _ (by omega)]

lemma getLE_setLE_disjoint (b : Buf n) {off k v off' k' : ℕ}
    (h : off + k ≤ off' ∨ off' + k' ≤ off) :
    getLE (setLE b off k v) off' k' = getLE b off' k' :=
  getLE_congr fun i h1 h2 => get_setLE_out b (by omega)

lemma getLE_setLE_self (b : Buf n) {off k v : ℕ} (h : off + k ≤ n) :
    getLE (setLE b off k v) off k = v % 256 ^ k := by
  induction k generalizing b off v with
  | zero => simp [getLE, Nat.mod_one]
  | succ k ih =>
    have h0 : (setLE b off (k + 1) v).get off = UInt8.ofNat v := by
      rw [setLE, get_setLE_out _ (by omega), get_set_self _ (by omega)]
    rw [getLE, h0, setLE, ih _ (by omega), pow_succ', Nat.mod_mul]
    simp

lemma getLE_setLE_of_lt (b : Buf n) {off k v : ℕ} (h : off + k ≤ n) (hv : v < 256 ^ k) :
    getLE (setLE b off k v) off k = v := by
  rw [getLE_setLE_self b h, Nat.mod_eq_of_lt hv]

lemma getLE_fill_zero (off k : ℕ) : getLE (fill n 0) off k = 0 := by
  induction k generalizing off with
  | zero => rfl
  | succ k ih => rw [getLE, ih, get_fill_zero]; rfl

end Buf

end Xv6.Bytes
