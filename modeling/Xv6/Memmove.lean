import Mathlib.Algebra.Ring.Nat
import Mathlib.Data.List.Range
import Xv6.Moves

/-!
The two `memmove`s: the kernel's (kernel/string.c) and the one of the user library
(user/ulib.c).

Memory is flat, one byte for each of the 2^64 addresses, and pointers wrap around. The length
is a `uint` in the kernel and an `int` in the user library, where a loop `while(n-- > 0)` runs
not at all when `n` is negative.
-/

namespace Xv6.Memmove

open Moves

abbrev Mem := UInt64 → UInt8

/-- The loop `while(n-- > 0) *d++ = *s++;`. -/
def forward : ℕ → UInt64 → UInt64 → Mem → Mem
  | 0, _, _, m => m
  | n + 1, d, s, m => forward n (d + 1) (s + 1) (Function.update m d (m s))

/-- The loop `while(n-- > 0) *--d = *--s;`. -/
def backward : ℕ → UInt64 → UInt64 → Mem → Mem
  | 0, _, _, m => m
  | n + 1, d, s, m => backward n (d - 1) (s - 1) (Function.update m (d - 1) (m (s - 1)))

/-- `memmove` of kernel/string.c: the pointer it returns and the memory it leaves. -/
def kernelMemmove (dst src : UInt64) (n : UInt32) (m : Mem) : UInt64 × Mem :=
  if n = 0 then (dst, m)
  else if src < dst ∧ src + n.toUInt64 > dst then
    (dst, backward n.toNat (dst + n.toUInt64) (src + n.toUInt64) m)
  else (dst, forward n.toNat dst src m)

/-- `memmove` of user/ulib.c. Adding the `int` to a pointer extends its sign. -/
def userMemmove (dst src : UInt64) (n : Int32) (m : Mem) : UInt64 × Mem :=
  if src > dst then (dst, forward n.toInt.toNat dst src m)
  else
    (dst, backward n.toInt.toNat (dst + n.toInt64.toUInt64) (src + n.toInt64.toUInt64) m)

/-! ### The loops as moves -/

/-- The byte at offset `i` of the destination, and the one at offset `i` of the source. -/
def pair (d s : UInt64) (i : ℕ) : UInt64 × UInt64 := (d + UInt64.ofNat i, s + UInt64.ofNat i)

lemma pair_succ (d s : UInt64) (i : ℕ) : pair d s (i + 1) = pair (d + 1) (s + 1) i := by
  have h (p : UInt64) : p + UInt64.ofNat (i + 1) = p + 1 + UInt64.ofNat i := by
    rw [Nat.add_comm i 1, UInt64.ofNat_add, ← UInt64.add_assoc]
    rfl
  rw [pair, pair, h d, h s]

lemma forward_eq (n : ℕ) (d s : UInt64) (m : Mem) :
    forward n d s m = moves ((List.range n).map (pair d s)) m := by
  induction n generalizing d s m with
  | zero => rfl
  | succ n ih =>
    have h0 : pair d s 0 = (d, s) := by simp [pair]
    rw [forward, ih, List.range_succ_eq_map, List.map_cons, List.map_map, moves_cons, h0]
    have hp : pair d s ∘ Nat.succ = pair (d + 1) (s + 1) := funext fun i => pair_succ d s i
    rw [hp, copy]

lemma backward_eq (n : ℕ) (d s : UInt64) (m : Mem) :
    backward n (d + UInt64.ofNat n) (s + UInt64.ofNat n) m =
      moves ((List.range n).reverse.map (pair d s)) m := by
  induction n generalizing m with
  | zero => rfl
  | succ n ih =>
    have h (p : UInt64) : p + UInt64.ofNat (n + 1) - 1 = p + UInt64.ofNat n := by
      have h1 : UInt64.ofNat (n + 1) = UInt64.ofNat n + 1 := by
        rw [UInt64.ofNat_add]
        rfl
      rw [h1, ← UInt64.add_assoc, UInt64.add_sub_cancel]
    rw [backward, h d, h s, ih, List.range_succ, List.reverse_append, List.reverse_singleton,
      List.singleton_append, List.map_cons, moves_cons]
    rfl

/-! ### Ranges that do not wrap -/

def Fits (p : UInt64) (n : ℕ) : Prop := p.toNat + n ≤ 2 ^ 64

instance (p : UInt64) (n : ℕ) : Decidable (Fits p n) := inferInstanceAs (Decidable (_ ≤ _))

lemma Fits.toNat {p : UInt64} {n i : ℕ} (h : Fits p n) (hi : i < n) :
    (p + UInt64.ofNat i).toNat = p.toNat + i := by
  have hp := UInt64.toNat_lt p
  have hs : p.toNat + i < 2 ^ 64 := by
    have := h
    unfold Fits at this
    omega
  have hi64 : i < UInt64.size := by
    rw [show UInt64.size = 2 ^ 64 from rfl]
    omega
  rw [UInt64.toNat_add, UInt64.toNat_ofNat_of_lt' hi64, Nat.mod_eq_of_lt hs]

lemma Fits.before {d s : UInt64} {n i j : ℕ} (hd : Fits d n) (hs : Fits s n) (hi : i < n)
    (hj : j < n) (hij : i ≠ j) (h : d.toNat + i ≠ s.toNat + j) :
    Before (pair d s i) (pair d s j) := by
  refine ⟨fun he => hij ?_, fun he => h ?_⟩
  · have := congrArg UInt64.toNat he
    rw [pair, pair, hd.toNat hi, hd.toNat hj] at this
    omega
  · have := congrArg UInt64.toNat he
    rw [pair, pair, hd.toNat hi, hs.toNat hj] at this
    exact this

/-- Upwards is right unless the destination starts inside the source. -/
lemma Fits.upwards {d s : UInt64} {n : ℕ} (hd : Fits d n) (hs : Fits s n)
    (h : d.toNat ≤ s.toNat ∨ s.toNat + n ≤ d.toNat) :
    ((List.range n).map (pair d s)).Pairwise Before := by
  rw [List.pairwise_map]
  refine List.Pairwise.imp_of_mem (fun {i j} hi hj hij => ?_) List.pairwise_lt_range
  rw [List.mem_range] at hi hj
  exact hd.before hs hi hj (by omega) (by omega)

lemma Fits.downwards {d s : UInt64} {n : ℕ} (hd : Fits d n) (hs : Fits s n)
    (h : s.toNat ≤ d.toNat) : ((List.range n).reverse.map (pair d s)).Pairwise Before := by
  rw [List.pairwise_map, List.pairwise_reverse]
  refine List.Pairwise.imp_of_mem (fun {i j} hi hj hij => ?_) List.pairwise_lt_range
  rw [List.mem_range] at hi hj
  exact hd.before hs hj hi (by omega) (by omega)

/-! ### What is moved -/

/-- The destination range holds the old contents of the source range, and every byte outside
it is as before. -/
structure Moved (dst src : UInt64) (n : ℕ) (m m' : Mem) : Prop where
  dest : ∀ i < n, m' (dst + UInt64.ofNat i) = m (src + UInt64.ofNat i)
  rest : ∀ a, (∀ i < n, a ≠ dst + UInt64.ofNat i) → m' a = m a

lemma Moved.unique {dst src : UInt64} {n : ℕ} {m m1 m2 : Mem} (h1 : Moved dst src n m m1)
    (h2 : Moved dst src n m m2) : m1 = m2 := by
  funext a
  by_cases ha : ∃ i < n, a = dst + UInt64.ofNat i
  · obtain ⟨i, hi, rfl⟩ := ha
    rw [h1.dest i hi, h2.dest i hi]
  · push Not at ha
    rw [h1.rest a ha, h2.rest a ha]

lemma Moved.of_moves {dst src : UInt64} {n : ℕ} {is : List ℕ} (m : Mem)
    (his : ∀ i, i ∈ is ↔ i < n) (h : (is.map (pair dst src)).Pairwise Before) :
    Moved dst src n m (moves (is.map (pair dst src)) m) := by
  refine ⟨fun i hi => ?_, fun a ha => ?_⟩
  · exact moves_mem h (List.mem_map_of_mem ((his i).mpr hi))
  · refine moves_ne fun p hp => ?_
    obtain ⟨i, hi, rfl⟩ := List.mem_map.mp hp
    exact ha i ((his i).mp hi)

lemma forward_moved {dst src : UInt64} {n : ℕ} (m : Mem) (hd : Fits dst n) (hs : Fits src n)
    (h : dst.toNat ≤ src.toNat ∨ src.toNat + n ≤ dst.toNat) :
    Moved dst src n m (forward n dst src m) := by
  rw [forward_eq]
  exact Moved.of_moves m (fun i => List.mem_range) (hd.upwards hs h)

lemma backward_moved {dst src : UInt64} {n : ℕ} (m : Mem) (hd : Fits dst n) (hs : Fits src n)
    (h : src.toNat ≤ dst.toNat) :
    Moved dst src n m (backward n (dst + UInt64.ofNat n) (src + UInt64.ofNat n) m) := by
  rw [backward_eq]
  exact Moved.of_moves m (fun i => List.mem_reverse.trans List.mem_range) (hd.downwards hs h)

/-- The kernel's test: it moves downwards exactly when the destination starts inside the
source, since `s + n` does not wrap when `d` lies above `s`. -/
lemma kernel_test {dst src : UInt64} {n : UInt32} (hd : Fits dst n.toNat) :
    (src < dst ∧ src + n.toUInt64 > dst) ↔
      src.toNat < dst.toNat ∧ dst.toNat < src.toNat + n.toNat := by
  unfold Fits at hd
  rw [gt_iff_lt, UInt64.lt_iff_toNat_lt, UInt64.lt_iff_toNat_lt, UInt64.toNat_add,
    UInt32.toNat_toUInt64]
  refine and_congr_right fun h => ?_
  rw [Nat.mod_eq_of_lt (by omega)]

lemma kernelMemmove_moved (m : Mem) {dst src : UInt64} {n : UInt32} (hd : Fits dst n.toNat)
    (hs : Fits src n.toNat) :
    (kernelMemmove dst src n m).1 = dst ∧
      Moved dst src n.toNat m (kernelMemmove dst src n m).2 := by
  unfold kernelMemmove
  split_ifs with h0 h
  · refine ⟨rfl, fun i hi => ?_, fun a _ => rfl⟩
    rw [h0] at hi
    exact absurd hi (Nat.not_lt_zero i)
  · rw [kernel_test hd] at h
    have hn : n.toUInt64 = UInt64.ofNat n.toNat := by simp
    rw [hn]
    exact ⟨rfl, backward_moved m hd hs h.1.le⟩
  · rw [kernel_test hd] at h
    exact ⟨rfl, forward_moved m hd hs (by omega)⟩

lemma toNat_of_nonneg {w : ℕ} (x : BitVec w) (h : 0 ≤ x.toInt) : x.toNat = x.toInt.toNat := by
  have hx := BitVec.toInt_eq_toNat_cond x
  have := x.isLt
  split_ifs at hx <;> omega

lemma toUInt64_of_nonneg {n : Int32} (h : 0 ≤ n.toInt) :
    n.toInt64.toUInt64 = UInt64.ofNat n.toInt.toNat := by
  have hi : n.toInt64.toBitVec.toInt = n.toInt := Int32.toInt_toInt64 n
  have hn := toNat_of_nonneg n.toInt64.toBitVec (by omega)
  have he : n.toInt64.toUInt64.toNat = n.toInt.toNat := by
    rw [← hi]
    exact hn
  rw [← he, UInt64.ofNat_toNat]

lemma userMemmove_moved (m : Mem) {dst src : UInt64} {n : Int32} (hd : Fits dst n.toInt.toNat)
    (hs : Fits src n.toInt.toNat) :
    (userMemmove dst src n m).1 = dst ∧
      Moved dst src n.toInt.toNat m (userMemmove dst src n m).2 := by
  unfold userMemmove
  split_ifs with h
  · rw [gt_iff_lt, UInt64.lt_iff_toNat_lt] at h
    exact ⟨rfl, forward_moved m hd hs (by omega)⟩
  · rw [gt_iff_lt, UInt64.lt_iff_toNat_lt] at h
    rcases Int.lt_or_le n.toInt 0 with hn | hn
    · -- the loop does not run, wherever the pointers are
      rw [Int.toNat_of_nonpos (Int.le_of_lt hn)]
      exact ⟨rfl, fun i hi => absurd hi (Nat.not_lt_zero i), fun a _ => rfl⟩
    · rw [toUInt64_of_nonneg hn]
      exact ⟨rfl, backward_moved m hd hs (by omega)⟩

/-- **Both `memmove`s move, whatever the overlap.** For ranges that do not wrap, the kernel's
and the user library's version return the destination, leave there the old contents of the
source and change no other byte; so they agree on every length that both can be given. -/
theorem memmove_moves (m : Mem) (dst src : UInt64) :
    (∀ n : UInt32, Fits dst n.toNat → Fits src n.toNat →
      (kernelMemmove dst src n m).1 = dst ∧
        Moved dst src n.toNat m (kernelMemmove dst src n m).2) ∧
    (∀ n : Int32, Fits dst n.toInt.toNat → Fits src n.toInt.toNat →
      (userMemmove dst src n m).1 = dst ∧
        Moved dst src n.toInt.toNat m (userMemmove dst src n m).2) ∧
    ∀ n : Int32, 0 ≤ n → Fits dst n.toInt.toNat → Fits src n.toInt.toNat →
      kernelMemmove dst src n.toUInt32 m = userMemmove dst src n m := by
  refine ⟨fun n => kernelMemmove_moved m, fun n => userMemmove_moved m, fun n hn hd hs => ?_⟩
  have h0 : 0 ≤ n.toInt := by simpa using Int32.le_iff_toInt_le.mp hn
  have he : n.toUInt32.toNat = n.toInt.toNat := toNat_of_nonneg n.toBitVec h0
  obtain ⟨hk, hkm⟩ := kernelMemmove_moved m (n := n.toUInt32) (he ▸ hd) (he ▸ hs)
  obtain ⟨hu, hum⟩ := userMemmove_moved m hd hs
  rw [he] at hkm
  exact Prod.ext (hk.trans hu.symm) (hkm.unique hum)

theorem memmove_moves_apart :
    (Moved 101 100 3 (fun a => a.toUInt8) (kernelMemmove 101 100 3 fun a => a.toUInt8).2 ∧
      Moved 100 101 3 (fun a => a.toUInt8) (userMemmove 100 101 3 fun a => a.toUInt8).2) ∧
    kernelMemmove 101 100 3 (fun a => a.toUInt8) = userMemmove 101 100 3 fun a => a.toUInt8 :=
  ⟨⟨((memmove_moves _ 101 100).1 3 (by decide) (by decide)).2,
      ((memmove_moves _ 100 101).2.1 3 (by decide) (by decide)).2⟩,
    (memmove_moves _ 101 100).2.2 3 (by decide) (by decide) (by decide)⟩

end Xv6.Memmove
