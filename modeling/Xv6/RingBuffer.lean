import Mathlib.Data.BitVec
import Mathlib.Data.List.Range
import Mathlib.Data.Nat.ModEq
import Mathlib.Logic.Function.Basic
import Mathlib.Tactic.Common

/-!
Ring buffers with free-running counters.

The two counters are words of `w` bits that only ever go up, and wrap; the cell of a counter
is its remainder by the capacity. This works where the capacity divides `2 ^ w` and is less
than it: then the difference of the counters is the number of elements, and a push or a pop
does to the contents what it does to a queue.
-/

namespace Xv6.RingBuffer

open Function

variable {α : Type} {w cap : ℕ} [NeZero cap]

structure Ring (α : Type) (w cap : ℕ) where
  data : Fin cap → α
  nread : BitVec w
  nwrite : BitVec w

def used (r : Ring α w cap) : ℕ := (r.nwrite - r.nread).toNat

def contents (r : Ring α w cap) : List α :=
  (List.range (used r)).map fun j => r.data (Fin.ofNat cap (r.nread.toNat + j))

def front (r : Ring α w cap) : α := r.data (Fin.ofNat cap r.nread.toNat)

def push (r : Ring α w cap) (a : α) : Ring α w cap :=
  { r with
    data := update r.data (Fin.ofNat cap r.nwrite.toNat) a
    nwrite := r.nwrite + 1 }

def pop (r : Ring α w cap) : Ring α w cap := { r with nread := r.nread + 1 }

def full (r : Ring α w cap) : Prop := r.nwrite = r.nread + BitVec.ofNat w cap

instance (r : Ring α w cap) : Decidable (full r) :=
  inferInstanceAs (Decidable (r.nwrite = r.nread + BitVec.ofNat w cap))

variable {r : Ring α w cap}

omit [NeZero cap] in
lemma nwrite_eq (r : Ring α w cap) : r.nwrite = r.nread + BitVec.ofNat w (used r) := by
  rw [used, BitVec.ofNat_toNat, BitVec.setWidth_eq, add_comm, BitVec.sub_add_cancel]

omit [NeZero cap] in
lemma used_lt (r : Ring α w cap) : used r < 2 ^ w := (r.nwrite - r.nread).isLt

omit [NeZero cap] in
lemma used_eq_zero : used r = 0 ↔ r.nread = r.nwrite := by
  constructor
  · intro h
    rw [nwrite_eq r, h]
    simp
  · intro h
    rw [used, h]
    simp

omit [NeZero cap] in
lemma used_eq_cap (hlt : cap < 2 ^ w) : used r = cap ↔ full r := by
  constructor
  · intro h
    have := nwrite_eq r
    rwa [h] at this
  · intro h
    rw [used, h]
    simp [Nat.mod_eq_of_lt hlt]

lemma cell_eq (hd : cap ∣ 2 ^ w) (x : BitVec w) (j : ℕ) :
    Fin.ofNat cap (x + BitVec.ofNat w j).toNat = Fin.ofNat cap (x.toNat + j) := by
  apply Fin.ext
  rw [Fin.val_ofNat, Fin.val_ofNat, BitVec.toNat_add, BitVec.toNat_ofNat, Nat.add_mod_mod,
    Nat.mod_mod_of_dvd _ hd]

lemma cell_ne {a j k : ℕ} (hjk : j < k) (hk : k < cap) :
    Fin.ofNat cap (a + j) ≠ Fin.ofNat cap (a + k) := by
  intro h
  have hmod : a + j ≡ a + k [MOD cap] := congrArg Fin.val h
  have hmod := hmod.add_left_cancel' a
  rw [Nat.ModEq, Nat.mod_eq_of_lt (by omega), Nat.mod_eq_of_lt hk] at hmod
  omega

lemma used_push (hlt : cap < 2 ^ w) (h : used r < cap) (a : α) : used (push r a) = used r + 1 := by
  have hw := nwrite_eq r
  have hone : (1 : BitVec w) = BitVec.ofNat w 1 := rfl
  rw [used, push]
  dsimp only
  rw [hw, hone, add_assoc, BitVec.ofNat_add_ofNat, add_comm r.nread, BitVec.add_sub_cancel,
    BitVec.toNat_ofNat, Nat.mod_eq_of_lt (by omega)]

/-- **A push adds an element at the end.** -/
theorem contents_push (hd : cap ∣ 2 ^ w) (hlt : cap < 2 ^ w) (h : used r < cap) (a : α) :
    contents (push r a) = contents r ++ [a] := by
  have hcell : Fin.ofNat cap r.nwrite.toNat = Fin.ofNat cap (r.nread.toNat + used r) := by
    rw [nwrite_eq r, cell_eq hd]
  have hold : ∀ j ∈ List.range (used r), (push r a).data (Fin.ofNat cap (r.nread.toNat + j)) =
      r.data (Fin.ofNat cap (r.nread.toNat + j)) := by
    intro j hj
    rw [push, hcell]
    exact update_of_ne (cell_ne (List.mem_range.mp hj) h) _ _
  rw [contents, used_push hlt h, List.range_succ, List.map_append, List.map_singleton]
  congr 1
  · exact List.map_congr_left hold
  · rw [push, hcell]
    dsimp only
    rw [update_self]

omit [NeZero cap] in
lemma used_pop (h : used r ≠ 0) : used r = used (pop r) + 1 := by
  have hlt := used_lt r
  have hw := nwrite_eq r
  obtain ⟨k, hk⟩ := Nat.exists_eq_succ_of_ne_zero h
  have hpop : r.nwrite - (r.nread + 1) = BitVec.ofNat w k := by
    rw [hw, hk, Nat.succ_eq_add_one, ← BitVec.ofNat_add_ofNat, BitVec.sub_eq_iff_eq_add,
      add_left_comm]
    rfl
  have hused : used (pop r) = k := by
    rw [used, pop]
    dsimp only
    rw [hpop, BitVec.toNat_ofNat, Nat.mod_eq_of_lt (by omega)]
  rw [hk, hused]

/-- **A pop takes the first element out.** -/
theorem contents_pop (hd : cap ∣ 2 ^ w) (h : used r ≠ 0) :
    contents r = front r :: contents (pop r) := by
  have hone : (1 : BitVec w) = BitVec.ofNat w 1 := rfl
  have hcell : ∀ j, Fin.ofNat cap ((pop r).nread.toNat + j) =
      Fin.ofNat cap (r.nread.toNat + (j + 1)) := by
    intro j
    rw [← cell_eq hd, ← cell_eq hd, pop]
    dsimp only
    rw [hone, add_assoc, BitVec.ofNat_add_ofNat, Nat.add_comm 1 j]
  rw [contents, used_pop h, List.range_succ_eq_map, List.map_cons, List.map_map, contents]
  congr 1
  refine List.map_congr_left fun j _ => ?_
  rw [comp_apply, hcell]
  rfl

def back (r : Ring α w cap) : α := r.data (Fin.ofNat cap (r.nwrite - 1).toNat)

def unpush (r : Ring α w cap) : Ring α w cap := { r with nwrite := r.nwrite - 1 }

omit [NeZero cap] in
lemma nwrite_unpush (h : used r ≠ 0) : r.nwrite - 1 = r.nread + BitVec.ofNat w (used r - 1) := by
  obtain ⟨k, hk⟩ := Nat.exists_eq_succ_of_ne_zero h
  have hone : (1 : BitVec w) = BitVec.ofNat w 1 := rfl
  rw [nwrite_eq r, hk, Nat.succ_eq_add_one, Nat.add_sub_cancel, ← BitVec.ofNat_add_ofNat, ← hone,
    ← add_assoc, BitVec.add_sub_cancel]

omit [NeZero cap] in
lemma used_unpush (h : used r ≠ 0) : used r = used (unpush r) + 1 := by
  have hlt := used_lt r
  rw [used.eq_def (unpush r), unpush]
  dsimp only
  rw [nwrite_unpush h, add_comm r.nread, BitVec.add_sub_cancel, BitVec.toNat_ofNat,
    Nat.mod_eq_of_lt (by omega)]
  omega

/-- **Taking back a push takes the last element out.** -/
theorem contents_unpush (hd : cap ∣ 2 ^ w) (h : used r ≠ 0) :
    contents r = contents (unpush r) ++ [back r] := by
  have hu := used_unpush h
  rw [contents, hu, List.range_succ, List.map_append, List.map_singleton]
  congr 2
  rw [back, nwrite_unpush h, cell_eq hd, hu, Nat.add_sub_cancel]

omit [NeZero cap] in
lemma used_pop_le {b : ℕ} (h : used r ≠ 0) (hb : used r ≤ b) : used (pop r) ≤ b := by
  have := used_pop h
  omega

end Xv6.RingBuffer
