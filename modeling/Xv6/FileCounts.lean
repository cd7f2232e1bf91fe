import Mathlib.Algebra.BigOperators.Group.Finset.Basic
import Mathlib.Algebra.Order.BigOperators.Group.Finset
import Mathlib.Data.Fintype.Card
import Xv6.FileModel

/-!
The references to open files: what each process holds, by its descriptors and by its place in the
code, and how it changes.
-/

namespace Xv6.FileCounts

open Function FileModel

variable {n F D : ℕ}

/-! ### What a process holds -/

/-- The descriptors for a file, but for one that does not count. -/
def slots (o : Fin D → Option (Fin F)) (x : Option (Fin D)) (f : Fin F) : ℕ :=
  (Finset.univ.filter fun d => o d = some f ∧ some d ≠ x).card

variable {o : Fin D → Option (Fin F)} {d : Fin D} {f g : Fin F}

lemma slots_none (o : Fin D → Option (Fin F)) (d : Fin D) (f : Fin F) :
    slots o none f = slots o (some d) f + if o d = some f then 1 else 0 := by
  unfold slots
  have hsplit : (Finset.univ.filter fun e => o e = some f ∧ some e ≠ (none : Option (Fin D))) =
      if o d = some f then insert d (Finset.univ.filter fun e => o e = some f ∧ some e ≠ some d)
      else Finset.univ.filter fun e => o e = some f ∧ some e ≠ some d := by
    ext e
    by_cases he : e = d
    · subst he
      split_ifs with h <;> simp [h]
    · split_ifs with h <;> simp [he]
  rw [hsplit]
  split_ifs
  · rw [Finset.card_insert_of_notMem (by simp)]
  · rfl

lemma slots_update (o : Fin D → Option (Fin F)) (d : Fin D) (v : Option (Fin F)) (f : Fin F) :
    slots (update o d v) (some d) f = slots o (some d) f := by
  unfold slots
  congr 1
  ext e
  by_cases he : e = d
  · simp [he]
  · simp [he]

/-- The descriptor whose file is not counted: it has been put there before `filedup`, or is still
there after `fileclose`. -/
def owed : Pc F D → Option (Fin D)
  | .dup _ d => some d
  | .exitPipe d _ _ => some d
  | .exitClear d => some d
  | _ => none

def inflight : Pc F D → List (Fin F)
  | .openFd f _ _ => [f]
  | .pipe1 f => [f]
  | .pipe2 f0 f1 => [f0, f1]
  | .pipe3 rf wf => [rf, wf]
  | .closing l => l
  | .pclose _ _ l => l
  | _ => []

def cont (x : Proc F D) (f : Fin F) : ℕ := slots x.ofile (owed x.pc) f + (inflight x.pc).count f

def fresh : Pc F D → List (Fin F)
  | .openFd f _ _ => [f]
  | .openSet f _ _ _ => [f]
  | .pipe1 f => [f]
  | .pipe2 f0 f1 => [f0, f1]
  | _ => []

/-- What is known of the descriptors of a process, and of the file it opens, at its place. -/
def Placed (x : Proc F D) : Prop :=
  match x.pc with
  | .openFd _ type _ => type ≠ .FD_PIPE
  | .openSet f d type _ => x.ofile d = some f ∧ type ≠ .FD_PIPE
  | .dup f d => x.ofile d = some f ∧ ∃ d', d' ≠ d ∧ x.ofile d' = some f
  | .pipe4 rf wf fd0 fd1 => fd0 ≠ fd1 ∧ x.ofile fd0 = some rf ∧ x.ofile fd1 = some wf
  | .io d f _ => x.ofile d = some f
  | .exit i => ∀ d, d.val < i → x.ofile d = none
  | .exitPipe d _ _ => ∀ d', d'.val < d.val → x.ofile d' = none
  | .exitClear d => ∀ d', d'.val < d.val → x.ofile d' = none
  | _ => True

lemma cont_slot {x : Proc F D} (h : x.ofile d = some f) (hd : some d ≠ owed x.pc) :
    1 ≤ cont x f := by
  have : 1 ≤ slots x.ofile (owed x.pc) f := Finset.card_pos.mpr ⟨d, by simp [h, hd]⟩
  unfold cont
  omega

lemma cont_fresh {x : Proc F D} (hp : Placed x) (h : f ∈ fresh x.pc) : 1 ≤ cont x f := by
  have hin : ∀ l : List (Fin F), inflight x.pc = l → f ∈ l → 1 ≤ cont x f := by
    intro l hl hf
    have := List.one_le_count_iff.mpr hf
    rw [cont, hl]
    omega
  unfold Placed at hp
  cases hpc : x.pc <;> simp only [hpc, fresh, List.not_mem_nil] at h hp
  case openFd g ty w => exact hin [g] (by rw [hpc]; rfl) h
  case openSet g d ty w =>
    rw [List.mem_singleton] at h
    subst h
    exact cont_slot hp.1 (by rw [hpc]; simp [owed])
  case pipe1 g => exact hin [g] (by rw [hpc]; rfl) h
  case pipe2 g0 g1 => exact hin [g0, g1] (by rw [hpc]; rfl) h

/-! ### All processes -/

lemma sum_update (proc : Fin n → Proc F D) (p : Fin n) (x : Proc F D) (f : Fin F) :
    (∑ q, cont (update proc p x q) f) + cont (proc p) f =
      (∑ q, cont (proc q) f) + cont x f := by
  have hmem := Finset.mem_univ p
  have hrest : ∑ q ∈ Finset.univ.erase p, cont (update proc p x q) f =
      ∑ q ∈ Finset.univ.erase p, cont (proc q) f := by
    refine Finset.sum_congr rfl fun q hq => ?_
    rw [update_of_ne (Finset.ne_of_mem_erase hq)]
  rw [← Finset.add_sum_erase _ _ hmem, ← Finset.add_sum_erase _ _ hmem, hrest, update_self]
  omega

lemma cont_le_sum (proc : Fin n → Proc F D) (p : Fin n) (f : Fin F) :
    cont (proc p) f ≤ ∑ q, cont (proc q) f :=
  Finset.single_le_sum (f := fun q => cont (proc q) f) (fun _ _ => Nat.zero_le _)
    (Finset.mem_univ p)

lemma two_cont_le_sum (proc : Fin n → Proc F D) {p q : Fin n} (hpq : p ≠ q) (f : Fin F) :
    cont (proc p) f + cont (proc q) f ≤ ∑ r, cont (proc r) f := by
  rw [← Finset.add_sum_erase _ _ (Finset.mem_univ p)]
  have : cont (proc q) f ≤ ∑ r ∈ Finset.univ.erase p, cont (proc r) f :=
    Finset.single_le_sum (f := fun q => cont (proc q) f) (fun _ _ => Nat.zero_le _)
      (Finset.mem_erase.mpr ⟨hpq.symm, Finset.mem_univ q⟩)
  omega

end Xv6.FileCounts
