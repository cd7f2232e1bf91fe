import Mathlib.Data.List.Pairwise
import Mathlib.Logic.Function.Basic
import Mathlib.Tactic.Common

/-!
Moving cells of a memory one after the other.

A move is a list of pairs of a destination and a source, carried out in the order of the list.
Source and destination may overlap: the move is right as soon as no pair writes a cell that a
later pair reads.
-/

namespace Xv6.Moves

open Function

variable {A V : Type*} [DecidableEq A]

def copy (m : A → V) (p : A × A) : A → V := update m p.1 (m p.2)

def moves (ps : List (A × A)) (m : A → V) : A → V := ps.foldl copy m

@[simp] lemma moves_nil (m : A → V) : moves [] m = m := rfl

@[simp] lemma moves_cons (p : A × A) (ps : List (A × A)) (m : A → V) :
    moves (p :: ps) m = moves ps (copy m p) := rfl

lemma copy_ne (m : A → V) {p : A × A} {a : A} (h : a ≠ p.1) : copy m p a = m a :=
  update_of_ne h _ _

lemma copy_self (m : A → V) (p : A × A) : copy m p p.1 = m p.2 := update_self _ _ _

lemma moves_ne {ps : List (A × A)} {m : A → V} {a : A} (h : ∀ p ∈ ps, a ≠ p.1) :
    moves ps m a = m a := by
  induction ps generalizing m with
  | nil => rfl
  | cons p ps ih =>
    rw [moves_cons, ih fun q hq => h q (List.mem_cons_of_mem _ hq)]
    exact copy_ne m (h p List.mem_cons_self)

/-- The pair `p` may be carried out before the pair `q`: it writes neither the cell that `q`
writes nor the cell that `q` reads. -/
def Before (p q : A × A) : Prop := p.1 ≠ q.1 ∧ p.1 ≠ q.2

lemma moves_mem {ps : List (A × A)} (hps : ps.Pairwise Before) {m : A → V} {p : A × A}
    (hp : p ∈ ps) : moves ps m p.1 = m p.2 := by
  induction ps generalizing m with
  | nil => simp at hp
  | cons q ps ih =>
    obtain ⟨hq, hps⟩ := List.pairwise_cons.mp hps
    rw [moves_cons]
    rcases List.mem_cons.mp hp with rfl | hp
    · rw [moves_ne fun r hr => (hq r hr).1, copy_self]
    · -- the source of `p` has not been overwritten yet
      rw [ih hps hp, copy_ne m (hq p hp).2.symm]

end Xv6.Moves
