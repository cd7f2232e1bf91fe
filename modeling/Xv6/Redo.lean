import Mathlib.Logic.Function.Basic
import Mathlib.Tactic.Common

/-!
Redo logging in general: a store some of whose cells are homes, with copies of some homes'
new values kept in slots outside the homes.

`Represents home slot d L C` says that the store `d`, with the list `L` of logged homes,
stands for the contents `C`: the copies of the logged homes hold their contents, and every
other home holds its own. Copying slots home, in any order and any number of times, does
not change what a store stands for.
-/

namespace Xv6.Redo

open Function

variable {B : Type*}

def replay (base : ℕ → B) (ws : List (ℕ × B)) : ℕ → B :=
  ws.foldl (fun d w => update d w.1 w.2) base

@[simp] lemma replay_nil (base : ℕ → B) : replay base [] = base := rfl

lemma replay_append (base : ℕ → B) (us ws : List (ℕ × B)) :
    replay base (us ++ ws) = replay (replay base us) ws := by
  simp [replay, List.foldl_append]

structure Represents (home : ℕ → Prop) (slot : ℕ → ℕ) (d : ℕ → B) (L : List ℕ)
    (C : ℕ → B) : Prop where
  homes : ∀ b ∈ L, home b
  copies : ∀ i b, L[i]? = some b → d (slot i) = C b
  rest : ∀ b, home b → b ∉ L → d b = C b

variable {home : ℕ → Prop} {slot : ℕ → ℕ} {d : ℕ → B} {L : List ℕ} {C : ℕ → B}

lemma represents_nil : Represents home slot d [] C ↔ ∀ b, home b → d b = C b :=
  ⟨fun h b hb => h.rest b hb (by simp),
    fun h => ⟨by simp, by simp, fun b hb _ => h b hb⟩⟩

lemma Represents.write_outside (h : Represents home slot d L C) {x : ℕ} (v : B)
    (hx : ¬ home x) (hs : ∀ i < L.length, slot i ≠ x) :
    Represents home slot (update d x v) L C where
  homes := h.homes
  copies := by
    intro i b hi
    have hlt : i < L.length := (List.getElem?_eq_some_iff.mp hi).1
    rw [update_of_ne (hs i hlt)]
    exact h.copies i b hi
  rest := by
    intro b hb hL
    rw [update_of_ne (by rintro rfl; exact hx hb)]
    exact h.rest b hb hL

lemma Represents.write_home (h : Represents home slot d L C) {b : ℕ} (hb : home b)
    (hs : ∀ i < L.length, ¬ home (slot i)) :
    Represents home slot (update d b (C b)) L C where
  homes := h.homes
  copies := by
    intro i c hi
    have hlt : i < L.length := (List.getElem?_eq_some_iff.mp hi).1
    rw [update_of_ne (by rintro e; exact hs i hlt (e ▸ hb))]
    exact h.copies i c hi
  rest := by
    intro c hc hL
    by_cases e : c = b
    · subst e; rw [update_self]
    · rw [update_of_ne e]; exact h.rest c hc hL

lemma Represents.installed (h : Represents home slot d L C) (hL : ∀ b ∈ L, d b = C b)
    (b : ℕ) (hb : home b) : d b = C b := by
  by_cases hm : b ∈ L
  · exact hL b hm
  · exact h.rest b hb hm

/-- **The commit point.** Homes that stand for the old contents, with the copies of all
that changed in place: naming these copies makes the store stand for the new contents. -/
lemma Represents.commit {V : ℕ → B} (h : ∀ b, home b → d b = C b) (hL : ∀ b ∈ L, home b)
    (hc : ∀ i b, L[i]? = some b → d (slot i) = V b) (hV : ∀ b, home b → b ∉ L → V b = C b) :
    Represents home slot d L V :=
  ⟨hL, hc, fun b hb hm => by rw [h b hb, hV b hb hm]⟩

lemma take_succ_mem {t : ℕ} {b c : ℕ} (hb : L[t]? = some b) (hc : c ∈ L.take (t + 1)) :
    c ∈ L.take t ∨ c = b := by
  rw [List.take_add_one, hb] at hc
  simpa using hc

end Xv6.Redo
