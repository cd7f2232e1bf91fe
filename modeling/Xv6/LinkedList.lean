import Mathlib.Data.List.Induction
import Mathlib.Data.List.Nodup
import Mathlib.Logic.Function.Basic
import Mathlib.Tactic.Common

/-!
Circular doubly linked lists through a head.

A node is an element, or the head, written `none`. Wherever the list of the elements is cut in two,
the last node of the first part and the first node of the second point to each other; with `none`
for the head this covers both ends.
-/

namespace Xv6.LinkedList

open Function

variable {α : Type}

structure Links (α : Type) where
  next : Option α → Option α
  prev : Option α → Option α

/-- The pointers run through the elements of `L`, in this order, and back to the head. -/
def Linked (l : Links α) (L : List α) : Prop :=
  ∀ A B, L = A ++ B → l.next A.getLast? = B.head? ∧ l.prev B.head? = A.getLast?

def empty : Links α := ⟨fun _ => none, fun _ => none⟩

lemma linked_empty : Linked (empty : Links α) [] := by
  intro A B h
  obtain ⟨rfl, rfl⟩ := List.append_eq_nil_iff.mp h.symm
  exact ⟨rfl, rfl⟩

/-! ### Following the pointers -/

/-- The first element that satisfies `p`, from node `x` on, in at most `k` rounds. -/
def scan (nxt : Option α → Option α) (p : α → Bool) : ℕ → Option α → Option α
  | 0, _ => none
  | _ + 1, none => none
  | k + 1, some a => if p a then some a else scan nxt p k (nxt (some a))

variable {l : Links α} {L : List α}

lemma scan_next (h : Linked l L) (p : α → Bool) {A B : List α} (hL : L = A ++ B) {k : ℕ}
    (hk : B.length ≤ k) : scan l.next p k (l.next A.getLast?) = B.find? p := by
  induction B generalizing A k with
  | nil =>
    rw [(h A [] hL).1]
    cases k <;> rfl
  | cons b B ih =>
    rw [(h A _ hL).1, List.head?_cons]
    obtain ⟨k, rfl⟩ : ∃ m, k = m + 1 := ⟨k - 1, by simp at hk; omega⟩
    rw [scan, List.find?_cons]
    have := ih (A := A ++ [b]) (k := k) (by simp [hL]) (by simpa using hk)
    rw [List.getLast?_concat] at this
    rw [this]
    cases p b <;> rfl

lemma scan_forward (h : Linked l L) (p : α → Bool) {k : ℕ} (hk : L.length ≤ k) :
    scan l.next p k (l.next none) = L.find? p :=
  scan_next h p (A := []) rfl hk

lemma scan_prev (h : Linked l L) (p : α → Bool) {A B : List α} (hL : L = A ++ B) {k : ℕ}
    (hk : A.length ≤ k) : scan l.prev p k (l.prev B.head?) = A.reverse.find? p := by
  induction A using List.reverseRecOn generalizing B k with
  | nil =>
    rw [(h [] B hL).2]
    cases k <;> rfl
  | append_singleton A a ih =>
    rw [(h _ B hL).2, List.getLast?_concat]
    obtain ⟨k, rfl⟩ : ∃ m, k = m + 1 := ⟨k - 1, by simp at hk; omega⟩
    rw [scan, List.reverse_append, List.reverse_singleton, List.singleton_append, List.find?_cons]
    have := ih (B := a :: B) (k := k) (by simp [hL]) (by simpa using hk)
    rw [List.head?_cons] at this
    rw [this]
    cases p a <;> rfl

lemma scan_backward (h : Linked l L) (p : α → Bool) {k : ℕ} (hk : L.length ≤ k) :
    scan l.prev p k (l.prev none) = L.reverse.find? p :=
  scan_prev h p (B := []) (List.append_nil L).symm hk

/-! ### Relinking -/

variable [DecidableEq α]

def unlink (l : Links α) (a : α) : Links α :=
  let prev := update l.prev (l.next (some a)) (l.prev (some a))
  ⟨update l.next (prev (some a)) (l.next (some a)), prev⟩

def pushFront (l : Links α) (a : α) : Links α :=
  let next := update l.next (some a) (l.next none)
  let prev := update (update l.prev (some a) none) (next none) (some a)
  ⟨update next none (some a), prev⟩

omit [DecidableEq α] in
/-- Two parts of a list without repetitions end in different nodes, unless the second is empty. -/
lemma getLast?_ne {A A' : List α} (h : (A ++ A').Nodup) (hne : A' ≠ []) :
    A.getLast? ≠ (A ++ A').getLast? := by
  intro he
  obtain ⟨x, hx⟩ := Option.ne_none_iff_exists'.mp (mt List.getLast?_eq_none_iff.mp hne)
  rw [List.getLast?_append_of_ne_nil _ hne, hx] at he
  exact List.disjoint_of_nodup_append h (List.mem_of_mem_getLast? he) (List.mem_of_mem_getLast? hx)

omit [DecidableEq α] in
lemma head?_ne {B B' : List α} (h : (B' ++ B).Nodup) (hne : B' ≠ []) :
    B.head? ≠ (B' ++ B).head? := by
  intro he
  obtain ⟨x, hx⟩ := Option.ne_none_iff_exists'.mp (mt List.head?_eq_none_iff.mp hne)
  rw [List.head?_append_of_ne_nil _ hne, hx] at he
  exact List.disjoint_of_nodup_append h (List.mem_of_mem_head? hx) (List.mem_of_mem_head? he)

/-- **Unlinking takes the element out.** -/
theorem linked_unlink {A B : List α} {a : α} (h : Linked l (A ++ a :: B))
    (hn : (A ++ a :: B).Nodup) : Linked (unlink l a) (A ++ B) := by
  have hnext : l.next (some a) = B.head? := by
    have := (h (A ++ [a]) B (by simp)).1
    rwa [List.getLast?_concat] at this
  have hprev : l.prev (some a) = A.getLast? := (h A (a :: B) rfl).2
  have ha : B.head? ≠ some a := by
    intro he
    have hnd := (List.nodup_append.mp hn).2.1
    exact (List.nodup_cons.mp hnd).1 (List.mem_of_mem_head? he)
  have hAB : (A ++ B).Nodup :=
    hn.sublist (List.Sublist.append (List.Sublist.refl _) (List.sublist_cons_self _ _))
  have hl : unlink l a = ⟨update l.next A.getLast? B.head?,
      update l.prev B.head? A.getLast?⟩ := by
    simp only [unlink, hnext, hprev, update_of_ne (Ne.symm ha)]
  rw [hl]
  intro C D hCD
  dsimp only
  rcases List.append_eq_append_iff.mp hCD with ⟨E, rfl, rfl⟩ | ⟨E, rfl, rfl⟩
  · -- the cut is in the second part
    by_cases hE : E = []
    · subst hE
      rw [List.append_nil, List.nil_append, update_self, update_self]
      exact ⟨rfl, rfl⟩
    · have h0 := h (A ++ a :: E) D (by simp)
      have hlast : (A ++ a :: E).getLast? = (A ++ E).getLast? := by
        rw [List.getLast?_append_of_ne_nil _ (by simp), List.getLast?_append_of_ne_nil _ hE,
          List.getLast?_cons_of_ne_nil hE]
      rw [hlast] at h0
      rw [update_of_ne, update_of_ne]
      · exact h0
      · exact head?_ne (List.nodup_append.mp hAB).2.1 hE
      · refine Ne.symm (getLast?_ne ?_ hE)
        rw [← List.append_assoc] at hAB
        exact (List.nodup_append.mp hAB).1
  · -- the cut is in the first part
    by_cases hE : E = []
    · subst hE
      simp only [List.append_nil, List.nil_append, update_self]
      exact ⟨trivial, trivial⟩
    · have h0 := h C (E ++ a :: B) (by simp)
      have hhead : (E ++ a :: B).head? = (E ++ B).head? := by
        rw [List.head?_append_of_ne_nil _ hE, List.head?_append_of_ne_nil _ hE]
      rw [hhead] at h0
      rw [update_of_ne, update_of_ne]
      · exact h0
      · refine Ne.symm (head?_ne ?_ hE)
        rw [List.append_assoc] at hAB
        exact (List.nodup_append.mp hAB).2.1
      · exact getLast?_ne (List.nodup_append.mp hAB).1 hE

/-- **Pushing puts a new element first.** -/
theorem linked_pushFront {a : α} (h : Linked l L) (hn : (a :: L).Nodup) :
    Linked (pushFront l a) (a :: L) := by
  obtain ⟨haL, hL⟩ := List.nodup_cons.mp hn
  have hfirst : l.next none = L.head? := (h [] L rfl).1
  have ha : L.head? ≠ some a := fun he => haL (List.mem_of_mem_head? he)
  have hl : pushFront l a =
      ⟨update (update l.next (some a) L.head?) none (some a),
        update (update l.prev (some a) none) L.head? (some a)⟩ := by
    simp only [pushFront, hfirst, update_of_ne (show none ≠ some a by simp)]
  rw [hl]
  intro C D hCD
  dsimp only
  cases C with
  | nil =>
    rw [List.nil_append] at hCD
    subst hCD
    rw [List.getLast?_nil, List.head?_cons, update_self,
      update_of_ne (Ne.symm ha), update_self]
    exact ⟨rfl, rfl⟩
  | cons c C =>
    rw [List.cons_append, List.cons_eq_cons] at hCD
    obtain ⟨rfl, rfl⟩ := hCD
    by_cases hC : C = []
    · subst hC
      rw [List.nil_append, List.getLast?_singleton, update_self,
        update_of_ne (by simp), update_self]
      exact ⟨rfl, rfl⟩
    · have h0 := h C D rfl
      obtain ⟨x, hx⟩ := Option.ne_none_iff_exists'.mp (mt List.getLast?_eq_none_iff.mp hC)
      have hxa : x ≠ a := by
        rintro rfl
        exact haL (List.mem_append_left _ (List.mem_of_mem_getLast? hx))
      have hDa : D.head? ≠ some a := fun he =>
        haL (List.mem_append_right _ (List.mem_of_mem_head? he))
      rw [List.getLast?_cons_of_ne_nil hC, update_of_ne (by simp [hx]),
        update_of_ne (by simpa [hx] using hxa), update_of_ne (head?_ne hL hC),
        update_of_ne hDa]
      exact h0

end Xv6.LinkedList
