import Xv6.Bytes

/-!
NUL-terminated strings: the loops of the C string functions over pointers and buffers, and
the strings they read and write.

A pointer that is only read is the function from offsets to the bytes behind it.
-/

namespace Xv6.CString

open Bytes

def cstr (p : ℕ → UInt8) : ℕ → List UInt8
  | 0 => []
  | n + 1 => if p 0 = 0 then [] else p 0 :: cstr (fun i => p (i + 1)) n

lemma cstr_congr {p q : ℕ → UInt8} {n : ℕ} (h : ∀ i < n, p i = q i) : cstr p n = cstr q n := by
  induction n generalizing p q with
  | zero => rfl
  | succ n ih =>
    rw [cstr, cstr, h 0 (by omega), ih fun i hi => h (i + 1) (by omega)]

lemma cstr_take {p : ℕ → UInt8} {n m : ℕ} (h : n ≤ m) : cstr p n = (cstr p m).take n := by
  induction n generalizing p m with
  | zero => simp [cstr]
  | succ n ih =>
    obtain ⟨m, rfl⟩ : ∃ k, m = k + 1 := ⟨m - 1, by omega⟩
    rw [cstr, cstr]
    split_ifs
    · rfl
    · have hm : n ≤ m := by omega
      rw [ih hm, List.take_succ_cons]

lemma cstr_eq_nil {p : ℕ → UInt8} {n : ℕ} (hn : 0 < n) : cstr p n = [] ↔ p 0 = 0 := by
  obtain ⟨n, rfl⟩ : ∃ k, n = k + 1 := ⟨n - 1, by omega⟩
  rw [cstr]
  split_ifs with h <;> simp [h]

lemma cstr_length_le (p : ℕ → UInt8) (n : ℕ) : (cstr p n).length ≤ n := by
  induction n generalizing p with
  | zero => rfl
  | succ n ih =>
    rw [cstr]
    split_ifs
    · exact Nat.zero_le _
    · exact Nat.succ_le_succ (ih _)

/-! ### strncmp -/

/-- `strncmp`: skip while the bytes are equal and not NUL, then compare the next ones. -/
def strncmp (p q : ℕ → UInt8) : ℕ → ℤ
  | 0 => 0
  | n + 1 =>
    if p 0 ≠ 0 ∧ p 0 = q 0 then strncmp (fun i => p (i + 1)) (fun i => q (i + 1)) n
    else (p 0).toNat - (q 0).toNat

lemma strncmp_eq_zero {p q : ℕ → UInt8} {n : ℕ} : strncmp p q n = 0 ↔ cstr p n = cstr q n := by
  induction n generalizing p q with
  | zero => simp [strncmp, cstr]
  | succ n ih =>
    rw [strncmp, cstr, cstr]
    by_cases hp : p 0 = 0
    · rw [if_neg (by simp [hp]), if_pos hp, hp]
      by_cases hq : q 0 = 0
      · simp [hq]
      · have : (q 0).toNat ≠ 0 := fun h => hq (UInt8.toNat_inj.mp h)
        rw [if_neg hq]
        simp only [UInt8.toNat_zero, List.nil_eq, reduceCtorEq, iff_false]
        omega
    · by_cases hpq : p 0 = q 0
      · rw [if_pos ⟨hp, hpq⟩, ih, if_neg hp, if_neg (hpq ▸ hp), hpq]
        simp
      · have hne : (p 0).toNat ≠ (q 0).toNat := fun h => hpq (UInt8.toNat_inj.mp h)
        rw [if_neg (by tauto), if_neg hp]
        constructor
        · intro h; omega
        · intro h
          split_ifs at h
          simp only [List.cons.injEq] at h
          exact absurd h.1 hpq

/-! ### safestrcpy -/

variable {m : ℕ}

/-- The loop of `safestrcpy` from offset `i` on, with room for `k` more bytes before the
terminator. A NUL that is copied ends the loop, and the terminator follows it. -/
def safestrcpyLoop (s : Buf m) (t : ℕ → UInt8) (i : ℕ) : ℕ → Buf m
  | 0 => s.set i 0
  | k + 1 =>
    if t i ≠ 0 then safestrcpyLoop (s.set i (t i)) t (i + 1) k
    else (s.set i (t i)).set (i + 1) 0

def safestrcpy (s : Buf m) (t : ℕ → UInt8) : ℕ → Buf m
  | 0 => s
  | n + 1 => safestrcpyLoop s t 0 n

lemma safestrcpyLoop_get_lt (s : Buf m) (t : ℕ → UInt8) {i j k : ℕ} (h : j < i) :
    (safestrcpyLoop s t i k).get j = s.get j := by
  induction k generalizing s i with
  | zero => rw [safestrcpyLoop, Buf.get_set_ne _ (by omega)]
  | succ k ih =>
    rw [safestrcpyLoop]
    split_ifs
    · rw [ih _ (by omega), Buf.get_set_ne _ (by omega)]
    · rw [Buf.get_set_ne _ (by omega), Buf.get_set_ne _ (by omega)]

lemma cstr_safestrcpyLoop (s : Buf m) (t : ℕ → UInt8) {i k l : ℕ} (h : i + k < m) (hl : k < l) :
    cstr (fun j => (safestrcpyLoop s t i k).get (i + j)) l = cstr (fun j => t (i + j)) k := by
  induction k generalizing s i l with
  | zero =>
    rw [cstr, cstr_eq_nil hl]
    exact Buf.get_set_self _ (by omega) _
  | succ k ih =>
    obtain ⟨l, rfl⟩ : ∃ x, l = x + 1 := ⟨l - 1, by omega⟩
    rw [safestrcpyLoop, cstr, cstr]
    simp only [Nat.add_zero]
    by_cases h0 : t i = 0
    · rw [if_neg (not_not.mpr h0)]
      have : (((s.set i (t i)).set (i + 1) 0).get i) = 0 := by
        rw [Buf.get_set_ne _ (by omega), Buf.get_set_self _ (by omega), h0]
      rw [if_pos this, if_pos h0]
    · have hi : (safestrcpyLoop (s.set i (t i)) t (i + 1) k).get i = t i := by
        rw [safestrcpyLoop_get_lt _ _ (by omega), Buf.get_set_self _ (by omega)]
      rw [if_pos h0, hi, if_neg h0, if_neg h0]
      have := ih (s.set i (t i)) (i := i + 1) (l := l) (by omega) (by omega)
      simp only [Nat.add_right_comm] at this
      exact congrArg (t i :: ·) this

lemma cstr_safestrcpy (s : Buf m) (t : ℕ → UInt8) {n : ℕ} (h0 : 0 < n) (h : n ≤ m) :
    cstr (safestrcpy s t n).get n = cstr t (n - 1) := by
  obtain ⟨n, rfl⟩ : ∃ k, n = k + 1 := ⟨n - 1, by omega⟩
  have := cstr_safestrcpyLoop s t (i := 0) (k := n) (l := n + 1) (by omega) (by omega)
  simpa [safestrcpy] using this

/-! ### Strings in user memory -/

/-- `copyinstr` from a user address: copy up to and including the NUL. It fails at a byte
that the user cannot read, and when there is no NUL within `max` bytes. -/
def copyinstr (mem : ℕ → Option UInt8) (va : ℕ) (dst : Buf m) (i : ℕ) : ℕ → Bool × Buf m
  | 0 => (false, dst)
  | k + 1 =>
    match mem (va + i) with
    | none => (false, dst)
    | some c => if c = 0 then (true, dst.set i 0) else copyinstr mem va (dst.set i c) (i + 1) k

/-- The string at a user address, if it can be read and ends within `k` bytes. -/
def userStr (mem : ℕ → Option UInt8) (va : ℕ) : ℕ → Option (List UInt8)
  | 0 => none
  | k + 1 =>
    match mem va with
    | none => none
    | some c => if c = 0 then some [] else (userStr mem (va + 1) k).map (c :: ·)

lemma userStr_length {mem : ℕ → Option UInt8} {va k : ℕ} {str : List UInt8}
    (h : userStr mem va k = some str) : str.length < k := by
  induction k generalizing va str with
  | zero => simp [userStr] at h
  | succ k ih =>
    rw [userStr] at h
    cases hc : mem va with
    | none => simp [hc] at h
    | some c =>
      simp only [hc] at h
      split_ifs at h
      · cases h
        simp
      · obtain ⟨tl, htl, rfl⟩ := Option.map_eq_some_iff.mp h
        have := ih htl
        simp only [List.length_cons]
        omega

lemma copyinstr_get_lt (mem : ℕ → Option UInt8) (va : ℕ) (dst : Buf m) {i j k : ℕ} (h : j < i) :
    (copyinstr mem va dst i k).2.get j = dst.get j := by
  induction k generalizing dst i with
  | zero => rfl
  | succ k ih =>
    rw [copyinstr]
    cases mem (va + i) with
    | none => rfl
    | some c =>
      simp only
      split_ifs
      · rw [Buf.get_set_ne _ (by omega)]
      · rw [ih _ (by omega), Buf.get_set_ne _ (by omega)]

lemma copyinstr_fst (mem : ℕ → Option UInt8) (va : ℕ) (dst : Buf m) (i k : ℕ) :
    (copyinstr mem va dst i k).1 = (userStr mem (va + i) k).isSome := by
  induction k generalizing dst i with
  | zero => rfl
  | succ k ih =>
    rw [copyinstr, userStr]
    cases mem (va + i) with
    | none => rfl
    | some c =>
      simp only
      split_ifs
      · rfl
      · rw [ih, Option.isSome_map, Nat.add_assoc]

lemma cstr_copyinstr {mem : ℕ → Option UInt8} {va : ℕ} (dst : Buf m) {i k l : ℕ}
    {str : List UInt8} (h : userStr mem (va + i) k = some str) (hm : i + k ≤ m) (hl : k ≤ l) :
    cstr (fun j => (copyinstr mem va dst i k).2.get (i + j)) l = str := by
  induction k generalizing dst i l str with
  | zero => simp [userStr] at h
  | succ k ih =>
    obtain ⟨l, rfl⟩ : ∃ x, l = x + 1 := ⟨l - 1, by omega⟩
    rw [userStr] at h
    rw [copyinstr, cstr]
    cases hc : mem (va + i) with
    | none => simp [hc] at h
    | some c =>
      simp only [hc] at h
      simp only [Nat.add_zero]
      split_ifs at h ⊢ with h0 h1 h1
      · simpa using h
      · exact absurd (Buf.get_set_self _ (by omega) _) h1
      · rw [copyinstr_get_lt _ _ _ (by omega), Buf.get_set_self _ (by omega)] at h1
        exact absurd h1 h0
      · obtain ⟨tl, htl, rfl⟩ := Option.map_eq_some_iff.mp h
        have := ih (dst.set i c) (i := i + 1) (l := l) (by rwa [← Nat.add_assoc]) (by omega)
          (by omega)
        simp only [Nat.add_right_comm] at this
        rw [copyinstr_get_lt _ _ _ (by omega), Buf.get_set_self _ (by omega), ← this]
        rfl

end Xv6.CString
