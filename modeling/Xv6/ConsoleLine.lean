import Xv6.ConsoleModel

/-!
The line discipline of the console: what typed characters come to after editing, and that readers
get exactly that.
-/

namespace Xv6.ConsoleLine

open Function Runs RingBuffer ConsoleModel

/-! ### The line discipline -/

/-- All input committed so far, how much of it has been taken by readers, and what has been typed
since. -/
structure Line where
  committed : List UInt8
  taken : ℕ
  pending : List UInt8

namespace Line

def queue (a : Line) : List UInt8 := a.committed.drop a.taken

def held (a : Line) : ℕ := a.queue.length + a.pending.length

def commit (a : Line) : Line := { a with committed := a.committed ++ a.pending, pending := [] }

def append (a : Line) (c : UInt8) : Line := { a with pending := a.pending ++ [c] }

def type (a : Line) (c : UInt8) : Line :=
  if c = 0 ∨ c = ctrlP then a
  else if c = ctrlU then { a with pending := [] }
  else if c = ctrlH ∨ c = delete then { a with pending := a.pending.dropLast }
  else if a.held = INPUT_BUF_SIZE then a
  else
    let c := if c = carriage then newline else c
    let a := a.append c
    if c = newline ∨ c = ctrlD ∨ a.held = INPUT_BUF_SIZE then a.commit else a

variable {P : Type} [DecidableEq P]

/-- Reading: up to a newline, or up to `^D`. A `^D` is taken by the read that finds it first, and
left where it is by one that has something already. -/
def read (p : P) (killed : Bool) (target : ℕ) :
    ℕ → Line → List (Event P) → Line × Pc × List (Event P)
  | 0, a, log => (a, .idle, log ++ [.ret p target (some target)])
  | n + 1, a, log =>
    match a.queue with
    | [] =>
      if killed then (a, .idle, log ++ [.ret p target none]) else (a, .asleep (n + 1) target, log)
    | c :: _ =>
      if c = ctrlD then
        (if n + 1 < target then a else { a with taken := a.taken + 1 }, .idle,
          log ++ [.ret p target (some (target - (n + 1)))])
      else if c = newline then
        ({ a with taken := a.taken + 1 }, .idle,
          log ++ [.out p c] ++ [.ret p target (some (target - n))])
      else read p killed target n { a with taken := a.taken + 1 } (log ++ [.out p c])

end Line

variable {P : Type} [DecidableEq P]

structure Spec (P : Type) where
  line : Line
  pc : P → Pc
  log : List (Event P)

def specStep (a : Spec P) : Act P → Option (Spec P)
  | .intr c => some { a with line := a.line.type c }
  | .read p n killed =>
    match a.pc p with
    | .idle =>
      let x := a.line.read p killed n.toNat n.toNat a.log
      some ⟨x.1, update a.pc p x.2.1, x.2.2⟩
    | .asleep _ _ => none
  | .resume p killed =>
    match a.pc p with
    | .idle => none
    | .asleep n target =>
      let x := a.line.read p killed target n a.log
      some ⟨x.1, update a.pc p x.2.1, x.2.2⟩

def specStart : Spec P := ⟨⟨[], 0, []⟩, fun _ => .idle, []⟩

/-! ### What readers get -/

def outs (log : List (Event P)) : List UInt8 :=
  log.filterMap fun
    | .out _ c => some c
    | .ret _ _ _ => none

def eofs (log : List (Event P)) : ℕ :=
  log.countP fun
    | .out _ _ => false
    | .ret _ target k => decide (0 < target ∧ k = some 0)

omit [DecidableEq P] in
@[simp] lemma outs_append (l m : List (Event P)) : outs (l ++ m) = outs l ++ outs m := by
  simp [outs]

omit [DecidableEq P] in
@[simp] lemma eofs_append (l m : List (Event P)) : eofs (l ++ m) = eofs l + eofs m := by
  simp [eofs]

omit [DecidableEq P] in
@[simp] lemma outs_out (p : P) (c : UInt8) : outs [Event.out p c] = [c] := rfl

omit [DecidableEq P] in
@[simp] lemma outs_ret (p : P) (target : ℕ) (k : Option ℕ) : outs [Event.ret p target k] = [] := rfl

omit [DecidableEq P] in
@[simp] lemma eofs_out (p : P) (c : UInt8) : eofs [Event.out p c] = 0 := rfl

omit [DecidableEq P] in
@[simp] lemma eofs_ret (p : P) (target : ℕ) (k : Option ℕ) :
    eofs [Event.ret p target k] = if 0 < target ∧ k = some 0 then 1 else 0 := by
  simp [eofs, List.countP_singleton]

/-- The bytes delivered are the input taken, without each `^D`; and for each `^D` taken there was
one zero-length read. -/
structure Delivered (a : Line) (log : List (Event P)) : Prop where
  bound : a.taken ≤ a.committed.length
  outs : outs log = (a.committed.take a.taken).filter (· ≠ ctrlD)
  eofs : eofs log = (a.committed.take a.taken).count ctrlD

variable {a : Line} {log : List (Event P)}

omit [DecidableEq P] in
lemma Delivered.type (h : Delivered a log) (c : UInt8) : Delivered (a.type c) log := by
  have hcommit : ∀ l : List UInt8, (a.committed ++ l).take a.taken = a.committed.take a.taken :=
    fun l => List.take_append_of_le_length h.bound
  unfold Line.type
  split_ifs
  · exact h
  · exact ⟨h.bound, h.outs, h.eofs⟩
  · exact ⟨h.bound, h.outs, h.eofs⟩
  · exact h
  all_goals
    dsimp only
    split_ifs
    · refine ⟨?_, ?_, ?_⟩
      · simp only [Line.commit, Line.append, List.length_append]
        have := h.bound
        omega
      · simp only [Line.commit, Line.append, hcommit]
        exact h.outs
      · simp only [Line.commit, Line.append, hcommit]
        exact h.eofs
    · exact ⟨h.bound, h.outs, h.eofs⟩

lemma take_queue {c : UInt8} {l : List UInt8} (h : a.queue = c :: l) :
    a.taken + 1 ≤ a.committed.length ∧
      a.committed.take (a.taken + 1) = a.committed.take a.taken ++ [c] := by
  have hlen := congrArg List.length h
  simp only [Line.queue, List.length_drop, List.length_cons] at hlen
  refine ⟨by omega, ?_⟩
  have hc : a.committed[a.taken]? = some c := by
    have := congrArg List.head? h
    rwa [Line.queue, List.head?_drop, List.head?_cons] at this
  rw [List.take_add_one, hc, Option.toList_some]

omit [DecidableEq P] in
lemma Delivered.taken (h : Delivered a log) {c : UInt8} {l : List UInt8} (hq : a.queue = c :: l)
    (hc : c ≠ ctrlD) (p : P) : Delivered { a with taken := a.taken + 1 } (log ++ [.out p c]) := by
  obtain ⟨h1, h2⟩ := take_queue hq
  refine ⟨h1, ?_, ?_⟩
  · dsimp only
    rw [h2, List.filter_append, ← h.outs, outs_append]
    simp [hc]
  · dsimp only
    rw [h2, List.count_append, ← h.eofs, eofs_append]
    simp [hc]

omit [DecidableEq P] in
lemma Delivered.ret (h : Delivered a log) (p : P) {target : ℕ} {k : Option ℕ}
    (hk : 0 < target → k ≠ some 0) : Delivered a (log ++ [.ret p target k]) := by
  refine ⟨h.bound, ?_, ?_⟩
  · rw [outs_append, h.outs]
    simp
  · rw [eofs_append, h.eofs, eofs_ret]
    rw [if_neg fun hx => hk hx.1 hx.2, Nat.add_zero]

omit [DecidableEq P] in
lemma Delivered.read {p : P} {killed : Bool} {target n : ℕ} (h : Delivered a log)
    (hn : n ≤ target) :
    Delivered (a.read p killed target n log).1 (a.read p killed target n log).2.2 := by
  induction n generalizing a log with
  | zero => exact h.ret p fun h0 hk => by simp at hk; omega
  | succ n ih =>
    rw [Line.read]
    split
    · split_ifs
      · exact h.ret p (by simp)
      · exact h
    · rename_i c l hq
      split_ifs with hc hlt hnl
      · exact h.ret p fun _ hk => by simp at hk; omega
      · -- the one zero-length read for this `^D`
        obtain ⟨h1, h2⟩ := take_queue hq
        have ht : target = n + 1 := by omega
        refine ⟨h1, ?_, ?_⟩
        · dsimp only
          rw [h2, List.filter_append, ← h.outs, outs_append]
          simp [hc]
        · dsimp only
          rw [h2, List.count_append, ← h.eofs, eofs_append]
          simp [hc, ht]
      · exact (h.taken hq hc p).ret p fun _ hk => by simp at hk; omega
      · exact ih (h.taken hq hc p) (by omega)

/-- A sleeping reader has at most what it asked for to go. -/
def Waits (pc : P → Pc) : Prop := ∀ p n target, pc p = .asleep n target → n ≤ target

omit [DecidableEq P] in
lemma waits_read {p : P} {killed : Bool} {target n : ℕ} (hn : n ≤ target) {m t : ℕ}
    (h : (a.read p killed target n log).2.1 = .asleep m t) : m ≤ t := by
  induction n generalizing a log with
  | zero => cases h
  | succ n ih =>
    rw [Line.read] at h
    split at h
    · split_ifs at h
      · cases h
        exact hn
    · split_ifs at h
      exact ih (by omega) h

/-! ### The buffer holds the line -/

def ring (s : Cons) : Ring UInt8 32 INPUT_BUF_SIZE := ⟨s.buf, s.r, s.e⟩

/-- The buffer holds what is committed and not taken, up to `w`, and then what is pending. -/
structure Holds (s : Cons) (a : Line) : Prop where
  cont : contents (ring s) = a.queue ++ a.pending
  split : s.w = s.r + BitVec.ofNat 32 a.queue.length
  bound : a.held ≤ INPUT_BUF_SIZE
  clean : newline ∉ a.pending

variable {s : Cons}

lemma SIZE_lt : INPUT_BUF_SIZE < 2 ^ 32 := by decide

lemma SIZE_dvd : INPUT_BUF_SIZE ∣ 2 ^ 32 := by decide

section

variable (h : Holds s a)
include h

lemma Holds.used : used (ring s) = a.held := by
  have := congrArg List.length h.cont
  simpa only [contents, List.length_map, List.length_range, List.length_append, Line.held] using
    this

lemma Holds.edit : (s.e - s.r).toNat = a.held := h.used

lemma Holds.e_eq : s.e = s.w + BitVec.ofNat 32 a.pending.length := by
  have h1 : s.e = s.r + BitVec.ofNat 32 (RingBuffer.used (ring s)) := nwrite_eq (ring s)
  rw [h1, h.split, h.used, Line.held, ← BitVec.ofNat_add_ofNat, add_assoc]

lemma Holds.pending_lt : a.pending.length < 2 ^ 32 := by
  have h1 := h.bound
  have h2 := SIZE_lt
  rw [Line.held] at h1
  omega

lemma Holds.queue_lt : a.queue.length < 2 ^ 32 := by
  have h1 := h.bound
  have h2 := SIZE_lt
  rw [Line.held] at h1
  omega

lemma Holds.write : (s.w - s.r).toNat = a.queue.length := by
  rw [h.split, add_comm, BitVec.add_sub_cancel, BitVec.toNat_ofNat, Nat.mod_eq_of_lt h.queue_lt]

lemma Holds.fuel : (s.e - s.w).toNat = a.pending.length := by
  rw [h.e_eq, add_comm, BitVec.add_sub_cancel, BitVec.toNat_ofNat, Nat.mod_eq_of_lt h.pending_lt]

end

lemma add_ofNat_eq {x : BitVec 32} {k : ℕ} (hk : k < 2 ^ 32) :
    x = x + BitVec.ofNat 32 k ↔ k = 0 := by
  constructor
  · intro h
    have : BitVec.ofNat 32 k = 0#32 := by
      have := congrArg (· - x) h
      simpa [add_comm x] using this.symm
    have := congrArg BitVec.toNat this
    rwa [BitVec.toNat_ofNat, Nat.mod_eq_of_lt hk] at this
  · rintro rfl
    simp

lemma Holds.empty (h : Holds s a) : s.r = s.w ↔ a.queue = [] := by
  rw [h.split, add_ofNat_eq h.queue_lt, List.length_eq_zero_iff]

lemma Holds.noPending (h : Holds s a) : s.e = s.w ↔ a.pending = [] := by
  rw [h.e_eq, eq_comm, add_ofNat_eq h.pending_lt, List.length_eq_zero_iff]

lemma Holds.erase (h : Holds s a) (hp : a.pending ≠ []) :
    Holds { s with e := s.e - 1 } { a with pending := a.pending.dropLast } ∧
      s.at (s.e - 1) ≠ newline := by
  have hlast := List.dropLast_append_getLast hp
  have hu : RingBuffer.used (ring s) ≠ 0 := by
    have := List.length_pos_of_ne_nil hp
    rw [h.used, Line.held]
    omega
  have hcont := contents_unpush SIZE_dvd hu
  rw [h.cont, ← hlast, ← List.append_assoc] at hcont
  obtain ⟨h1, h2⟩ := List.append_inj' hcont rfl
  have hlen : a.pending.dropLast.length ≤ a.pending.length := by simp
  refine ⟨⟨h1.symm, h.split, ?_, fun hm => h.clean (List.mem_of_mem_dropLast hm)⟩, ?_⟩
  · have := h.bound
    simp only [Line.held, Line.queue] at this ⊢
    omega
  · have hback : s.at (s.e - 1) = a.pending.getLast hp := (List.singleton_inj.mp h2).symm
    rw [hback]
    exact fun hx => h.clean (hx ▸ List.getLast_mem hp)

lemma Holds.killLine (h : Holds s a) :
    Holds (killLine a.pending.length s) { a with pending := [] } := by
  induction hk : a.pending.length generalizing s a with
  | zero =>
    have : a.pending = [] := List.length_eq_zero_iff.mp hk
    rw [← this]
    exact h
  | succ k ih =>
    have hp : a.pending ≠ [] := fun h0 => by simp [h0] at hk
    obtain ⟨h1, h2⟩ := h.erase hp
    rw [ConsoleModel.killLine, if_pos ⟨mt h.noPending.mp hp, h2⟩]
    have hlen : a.pending.dropLast.length =
      k := by rw [List.length_dropLast, hk, Nat.add_sub_cancel]
    exact ih (a := { a with pending := a.pending.dropLast }) h1 hlen

lemma Holds.append (h : Holds s a) (hlt : a.held < INPUT_BUF_SIZE) (c : UInt8) :
    contents (ring { s with
        buf := update s.buf (Fin.ofNat INPUT_BUF_SIZE s.e.toNat) c
        e := s.e + 1 }) = a.queue ++ (a.pending ++ [c]) := by
  have := contents_push SIZE_dvd SIZE_lt (r := ring s) (by rw [h.used]; exact hlt) c
  rw [h.cont, List.append_assoc] at this
  exact this

lemma held_append (a : Line) (c : UInt8) : (a.append c).held = a.held + 1 := by
  simp only [Line.append, Line.held, Line.queue, List.length_append, List.length_singleton]
  omega

lemma queue_commit (h : a.taken ≤ a.committed.length) : a.commit.queue = a.queue ++ a.pending := by
  simp only [Line.queue, Line.commit]
  rw [List.drop_append_of_le_length h]

lemma Holds.store (h : Holds s a) (hle : a.taken ≤ a.committed.length)
    (hlt : a.held < INPUT_BUF_SIZE) (c : UInt8) :
    Holds (store s c) (if c = newline ∨ c = ctrlD ∨ (a.append c).held = INPUT_BUF_SIZE then
      (a.append c).commit else a.append c) := by
  have hcont := h.append hlt c
  have hheld := held_append a c
  set s' : Cons := { s with
    buf := update s.buf (Fin.ofNat INPUT_BUF_SIZE s.e.toNat) c
    e := s.e + 1 } with hs'
  have hedit : (s'.e - s'.r).toNat = (a.append c).held := by
    have := congrArg List.length hcont
    simp only [contents, List.length_map, List.length_range] at this
    exact this.trans (List.length_append ..)
  have hle' : (a.append c).held ≤ INPUT_BUF_SIZE := by omega
  have hlen : (a.queue ++ (a.pending ++ [c])).length = (a.append c).held := List.length_append ..
  show Holds (if c = newline ∨ c = ctrlD ∨ (s'.e - s'.r).toNat = INPUT_BUF_SIZE then
    { s' with w := s'.e } else s') _
  rw [hedit]
  split_ifs with hc
  · have hq : (a.append c).commit.queue = a.queue ++ (a.pending ++ [c]) := queue_commit hle
    refine ⟨?_, ?_, ?_, by simp [Line.commit]⟩
    · rw [hq]
      exact hcont.trans (List.append_nil _).symm
    · have he : s'.e = s'.r + BitVec.ofNat 32 (RingBuffer.used (ring s')) := nwrite_eq (ring s')
      have hu : RingBuffer.used (ring s') = (a.append c).held := hedit
      rw [hq]
      show s'.e = s'.r + _
      rw [he, hu, hlen]
    · rw [Line.held, hq, hlen]
      exact hle'
  · refine ⟨hcont, h.split, hle', ?_⟩
    intro hm
    rcases List.mem_append.mp hm with h1 | h1
    · exact h.clean h1
    · exact hc (Or.inl (List.mem_singleton.mp h1).symm)

/-- **The handler edits the line.** -/
lemma Holds.intr (h : Holds s a) (hle : a.taken ≤ a.committed.length) (c : UInt8) :
    Holds (consoleintr s c) (a.type c) := by
  unfold consoleintr Line.type
  by_cases hP : c = ctrlP
  · simpa [hP] using h
  by_cases h0 : c = 0
  · have hU : (0 : UInt8) ≠ ctrlU := by decide
    have hH : ¬ ((0 : UInt8) = ctrlH ∨ (0 : UInt8) = delete) := by decide
    rw [if_neg hP, if_pos (Or.inl h0), h0, if_neg hU, if_neg hH, if_neg (by simp)]
    exact h
  rw [if_neg hP, if_neg (by tauto : ¬ (c = 0 ∨ c = ctrlP))]
  have hroom : (s.e - s.r).toNat < INPUT_BUF_SIZE ↔ ¬ a.held = INPUT_BUF_SIZE := by
    have := h.bound
    rw [h.edit]
    omega
  by_cases hU : c = ctrlU
  · rw [if_pos hU, if_pos hU, h.fuel]
    exact h.killLine
  rw [if_neg hU, if_neg hU]
  by_cases hH : c = ctrlH ∨ c = delete
  · rw [if_pos hH, if_pos hH]
    split_ifs with he
    · exact (h.erase (mt h.noPending.mpr he)).1
    · have hp : a.pending = [] := h.noPending.mp (by simpa using he)
      have ha : ({ a with pending := a.pending.dropLast } : Line) = a := by
        rw [hp, List.dropLast_nil, ← hp]
      rw [ha]
      exact h
  rw [if_neg hH, if_neg hH]
  by_cases hfull : a.held = INPUT_BUF_SIZE
  · rw [if_neg fun hx => hroom.mp hx.2 hfull, if_pos hfull]
    exact h
  · rw [if_pos ⟨h0, hroom.mpr hfull⟩, if_neg hfull]
    exact h.store hle (lt_of_le_of_ne h.bound hfull) _

/-! ### Readers -/

lemma Holds.take (h : Holds s a) {c : UInt8} {l : List UInt8} (hq : a.queue = c :: l) :
    s.at s.r = c ∧ Holds { s with r := s.r + 1 } { a with taken := a.taken + 1 } := by
  have hu : RingBuffer.used (ring s) ≠ 0 := by
    rw [h.used, Line.held, hq, List.length_cons]
    omega
  have hcont := contents_pop SIZE_dvd hu
  rw [h.cont, hq, List.cons_append] at hcont
  obtain ⟨h1, h2⟩ := List.cons_eq_cons.mp hcont
  have hq' : ({ a with taken := a.taken + 1 } : Line).queue = l := by
    have := congrArg List.tail hq
    rwa [Line.queue, List.tail_drop, List.tail_cons] at this
  refine ⟨h1.symm, ⟨?_, ?_, ?_, h.clean⟩⟩
  · rw [hq']
    exact h2.symm
  · have hone : (1 : BitVec 32) = BitVec.ofNat 32 1 := rfl
    show s.w = s.r + 1 + _
    rw [h.split, hq, hq', List.length_cons, hone, add_assoc, BitVec.ofNat_add_ofNat,
      Nat.add_comm 1]
  · have := h.bound
    simp only [Line.held, hq', hq, List.length_cons] at this ⊢
    omega

omit [DecidableEq P] in
/-- **A reader takes from the buffer what it would take from the line.** -/
lemma Holds.read (h : Holds s a) (p : P) (killed : Bool) (target n : ℕ) (log : List (Event P)) :
    Holds (consoleread p killed target n s log).1 (a.read p killed target n log).1 ∧
      (consoleread p killed target n s log).2 = (a.read p killed target n log).2 := by
  induction n generalizing s a log with
  | zero => exact ⟨h, rfl⟩
  | succ n ih =>
    rw [consoleread, Line.read]
    by_cases he : s.r = s.w
    · rw [if_pos he]
      simp only [h.empty.mp he]
      split_ifs
      · exact ⟨h, rfl⟩
      · exact ⟨h, rfl⟩
    · rw [if_neg he]
      obtain ⟨c, l, hq⟩ := List.exists_cons_of_ne_nil (mt h.empty.mpr he)
      obtain ⟨hc, h'⟩ := h.take hq
      simp only [hq, hc]
      split_ifs
      · refine ⟨?_, rfl⟩
        -- the index goes back to where it was
        show Holds { s with r := s.r + 1 - 1 } a
        rw [BitVec.add_sub_cancel]
        exact h
      · exact ⟨h', rfl⟩
      · exact ⟨h', rfl⟩
      · exact ih h' _

/-! ### Runs -/

/-- The console does what the line discipline does. -/
structure Refines (s : State P) (a : Spec P) : Prop where
  holds : Holds s.cons a.line
  pc : s.pc = a.pc
  log : s.log = a.log
  delivered : Delivered a.line a.log
  waits : Waits a.pc

omit [DecidableEq P] in
lemma refines_start : Refines (start : State P) specStart := by
  have hcont : contents (ring (start : State P).cons) = [] := by
    simp [contents, used, ring, start]
  have hheld : (specStart : Spec P).line.held = 0 := rfl
  refine ⟨⟨hcont, rfl, ?_, by simp [specStart]⟩, rfl, rfl, ⟨le_rfl, rfl, rfl⟩, ?_⟩
  · rw [hheld]
    exact Nat.zero_le _
  intro p n target h
  cases h

lemma Refines.read {s : State P} {a : Spec P} (h : Refines s a) (p : P) (killed : Bool)
    {target n : ℕ} (hn : n ≤ target) {x : Cons × Pc × List (Event P)}
    (hx : consoleread p killed target n s.cons s.log = x)
    {y : Line × Pc × List (Event P)} (hy : a.line.read p killed target n a.log = y) :
    Refines ⟨x.1, update s.pc p x.2.1, x.2.2⟩
      ⟨y.1, update a.pc p y.2.1, y.2.2⟩ := by
  obtain ⟨h1, h2⟩ := h.holds.read p killed target n s.log
  rw [h.log] at h1 h2 hx
  rw [hx, hy] at h1 h2
  refine ⟨h1, by rw [h.pc, h2], by rw [h2], ?_, ?_⟩
  · rw [← hy]
    exact h.delivered.read hn
  · intro q m t hq
    by_cases e : q = p
    · subst e
      simp only [update_self] at hq
      rw [← hy] at hq
      exact waits_read hn hq
    · simp only [update_of_ne e] at hq
      exact h.waits q m t hq

lemma Refines.step {s t : State P} {a : Spec P} {act : Act P} (h : Refines s a)
    (hs : step s act = some t) : ∃ b, specStep a act = some b ∧ Refines t b := by
  cases act with
  | intr c =>
    cases hs
    exact ⟨_, rfl, h.holds.intr h.delivered.bound c, h.pc, h.log, h.delivered.type c, h.waits⟩
  | read p n killed =>
    rw [ConsoleModel.step, h.pc] at hs
    simp only [specStep]
    cases hp : a.pc p with
    | idle =>
      simp only [hp] at hs
      cases hs
      refine ⟨_, rfl, ?_⟩
      have hr := h.read p killed (le_refl n.toNat) rfl rfl
      rwa [h.pc] at hr
    | asleep n target =>
      simp only [hp] at hs
      cases hs
  | resume p killed =>
    rw [ConsoleModel.step, h.pc] at hs
    simp only [specStep]
    cases hp : a.pc p with
    | idle =>
      simp only [hp] at hs
      cases hs
    | asleep n target =>
      simp only [hp] at hs
      cases hs
      refine ⟨_, rfl, ?_⟩
      have hr := h.read p killed (h.waits p n target hp) rfl rfl
      rwa [h.pc] at hr

lemma Refines.run {s t : State P} {a : Spec P} {acts : List (Act P)} (h : Refines s a)
    (hs : run ConsoleModel.step s acts = some t) :
    ∃ b, Runs.run specStep a acts = some b ∧ Refines t b := by
  induction acts generalizing s a with
  | nil =>
    cases hs
    exact ⟨a, rfl, h⟩
  | cons act acts ih =>
    rw [run_cons, Option.bind_eq_some_iff] at hs
    obtain ⟨u, hu, hs⟩ := hs
    obtain ⟨b, hb, hub⟩ := h.step hu
    obtain ⟨b', hb', ht⟩ := ih hub hs
    refine ⟨b', ?_, ht⟩
    rw [run_cons, hb, Option.bind_some, hb']

/-- **The console's line discipline.** Whatever is typed and read, in any order: the indices stay in
their order and within one buffer of each other, readers are served as the line discipline says, and
what they have got is the committed input up to some point, in order, without each `^D`, for which
there was one zero-length read. What is left of it is in the buffer, followed by what is not
committed yet. -/
theorem line_discipline {acts : List (Act P)} {s : State P} (h : run step start acts = some s) :
    ((s.cons.w - s.cons.r).toNat ≤ (s.cons.e - s.cons.r).toNat ∧
      (s.cons.e - s.cons.r).toNat ≤ INPUT_BUF_SIZE) ∧
    ∃ a, run specStep specStart acts = some a ∧ s.log = a.log ∧ s.pc = a.pc ∧
      outs s.log = (a.line.committed.take a.line.taken).filter (· ≠ ctrlD) ∧
      eofs s.log = (a.line.committed.take a.line.taken).count ctrlD ∧
      contents (ring s.cons) = a.line.committed.drop a.line.taken ++ a.line.pending := by
  obtain ⟨a, ha, href⟩ := refines_start.run h
  have hheld : a.line.held = a.line.queue.length + a.line.pending.length := rfl
  refine ⟨⟨?_, ?_⟩, a, ha, href.log, href.pc, ?_, ?_, href.holds.cont⟩
  · rw [href.holds.write, href.holds.edit]
    omega
  · rw [href.holds.edit]
    exact href.holds.bound
  · rw [href.log]
    exact href.delivered.outs
  · rw [href.log]
    exact href.delivered.eofs

/-- A reader waits; then `hx`, backspace, `i` and return are typed, and it reads on. -/
def oneLine : List (Act Unit) :=
  [.read () 10 false, .intr 104, .intr 120, .intr ctrlH, .intr 105, .intr carriage,
    .resume () false]

theorem line_discipline_oneLine : ∃ s : State Unit, run step start oneLine = some s ∧
    outs s.log = [104, 105, newline] ∧ (s.cons.e - s.cons.r).toNat ≤ INPUT_BUF_SIZE :=
  ⟨_, rfl, rfl, (line_discipline (show run step start oneLine = some _ from rfl)).1.2⟩

end Xv6.ConsoleLine
