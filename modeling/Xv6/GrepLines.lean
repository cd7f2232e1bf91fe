import Xv6.GrepMatch

/-!
The main loop of `grep` (user/grep.c): lines are cut out of a buffer that `read` fills in
pieces of any size, and what is left of the last line is carried over to the next read.

The buffer is the list of the bytes that are in it; its size shows in how many bytes the loop
asks for.
-/

namespace Xv6.Grep

def nl : UInt8 := '\n'.toUInt8

def BUFSIZE : ℕ := 1024

def strchr (c : UInt8) : List UInt8 → Option ℕ
  | [] => none
  | x :: s => if x = 0 then none else if x = c then some 0 else (strchr c s).map (· + 1)

lemma strchr_lt {c : UInt8} {s : List UInt8} {k : ℕ} (h : strchr c s = some k) : k < s.length := by
  induction s generalizing k with
  | nil => simp [strchr] at h
  | cons x s ih =>
    rw [strchr] at h
    split_ifs at h
    · cases h
      simp
    · obtain ⟨j, hj, rfl⟩ := Option.map_eq_some_iff.mp h
      simpa using ih hj

/-- The inner loop of `grep` from `p` on: what it writes, and the rest that holds no whole
line. -/
def grepLines (pattern p : List UInt8) : List (List UInt8) × List UInt8 :=
  match h : strchr nl p with
  | none => ([], p)
  | some q =>
    let r := grepLines pattern (p.drop (q + 1))
    (if match_ pattern (p.take q) then (p.take (q + 1) :: r.1, r.2) else r)
termination_by p.length
decreasing_by
  have := strchr_lt h
  simp only [List.length_drop]
  omega

/-- `read` of at most `k` bytes: at least one when it can, and as many as `want` otherwise. -/
def read (want k : ℕ) (stream : List UInt8) : ℕ := min (max want 1) (min k stream.length)

/-- The outer loop of `grep`, with the bytes in the buffer: the `i`-th read gives `want i`
bytes, as far as the buffer and the stream have them. -/
def grepLoop (pattern : List UInt8) (want : ℕ → ℕ) (stream buf : List UInt8) :
    List (List UInt8) :=
  let n := read (want 0) (BUFSIZE - buf.length - 1) stream
  if n = 0 then []
  else
    let r := grepLines pattern (buf ++ stream.take n)
    r.1 ++ grepLoop pattern (fun i => want (i + 1)) (stream.drop n) r.2
termination_by stream.length
decreasing_by
  have hn : n ≤ stream.length := (Nat.min_le_right _ _).trans (Nat.min_le_right _ _)
  simp only [List.length_drop]
  omega

/-- `grep`: what it writes to standard output, one element for each call of `write`. -/
def grep (pattern : List UInt8) (want : ℕ → ℕ) (stream : List UInt8) : List (List UInt8) :=
  grepLoop pattern want stream []

/-! ### The lines of a stream -/

def lines : List UInt8 → List (List UInt8)
  | [] => []
  | c :: s =>
    if c = nl then [nl] :: lines s
    else
      match lines s with
      | [] => [[c]]
      | l :: ls => (c :: l) :: ls

def text (l : List UInt8) : List UInt8 := l.takeWhile (· ≠ nl)

lemma lines_append {u s : List UInt8} (hu : nl ∉ u) :
    lines (u ++ s) =
      match lines s with
      | [] => if u = [] then [] else [u]
      | l :: ls => (u ++ l) :: ls := by
  induction u with
  | nil => cases h : lines s <;> simp [h]
  | cons c u ih =>
    rw [List.mem_cons, not_or] at hu
    rw [List.cons_append, lines, if_neg (Ne.symm hu.1), ih hu.2]
    cases lines s with
    | nil => by_cases h : u = [] <;> simp [h]
    | cons l ls => rfl

lemma lines_newline {u s : List UInt8} (hu : nl ∉ u) :
    lines (u ++ nl :: s) = (u ++ [nl]) :: lines s := by
  rw [lines_append hu, lines, if_pos rfl]

lemma lines_last {u : List UInt8} (hu : nl ∉ u) : lines u = if u = [] then [] else [u] := by
  simpa [lines] using lines_append (s := []) hu

lemma lines_ne_nil {s : List UInt8} (hs : s ≠ []) : lines s ≠ [] := by
  obtain ⟨c, s, rfl⟩ := List.exists_cons_of_ne_nil hs
  rw [lines]
  split_ifs
  · simp
  · cases lines s <;> simp

lemma lines_flatten (s : List UInt8) : (lines s).flatten = s := by
  induction s with
  | nil => rfl
  | cons c s ih =>
    rw [lines]
    split_ifs with hc
    · simp [ih, hc]
    · cases h : lines s with
      | nil =>
        rw [h] at ih
        simp [← ih]
      | cons l ls =>
        rw [h] at ih
        simpa using ih

lemma nil_notMem_lines (s : List UInt8) : [] ∉ lines s := by
  induction s with
  | nil => simp [lines]
  | cons c s ih =>
    rw [lines]
    split_ifs
    · simp [ih]
    · cases h : lines s with
      | nil => simp
      | cons l ls =>
        rw [h] at ih
        simp only [List.mem_cons, not_or] at ih ⊢
        exact ⟨by simp, ih.2⟩

lemma zero_notMem_lines {s l : List UInt8} (h0 : 0 ∉ s) (hl : l ∈ lines s) : 0 ∉ l := by
  rw [← lines_flatten s] at h0
  exact fun h => h0 (List.mem_flatten.mpr ⟨l, hl, h⟩)

lemma text_append {u : List UInt8} (hu : nl ∉ u) (s : List UInt8) :
    text (u ++ s) = u ++ text s := by
  induction u with
  | nil => rfl
  | cons c u ih =>
    rw [List.mem_cons, not_or] at hu
    have hc : c ≠ nl := Ne.symm hu.1
    simpa [text, hc] using ih hu.2

lemma text_newline {u : List UInt8} (hu : nl ∉ u) : text (u ++ [nl]) = u := by
  rw [text_append hu]
  simp [text]

/-! ### The loops -/

lemma strchr_some {s : List UInt8} {q : ℕ} (h : strchr nl s = some q) :
    s = s.take q ++ nl :: s.drop (q + 1) ∧ nl ∉ s.take q := by
  induction s generalizing q with
  | nil => simp [strchr] at h
  | cons x s ih =>
    rw [strchr] at h
    split_ifs at h with h0 hx
    · cases h
      simp [hx]
    · obtain ⟨j, hj, rfl⟩ := Option.map_eq_some_iff.mp h
      obtain ⟨hs, hn⟩ := ih hj
      simp only [List.take_succ_cons, List.drop_succ_cons, List.cons_append, List.mem_cons,
        not_or]
      exact ⟨congrArg _ hs, Ne.symm hx, hn⟩

lemma strchr_none {s : List UInt8} (h0 : 0 ∉ s) (h : strchr nl s = none) : nl ∉ s := by
  induction s with
  | nil => simp
  | cons x s ih =>
    rw [List.mem_cons, not_or] at h0
    rw [strchr, if_neg (Ne.symm h0.1)] at h
    split_ifs at h with hx
    rw [List.mem_cons, not_or]
    exact ⟨Ne.symm hx, ih h0.2 (Option.map_eq_none_iff.mp h)⟩

lemma take_newline {s : List UInt8} {q : ℕ} (h : strchr nl s = some q) :
    s.take (q + 1) = s.take q ++ [nl] := by
  have hl : (s.take q).length = q := List.length_take_of_le (strchr_lt h).le
  conv_lhs => rw [(strchr_some h).1, List.take_append, hl]
  simp [hl]

lemma lines_cut {p : List UInt8} {q : ℕ} (h : strchr nl p = some q) (s : List UInt8) :
    lines (p ++ s) = p.take (q + 1) :: lines (p.drop (q + 1) ++ s) := by
  obtain ⟨hcut, hq⟩ := strchr_some h
  conv_lhs => rw [hcut, List.append_assoc, List.cons_append, lines_newline hq]
  rw [take_newline h]

/-- The buffer `p` is whole lines and a rest, whatever follows it in the stream. -/
def Splits (p : List UInt8) (ls : List (List UInt8)) (rest : List UInt8) : Prop :=
  p = ls.flatten ++ rest ∧ nl ∉ rest ∧ (∀ l ∈ ls, nl ∈ l) ∧
    ∀ s, lines (p ++ s) = ls ++ lines (rest ++ s)

lemma Splits.cut {p rest : List UInt8} {q : ℕ} {ls : List (List UInt8)}
    (hs : Splits (p.drop (q + 1)) ls rest) (h : strchr nl p = some q) :
    Splits p (p.take (q + 1) :: ls) rest := by
  obtain ⟨hp, hn, hend, hls⟩ := hs
  refine ⟨?_, hn, List.forall_mem_cons.mpr ⟨by simp [take_newline h], hend⟩, fun s => ?_⟩
  · rw [List.flatten_cons, List.append_assoc, ← hp, List.take_append_drop]
  · rw [lines_cut h, hls, List.cons_append]

/-- What the inner loop does with the buffer: it takes whole lines off its front and writes those
that match. -/
lemma grepLines_spec (pattern : List UInt8) {p : List UInt8} (h0 : 0 ∉ p) :
    ∃ ls, (grepLines pattern p).1 = ls.filter (fun l => match_ pattern (text l)) ∧
      Splits p ls (grepLines pattern p).2 := by
  fun_induction grepLines pattern p with
  | case1 p h => exact ⟨[], rfl, rfl, strchr_none h0 h, by simp, fun s => rfl⟩
  | case2 p q h r hm ih =>
    obtain ⟨ls, hout, hs⟩ := ih fun hx => h0 (List.mem_of_mem_drop hx)
    refine ⟨_, ?_, hs.cut h⟩
    rw [hout, List.filter_cons_of_pos]
    rw [take_newline h, text_newline (strchr_some h).2]
    exact hm
  | case3 p q h r hm ih =>
    obtain ⟨ls, hout, hs⟩ := ih fun hx => h0 (List.mem_of_mem_drop hx)
    refine ⟨_, ?_, hs.cut h⟩
    rw [hout, List.filter_cons_of_neg]
    rw [take_newline h, text_newline (strchr_some h).2]
    exact hm

/-- A line that the loop gets to see: it has a newline, and with it leaves room for the
terminator. -/
def Fits (l : List UInt8) : Prop := nl ∈ l ∧ l.length < BUFSIZE

instance (l : List UInt8) : Decidable (Fits l) := inferInstanceAs (Decidable (_ ∧ _))

/-- The outer loop, with a part of a line in the buffer: the lines up to the first one that does
not fit are filtered. -/
lemma grepLoop_spec (pattern : List UInt8) (want : ℕ → ℕ) {stream buf : List UInt8}
    (h0 : 0 ∉ buf ++ stream) (hn : nl ∉ buf) (hb : buf.length < BUFSIZE) :
    grepLoop pattern want stream buf = ((lines (buf ++ stream)).takeWhile (Fits ·)).filter
      (fun l => match_ pattern (text l)) := by
  induction hk : stream.length using Nat.strong_induction_on generalizing stream buf want with
  | _ k ih =>
    subst hk
    rw [grepLoop]
    simp only
    set n := read (want 0) (BUFSIZE - buf.length - 1) stream with hread
    unfold read at hread
    by_cases hz : n = 0
    · rw [if_pos hz]
      cases hstream : stream with
      | nil =>
        -- the end of the stream: a line without a newline is still in the buffer
        rw [List.append_nil, lines_last hn]
        split_ifs
        · rfl
        · rw [List.takeWhile_cons_of_neg (by simp [Fits, hn]), List.filter_nil]
      | cons c s =>
        -- the buffer is full of one line
        have hne : stream ≠ [] := by simp [hstream]
        rw [← hstream]
        obtain ⟨l, ls, hl⟩ := List.exists_cons_of_ne_nil (lines_ne_nil hne)
        have hl0 : l ≠ [] := fun h => nil_notMem_lines stream (by rw [hl, h]; simp)
        have h1 := List.length_pos_iff.mpr hl0
        have h2 := List.length_pos_iff.mpr hne
        rw [lines_append hn, hl, List.takeWhile_cons_of_neg, List.filter_nil]
        simp only [Fits, List.length_append, decide_eq_true_eq, not_and]
        omega
    · rw [if_neg hz]
      have hle : n ≤ stream.length := by omega
      have hstream : buf ++ stream = (buf ++ stream.take n) ++ stream.drop n := by
        rw [List.append_assoc, List.take_append_drop]
      have h0' : 0 ∉ buf ++ stream.take n := fun h => h0 (hstream ▸ List.mem_append_left _ h)
      obtain ⟨ls, hout, hp, hnl, hend, hls⟩ := grepLines_spec pattern h0'
      have hlines := hls (stream.drop n)
      rw [← hstream] at hlines
      have hlen : (grepLines pattern (buf ++ stream.take n)).2.length ≤
          (buf ++ stream.take n).length := by
        conv_rhs => rw [hp]
        simp
      have hrest : 0 ∉ (grepLines pattern (buf ++ stream.take n)).2 ++ stream.drop n := by
        intro h
        apply h0
        rw [hstream, hp, List.append_assoc]
        exact List.mem_append_right _ h
      have hdec : (stream.drop n).length < stream.length := by
        simp only [List.length_drop]
        omega
      have hshort : (buf ++ stream.take n).length < BUFSIZE := by
        rw [List.length_append, List.length_take]
        omega
      have hfit : ∀ l ∈ ls, decide (Fits l) = true := by
        intro l hl
        have hle : l.length ≤ (buf ++ stream.take n).length := by
          rw [hp, List.length_append]
          have := (List.sublist_flatten_of_mem hl).length_le
          omega
        exact decide_eq_true ⟨hend l hl, hle.trans_lt hshort⟩
      rw [ih _ hdec _ hrest hnl (hlen.trans_lt hshort) rfl, hlines,
        List.takeWhile_append_of_pos hfit, List.filter_append, hout]

open Classical in
/-- **`grep` filters lines.** For every way the reads split a stream without NUL bytes, `grep`
writes the lines that match among those before the first line that has no newline or is too long
for the buffer. These are all lines of the stream that match exactly if no line from that one on
does. -/
theorem grep_filters_lines (pattern : List UInt8) (want : ℕ → ℕ) (stream : List UInt8)
    (hr : 0 ∉ pattern) (h0 : 0 ∉ stream) :
    grep pattern want stream =
      ((lines stream).takeWhile (Fits ·)).filter (fun l => Matches pattern (text l)) ∧
    (grep pattern want stream = (lines stream).filter (fun l => Matches pattern (text l)) ↔
      ∀ l ∈ (lines stream).dropWhile (Fits ·), ¬ Matches pattern (text l)) := by
  have hloop : grep pattern want stream =
      ((lines stream).takeWhile (Fits ·)).filter (fun l => Matches pattern (text l)) := by
    rw [grep, grepLoop_spec pattern want h0 (by simp) (by decide)]
    refine List.filter_congr fun l hl => ?_
    have ht : 0 ∉ text l := fun h =>
      zero_notMem_lines h0 ((List.takeWhile_sublist _).mem hl) ((List.takeWhile_sublist _).mem h)
    rw [Bool.eq_iff_iff, match_iff_matches hr ht, decide_eq_true_iff]
  refine ⟨hloop, ?_⟩
  have hcut : (lines stream).filter (fun l => Matches pattern (text l)) =
      ((lines stream).takeWhile (Fits ·)).filter (fun l => Matches pattern (text l)) ++
        ((lines stream).dropWhile (Fits ·)).filter (fun l => Matches pattern (text l)) := by
    rw [← List.filter_append, List.takeWhile_append_dropWhile]
  rw [hloop, hcut, List.self_eq_append_right]
  simp

open Classical in
/-- Three lines, read byte by byte, of which the first has an `a` and the last no newline. -/
theorem grep_filters_lines_bytewise :
    grep [97] (fun _ => 1) [98, 97, 10, 98, 10, 98] = [[98, 97, 10]] ∧
      (lines [98, 97, 10, 98, 10, 98]).filter (fun l => Matches [97] (text l)) =
        [[98, 97, 10]] := by
  have hg : grep [97] (fun _ => 1) [98, 97, 10, 98, 10, 98] = [[98, 97, 10]] := by decide +kernel
  have hl : (lines [98, 97, 10, 98, 10, 98]).dropWhile (Fits ·) = [[98]] := by decide +kernel
  refine ⟨hg, ?_⟩
  rw [← (grep_filters_lines [97] (fun _ => 1) _ (by decide) (by decide)).2.mpr ?_, hg]
  rw [hl]
  simp only [List.mem_singleton, forall_eq]
  rw [← match_iff_matches (by decide) (by decide +kernel)]
  decide +kernel

/-- The line `a` at the end of a stream, without a newline, matches and is not written. -/
theorem last_line_dropped : grep [97] (fun _ => 1) [97] = [] ∧ lines [97] = [[97]] ∧
    Matches [97] (text [97]) := by
  refine ⟨by decide +kernel, by decide +kernel, ?_⟩
  exact (match_iff_matches (by decide) (by decide +kernel)).mp (by decide +kernel)

/-! ### A line that fills the buffer -/

lemma grepLines_of_noNewline (pattern : List UInt8) {p : List UInt8} (hp : nl ∉ p) :
    grepLines pattern p = ([], p) := by
  have hq : strchr nl p = none := by
    rw [Option.eq_none_iff_forall_ne_some]
    intro q hq
    apply hp
    rw [(strchr_some hq).1]
    simp
  rw [grepLines]
  split
  · rfl
  · simp_all

lemma grepLoop_full (pattern : List UInt8) (want : ℕ → ℕ) {stream buf : List UInt8}
    (hn : nl ∉ (buf ++ stream).take (BUFSIZE - 1)) (hb : buf.length < BUFSIZE)
    (hlen : BUFSIZE ≤ (buf ++ stream).length + 1) : grepLoop pattern want stream buf = [] := by
  induction hk : stream.length using Nat.strong_induction_on generalizing stream buf want with
  | _ k ih =>
    subst hk
    rw [grepLoop]
    simp only
    set n := read (want 0) (BUFSIZE - buf.length - 1) stream with hread
    unfold read at hread
    split_ifs with hz
    · rfl
    · have hstream : (buf ++ stream.take n) ++ stream.drop n = buf ++ stream := by
        rw [List.append_assoc, List.take_append_drop]
      have hshort : (buf ++ stream.take n).length ≤ BUFSIZE - 1 := by
        rw [List.length_append, List.length_take]
        omega
      have hnl : nl ∉ buf ++ stream.take n := by
        intro h
        apply hn
        rw [← hstream, List.take_append, List.take_of_length_le hshort]
        exact List.mem_append_left _ h
      rw [grepLines_of_noNewline pattern hnl, List.nil_append]
      refine ih _ ?_ _ ?_ ?_ ?_ rfl
      · rw [List.length_drop]
        omega
      · rwa [hstream]
      · exact Nat.lt_of_le_of_lt hshort (by decide)
      · rwa [hstream]

/-- **A long line ends the output.** A stream that begins with a line too long for the buffer
has nothing of it written, whatever follows. -/
theorem long_line_ends_output (pattern : List UInt8) (want : ℕ → ℕ) (u s : List UInt8)
    (hu : nl ∉ u) (hlen : BUFSIZE ≤ u.length + 1) : grep pattern want (u ++ s) = [] := by
  refine grepLoop_full pattern want ?_ (by decide) ?_
  · rw [List.nil_append, List.take_append_of_le_length (by omega)]
    exact fun h => hu (List.mem_of_mem_take h)
  · simp only [List.nil_append, List.length_append]
    omega

theorem long_line_ends_output_letters : grep [97] (fun _ => 1)
    (List.replicate (BUFSIZE - 1) 97 ++ [nl, 97, nl]) = [] :=
  long_line_ends_output _ _ _ _ (fun h => absurd (List.eq_of_mem_replicate h) (by decide))
    (by rw [List.length_replicate]; decide)

end Xv6.Grep
