import Xv6.GrepLines
import Xv6.Printf

/-!
The scanner of `sixfive` (user/sixfive.c), which prints the numbers in its input files that are
multiples of 5 or of 6.

The scanner reads one byte at a time and keeps a number and a flag. It is compared with the
file cut into segments at the separators.
-/

namespace Xv6.Sixfive

open Printf

def text (s : String) : List UInt8 := s.toList.map (·.toUInt8)

def separators : List UInt8 := text " -\r\t\n.,"

def isSeparator (c : UInt8) : Bool := (Grep.strchr c separators).isSome

def isMultipleOf5Or6 (num : Int32) : Bool := num % 5 == 0 || num % 6 == 0

def isDigit (c : UInt8) : Bool := decide ('0'.toUInt8 ≤ c) && decide (c ≤ '9'.toUInt8)

/-- The variables of the loop over a file, and what has gone to standard output. An `int` is in
32 bits and wraps around. -/
structure Scan where
  num : Int32
  inNumber : Bool
  out : List UInt8
  deriving DecidableEq, Repr

/-- `printf("%d\n", num)` if `num` is a multiple. The argument is passed in a register with its
sign extended. -/
def printNum (num : Int32) (out : List UInt8) : Except Fault (List UInt8) :=
  if isMultipleOf5Or6 num then do
    pure (out ++ (← vprintf false (text "%d\n") [.word (num.toBitVec.signExtend 64)]))
  else pure out

/-- The body of the loop, for the byte that has been read. -/
def scanByte (s : Scan) (c : UInt8) : Except Fault Scan :=
  if isDigit c then
    pure { s with num := s.num * 10 + (Int32.ofNat c.toNat - 48), inNumber := true }
  else if isSeparator c then
    if s.inNumber then do
      let out ← printNum s.num s.out
      pure ⟨0, false, out⟩
    else pure s
  else pure s

def scanEnd (s : Scan) : Except Fault (List UInt8) :=
  if s.inNumber then printNum s.num s.out else pure s.out

def scanFile (content : List UInt8) (out : List UInt8) : Except Fault (List UInt8) := do
  scanEnd (← content.foldlM scanByte ⟨0, false, out⟩)

/-- What has gone to standard output and to standard error. -/
structure Output where
  stdout : List UInt8
  stderr : List UInt8
  deriving DecidableEq, Repr

/-- The loop over the arguments. A file system gives the contents of the files that can be
opened. -/
def scanFiles (fs : List UInt8 → Option (List UInt8)) :
    List (List UInt8) → Output → Except Fault Output
  | [], o => pure o
  | name :: names, o =>
    match fs name with
    | none => do
      let msg ← vprintf false (text "sixfive: cannot open %s\n") [.str (some name)]
      scanFiles fs names { o with stderr := o.stderr ++ msg }
    | some content => do
      let out ← scanFile content o.stdout
      scanFiles fs names { o with stdout := out }

def main (fs : List UInt8 → Option (List UInt8)) (argv : List (List UInt8)) :
    Except Fault (Output × ℕ) :=
  if argv.length < 2 then do
    pure (⟨[], ← vprintf false (text "Usage: sixfive <files...>\n") []⟩, 1)
  else do
    pure (← scanFiles fs (argv.drop 1) ⟨[], []⟩, 0)

/-! ### Segments -/

def segments (content : List UInt8) : List (List UInt8) :=
  content.splitOnP fun c => decide (c ∈ separators)

def digitsOf (seg : List UInt8) : List ℕ := (seg.filter isDigit).map fun c => c.toNat - 48

/-- The integer that the digits of a segment denote, the first one being the most
significant. -/
def denoted (seg : List UInt8) : ℕ := Nat.ofDigits 10 (digitsOf seg).reverse

def numbers (content : List UInt8) : List ℕ :=
  ((segments content).filter fun seg => seg.any isDigit).map denoted

def lines (vs : List ℕ) : List UInt8 :=
  (vs.filter fun v => decide (5 ∣ v ∨ 6 ∣ v)).flatMap fun v : ℕ =>
    numeral userDigits .dec v ++ ['\n'.toUInt8]

lemma isSeparator_eq (c : UInt8) : isSeparator c = decide (c ∈ separators) := by
  have h : ∀ s : List UInt8, 0 ∉ s → (Grep.strchr c s).isSome = decide (c ∈ s) := by
    intro s hs
    induction s with
    | nil => rfl
    | cons x s ih =>
      rw [List.mem_cons, not_or] at hs
      rw [Grep.strchr, if_neg (Ne.symm hs.1)]
      by_cases hx : x = c
      · simp [hx]
      · simp [hx, ih hs.2, Ne.symm hx]
  exact h separators (by decide)

lemma not_mem_separators {c : UInt8} (h : isDigit c = true) : c ∉ separators := by
  have hsep : separators.all (fun x => !isDigit x) = true := by decide
  intro hc
  have := List.all_eq_true.mp hsep c hc
  rw [h] at this
  exact absurd this (by decide)

lemma segments_sep {cur : List UInt8} {c : UInt8} (hcur : ∀ x ∈ cur, x ∉ separators)
    (hc : c ∈ separators) (content : List UInt8) :
    segments (cur ++ c :: content) = cur :: segments content :=
  List.splitOnP_append_cons_of_forall_mem (by simpa using hcur) c (by simpa using hc) content

lemma segments_last {cur : List UInt8} (hcur : ∀ x ∈ cur, x ∉ separators) :
    segments cur = [cur] :=
  List.splitOnP_eq_singleton (by simpa using hcur)

lemma denoted_digit {c : UInt8} (h : isDigit c = true) (cur : List UInt8) :
    denoted (cur ++ [c]) = denoted cur * 10 + (c.toNat - 48) := by
  simp [denoted, digitsOf, h, Nat.ofDigits_cons, Nat.add_comm, Nat.mul_comm]

lemma denoted_other {c : UInt8} (h : isDigit c = false) (cur : List UInt8) :
    denoted (cur ++ [c]) = denoted cur := by
  simp [denoted, digitsOf, h]

lemma digit_value {c : UInt8} (h : isDigit c = true) :
    Int32.ofNat c.toNat - 48 = Int32.ofNat (c.toNat - 48) := by
  have h48 : 48 ≤ c.toNat := by
    have h0 := (Bool.and_eq_true _ _ ▸ h).1
    exact UInt8.le_iff_toNat_le.mp (of_decide_eq_true h0)
  obtain ⟨d, hd⟩ := Nat.exists_eq_add_of_le' h48
  rw [hd, Nat.add_sub_cancel, Int32.ofNat_add]
  exact Int32.add_sub_cancel _ _

/-! ### What the scanner prints -/

def line (num : Int32) : List UInt8 :=
  if isMultipleOf5Or6 num then numeral userDigits .dec num.toInt ++ ['\n'.toUInt8] else []

lemma printf_num (num : Int32) :
    vprintf false (text "%d\n") [.word (num.toBitVec.signExtend 64)] =
      .ok (numeral userDigits .dec num.toInt ++ ['\n'.toUInt8]) := by
  have hv : Conv.d.value (num.toBitVec.signExtend 64) = num.toInt := by
    show ((num.toBitVec.signExtend 64).setWidth 32).toInt = num.toBitVec.toInt
    congr 1
    ext i hi
    have h64 : i < 64 := by omega
    simp [h64, BitVec.getElem_signExtend, hi]
  have hlt := num.toBitVec.toInt_lt
  have hle := num.toBitVec.le_toInt
  have hw := printintOf_value userDigits .d (num.toBitVec.signExtend 64) (by decide)
    (show _ < 2 ^ 32 by rw [hv]; show num.toBitVec.toInt.natAbs < _; omega)
  have ht : text "%d\n" = Conv.d.text ++ (['\n'.toUInt8] ++ []) := rfl
  rw [ht, vprintf_conv, hw, hv, vprintf_plain (by decide), vprintf]
  rfl

lemma printNum_ok (num : Int32) (out : List UInt8) : printNum num out = .ok (out ++ line num) := by
  unfold printNum line
  split_ifs with h
  · rw [printf_num]
    rfl
  · rw [List.append_nil]
    rfl

/-- The variables describe the part of the current segment that has been read. -/
structure Reads (s : Scan) (cur : List UInt8) : Prop where
  num : s.num = Int32.ofNat (denoted cur)
  inNumber : s.inNumber = cur.any isDigit

def printed (vs : List ℕ) : List UInt8 := vs.flatMap fun v => line (Int32.ofNat v)

lemma Reads.step_other {s : Scan} {cur : List UInt8} {c : UInt8} (h : Reads s cur)
    (hc : c ∉ separators) :
    ∃ s', scanByte s c = .ok s' ∧ Reads s' (cur ++ [c]) ∧ s'.out = s.out := by
  cases hd : isDigit c with
  | true =>
    have hstep : scanByte s c =
        .ok { s with num := s.num * 10 + (Int32.ofNat c.toNat - 48), inNumber := true } := by
      rw [scanByte, if_pos hd]
      rfl
    refine ⟨_, hstep, ⟨?_, by simp [hd]⟩, rfl⟩
    rw [denoted_digit hd, Int32.ofNat_add, Int32.ofNat_mul, ← h.num, digit_value hd]
    rfl
  | false =>
    have hsep : isSeparator c = false := by simpa [isSeparator_eq] using hc
    refine ⟨s, by simp [scanByte, hd, hsep]; rfl, ⟨?_, ?_⟩, rfl⟩
    · rw [h.num, denoted_other hd]
    · simp [h.inNumber, hd]

/-- The numbers of a segment: one if it has a digit. -/
def number (seg : List UInt8) : List ℕ := if seg.any isDigit then [denoted seg] else []

lemma numbers_eq (content : List UInt8) : numbers content = (segments content).flatMap number := by
  unfold numbers number
  induction segments content with
  | nil => rfl
  | cons seg segs ih =>
    rw [List.flatMap_cons, ← ih, List.filter_cons]
    split_ifs <;> rfl

lemma Reads.finish {s : Scan} {cur : List UInt8} (h : Reads s cur) :
    scanEnd s = .ok (s.out ++ printed (number cur)) := by
  unfold scanEnd number
  rw [h.inNumber, printNum_ok, h.num]
  split_ifs
  · simp [printed]
  · simp [printed]
    rfl

lemma Reads.step_sep {s : Scan} {cur : List UInt8} {c : UInt8} (h : Reads s cur)
    (hc : c ∈ separators) :
    ∃ s', scanByte s c = .ok s' ∧ Reads s' [] ∧ s'.out = s.out ++ printed (number cur) := by
  have hd : isDigit c = false := by
    by_contra hd
    exact not_mem_separators (by simpa using hd) hc
  have hsep : isSeparator c = true := by simpa [isSeparator_eq] using hc
  cases hn : s.inNumber with
  | true =>
    have hstep : scanByte s c = .ok ⟨0, false, s.out ++ line s.num⟩ := by
      simp only [scanByte, hd, hsep, hn, printNum_ok, if_true, Bool.false_eq_true, if_false]
      rfl
    refine ⟨_, hstep, ⟨rfl, rfl⟩, ?_⟩
    rw [number, if_pos (h.inNumber ▸ hn), h.num]
    simp [printed]
  | false =>
    have hany : cur.any isDigit = false := h.inNumber ▸ hn
    have hstep : scanByte s c = .ok s := by
      simp only [scanByte, hd, hsep, hn, if_true, Bool.false_eq_true, if_false]
      rfl
    have hnum : s.num = Int32.ofNat (denoted []) := by
      have h0 : digitsOf cur = [] := by
        simpa [digitsOf] using hany
      rw [h.num, denoted, h0]
      rfl
    refine ⟨s, hstep, ⟨hnum, hn⟩, ?_⟩
    simp [number, hany, printed]

/-- The loop from any position in a file on: it prints the numbers of the segments that have
not ended yet. -/
lemma Reads.run {s : Scan} {cur : List UInt8} (h : Reads s cur)
    (hcur : ∀ x ∈ cur, x ∉ separators) (content : List UInt8) :
    (content.foldlM scanByte s >>= scanEnd) =
      .ok (s.out ++ printed (numbers (cur ++ content))) := by
  induction content generalizing s cur with
  | nil =>
    rw [List.append_nil, numbers_eq, segments_last hcur, List.flatMap_singleton]
    exact h.finish
  | cons c content ih =>
    rw [List.foldlM_cons]
    by_cases hc : c ∈ separators
    · obtain ⟨s', hs, hr, hout⟩ := h.step_sep hc
      have := ih hr (by simp)
      rw [hs, numbers_eq, segments_sep hcur hc, List.flatMap_cons, ← numbers_eq, printed,
        List.flatMap_append, ← List.append_assoc]
      rw [hout] at this
      exact this
    · obtain ⟨s', hs, hr, hout⟩ := h.step_other hc
      have := ih hr (by simpa [or_imp, forall_and] using ⟨hcur, hc⟩)
      rw [hout, List.append_assoc, List.singleton_append] at this
      rw [hs]
      exact this

lemma scanFile_ok (content out : List UInt8) :
    scanFile content out = .ok (out ++ printed (numbers content)) :=
  (show Reads ⟨0, false, out⟩ [] from ⟨rfl, rfl⟩).run (by simp) content

/-! ### Wrapped numbers -/

def rows (vs : List ℤ) : List UInt8 := vs.flatMap fun v =>
  numeral userDigits .dec v ++ ['\n'.toUInt8]

lemma newline_notMem (v : ℤ) : '\n'.toUInt8 ∉ numeral userDigits .dec v := by
  have htab : ∀ d < 16, '\n'.toUInt8 ≠ userDigits.getD d 0 := by decide +kernel
  rw [numeral_eq_spell]
  intro h
  rcases mem_spell h with h | ⟨d, hd, h⟩
  · exact absurd h (by decide)
  · exact htab d hd h

lemma append_newline_inj {x y r s : List UInt8} (hx : '\n'.toUInt8 ∉ x) (hy : '\n'.toUInt8 ∉ y)
    (h : x ++ '\n'.toUInt8 :: r = y ++ '\n'.toUInt8 :: s) : x = y ∧ r = s := by
  rcases List.append_eq_append_iff.mp h with ⟨c, hw, hc⟩ | ⟨c, hw, hc⟩ <;> cases c with
  | nil => simp_all
  | cons b c =>
    obtain ⟨rfl, -⟩ := List.cons.inj hc
    simp_all

lemma rows_inj {vs ws : List ℤ} : rows vs = rows ws ↔ vs = ws := by
  refine ⟨fun h => ?_, fun h => h ▸ rfl⟩
  induction vs generalizing ws with
  | nil =>
    cases ws with
    | nil => rfl
    | cons w ws => simp [rows] at h
  | cons v vs ih =>
    cases ws with
    | nil => simp [rows] at h
    | cons w ws =>
      have hcons : ∀ (v : ℤ) vs, rows (v :: vs) =
          numeral userDigits .dec v ++ '\n'.toUInt8 :: rows vs := by
        intro v vs
        simp [rows]
      rw [hcons, hcons] at h
      obtain ⟨hv, hvs⟩ := append_newline_inj (newline_notMem v) (newline_notMem w) h
      rw [numeral_inj.mp hv, ih hvs]

/-- The test of the program, on an integer that is in the variable `num`. -/
def passes (v : ℕ) : Bool := isMultipleOf5Or6 (Int32.ofNat v)

lemma passes_iff {v : ℕ} (h : v < 2 ^ 31) : passes v = true ↔ 5 ∣ v ∨ 6 ∣ v := by
  have hv : (Int32.ofNat v).toInt = v := Int32.toInt_ofNat_of_lt h
  have hm (k : ℕ) (hk : k < 2 ^ 31) : Int32.ofNat v % Int32.ofNat k = 0 ↔ k ∣ v := by
    rw [← Int32.toInt_inj, Int32.toInt_mod, hv, Int32.toInt_ofNat_of_lt hk, Int32.toInt_zero,
      ← Int.ofNat_tmod, Int.natCast_eq_zero, Nat.dvd_iff_mod_eq_zero]
  rw [← hm 5 (by decide), ← hm 6 (by decide), passes, isMultipleOf5Or6, Bool.or_eq_true,
    beq_iff_eq, beq_iff_eq]
  rfl

lemma printed_eq_rows (vs : List ℕ) :
    printed vs = rows ((vs.filter passes).map fun v => (Int32.ofNat v).toInt) := by
  induction vs with
  | nil => rfl
  | cons v vs ih =>
    rw [printed, List.flatMap_cons, ← printed, ih, List.filter_cons, line, ← passes]
    split_ifs
    · simp [rows]
    · rfl

lemma lines_eq_rows (vs : List ℕ) :
    lines vs = rows ((vs.filter fun v => decide (5 ∣ v ∨ 6 ∣ v)).map fun v : ℕ => (v : ℤ)) := by
  rw [lines, rows, List.flatMap_map]

/-- An integer is handled as it should be: it fits in an `int`, or neither itself nor what it wraps
around to is printed. -/
def Handled (v : ℕ) : Prop := v < 2 ^ 31 ∨ ¬ (5 ∣ v ∨ 6 ∣ v) ∧ passes v = false

instance (v : ℕ) : Decidable (Handled v) := inferInstanceAs (Decidable (_ ∨ _))

lemma printed_eq_lines_iff (vs : List ℕ) : printed vs = lines vs ↔ ∀ v ∈ vs, Handled v := by
  rw [printed_eq_rows, lines_eq_rows, rows_inj]
  constructor
  · intro h
    -- what is printed fits in an `int`, so all multiples do
    have hfit : ∀ v ∈ vs, 5 ∣ v ∨ 6 ∣ v → v < 2 ^ 31 := by
      intro v hv hm
      have hmem : (v : ℤ) ∈ (vs.filter passes).map fun v => (Int32.ofNat v).toInt := by
        rw [h]
        exact List.mem_map.mpr ⟨v, List.mem_filter.mpr ⟨hv, by simpa using hm⟩, rfl⟩
      obtain ⟨w, -, hw⟩ := List.mem_map.mp hmem
      have hlt := (Int32.ofNat w).toInt_lt
      omega
    -- and as many numbers are printed as there are multiples
    have hsub : (vs.filter passes).filter (fun v => decide (5 ∣ v ∨ 6 ∣ v)) =
        vs.filter fun v => decide (5 ∣ v ∨ 6 ∣ v) := by
      rw [List.filter_filter]
      refine List.filter_congr fun v hv => ?_
      rw [Bool.and_eq_left_iff_imp]
      intro hm
      have hm := of_decide_eq_true hm
      exact (passes_iff (hfit v hv hm)).mpr hm
    have hlen := congrArg List.length h
    rw [List.length_map, List.length_map, ← hsub] at hlen
    intro v hv
    by_cases hlt : v < 2 ^ 31
    · exact .inl hlt
    · refine .inr ⟨fun hm => hlt (hfit v hv hm), ?_⟩
      by_contra hp
      have hall := List.length_filter_eq_length_iff.mp hlen.symm v
        (List.mem_filter.mpr ⟨hv, by simpa using hp⟩)
      exact hlt (hfit v hv (of_decide_eq_true hall))
  · intro h
    have hsame : vs.filter passes = vs.filter fun v => decide (5 ∣ v ∨ 6 ∣ v) := by
      refine List.filter_congr fun v hv => ?_
      rw [Bool.eq_iff_iff, decide_eq_true_eq]
      rcases h v hv with hlt | ⟨hm, hp⟩
      · exact passes_iff hlt
      · simp [hm, hp]
    rw [hsame]
    refine List.map_congr_left fun v hv => ?_
    obtain ⟨hv, hm⟩ := List.mem_filter.mp hv
    rcases h v hv with hlt | ⟨hn, -⟩
    · exact Int32.toInt_ofNat_of_lt hlt
    · exact absurd (of_decide_eq_true hm) hn

def held (fs : List UInt8 → Option (List UInt8)) (name : List UInt8) : List ℕ :=
  ((fs name).map numbers).getD []

lemma scanFiles_ok (fs : List UInt8 → Option (List UInt8)) (names : List (List UInt8))
    (o : Output) : ∃ o', scanFiles fs names o = .ok o' ∧
      o'.stdout = o.stdout ++ names.flatMap fun name => printed (held fs name) := by
  induction names generalizing o with
  | nil => exact ⟨o, rfl, by simp⟩
  | cons name names ih =>
    cases hf : fs name with
    | none =>
      have ht : text "sixfive: cannot open %s\n" = text "sixfive: cannot open " ++
          ("%s".toList.map (·.toUInt8) ++ (['\n'.toUInt8] ++ [])) := rfl
      obtain ⟨msg, hmsg⟩ : ∃ msg, vprintf false (text "sixfive: cannot open %s\n")
          [.str (some name)] = .ok msg := by
        rw [ht, vprintf_plain (by decide), vprintf_str, vprintf_plain (by decide), vprintf]
        exact ⟨_, rfl⟩
      obtain ⟨o', ho, hout⟩ := ih { o with stderr := o.stderr ++ msg }
      refine ⟨o', ?_, ?_⟩
      · rw [scanFiles, hf]
        simp only [hmsg]
        exact ho
      · rw [hout, List.flatMap_cons, held, hf]
        rfl
    | some content =>
      obtain ⟨o', ho, hout⟩ := ih { o with stdout := o.stdout ++ printed (numbers content) }
      refine ⟨o', ?_, ?_⟩
      · rw [scanFiles, hf]
        simp only [scanFile_ok]
        exact ho
      · rw [hout, List.flatMap_cons, held, hf, List.append_assoc]
        rfl

/-- **`sixfive` prints the multiples.** The program prints file by file and in order the integers
of the segments that have a digit, if they are multiples of 5 or of 6, exactly if each of these
integers fits in an `int` or neither it nor what it wraps around to is such a multiple. -/
theorem main_prints (fs : List UInt8 → Option (List UInt8)) (argv : List (List UInt8)) :
    ∃ o status, main fs argv = .ok (o, status) ∧
      (o.stdout = ((argv.drop 1).flatMap fun name => lines (held fs name)) ↔
        ∀ name ∈ argv.drop 1, ∀ v ∈ held fs name, Handled v) := by
  have hiff : ((argv.drop 1).flatMap fun name => printed (held fs name)) =
      ((argv.drop 1).flatMap fun name => lines (held fs name)) ↔
        ∀ name ∈ argv.drop 1, ∀ v ∈ held fs name, Handled v := by
    have hp : ((argv.drop 1).flatMap fun name => printed (held fs name)) =
        printed ((argv.drop 1).flatMap (held fs)) := List.flatMap_assoc.symm
    have hl : ((argv.drop 1).flatMap fun name => lines (held fs name)) =
        lines ((argv.drop 1).flatMap (held fs)) := by
      simp only [lines, List.filter_flatMap, List.flatMap_assoc]
    rw [hp, hl, printed_eq_lines_iff]
    simp only [List.mem_flatMap]
    exact ⟨fun h name hn v hv => h v ⟨name, hn, hv⟩, fun h v ⟨name, hn, hv⟩ => h name hn v hv⟩
  rw [← hiff]
  unfold main
  split_ifs with hlen
  · have ht : text "Usage: sixfive <files...>\n" = text "Usage: sixfive <files...>\n" ++ [] := rfl
    rw [ht, vprintf_plain (by decide), vprintf]
    refine ⟨_, _, rfl, ?_⟩
    rw [List.drop_eq_nil_of_le (by omega)]
    rfl
  · obtain ⟨o, ho, hout⟩ := scanFiles_ok fs (argv.drop 1) ⟨[], []⟩
    rw [ho]
    refine ⟨o, 0, rfl, ?_⟩
    rw [hout, List.nil_append]

/-- Two files, the first ending inside a number and the second starting with a digit; a letter
inside a segment does not end it. -/
theorem main_prints_two :
    ∃ o status, main (fun name => if name = text "a" then some (text "7x5 8,1") else
        some (text "2-18")) [text "sixfive", text "a", text "b"] = .ok (o, status) ∧
      o.stdout = text "75\n18\n" := by
  obtain ⟨o, status, ho, hout⟩ := main_prints (fun name => if name = text "a" then
    some (text "7x5 8,1") else some (text "2-18")) [text "sixfive", text "a", text "b"]
  refine ⟨o, status, ho, (hout.mpr (by decide +kernel)).trans ?_⟩
  decide +kernel

/-- A segment above the largest `int`: the number has wrapped around when it is printed. -/
theorem main_wraps :
    main (fun _ => some (text "2147483650")) [text "sixfive", text "a"] =
        .ok (⟨text "-2147483646\n", []⟩, 0) ∧
      lines (held (fun _ => some (text "2147483650")) (text "a")) = text "2147483650\n" := by
  decide +kernel

end Xv6.Sixfive
