import Mathlib.Data.Nat.Digits.Lemmas

/-!
The two `printf`s: the one of the user library (user/printf.c) and the kernel's
(kernel/printf.c).

They differ in the width in which `printint` holds the number, in the case of the hexadecimal
digits and in how the format is scanned; the chain of tests on a conversion is the same.
-/

namespace Xv6.Printf

/-- What can go wrong: a write outside `buf[20]`, or a conversion without an argument. -/
inductive Fault
  | outside
  | noArgument
  deriving DecidableEq, Repr

inductive Base
  | dec
  | hex
  deriving DecidableEq, Repr

def Base.val : Base → ℕ
  | .dec => 10
  | .hex => 16

lemma Base.one_lt (b : Base) : 1 < b.val := by cases b <;> decide

def userDigits : List UInt8 := "0123456789ABCDEF".toList.map (·.toUInt8)

def kernelDigits : List UInt8 := "0123456789abcdef".toList.map (·.toUInt8)

/-- `buf[i++] = c`, where `buf` has 20 bytes and holds the `i` written so far. -/
def store (buf : List UInt8) (c : UInt8) : Except Fault (List UInt8) :=
  if buf.length < 20 then .ok (buf ++ [c]) else .error .outside

def digitLoop (digits : List UInt8) (base : Base) (x : ℕ) (buf : List UInt8) :
    Except Fault (List UInt8) := do
  let buf ← store buf (digits.getD (x % base.val) 0)
  if x / base.val ≠ 0 then digitLoop digits base (x / base.val) buf else pure buf
termination_by x
decreasing_by
  rename_i h
  exact Nat.div_lt_self (Nat.pos_of_ne_zero fun hx => h (by simp [hx])) base.one_lt

/-- `printint` with its digits and the width of the variable `x`. -/
def printintOf (digits : List UInt8) (width : ℕ) (xx : ℤ) (base : Base) (sgn : Bool) :
    Except Fault (List UInt8) := do
  let neg := sgn && decide (xx < 0)
  let x := ((if neg then -xx else xx) % 2 ^ width).toNat
  let buf ← digitLoop digits base x []
  let buf ← if neg then store buf '-'.toUInt8 else pure buf
  pure buf.reverse

/-- `printptr` with its digits: sixteen times the digit of the top four bits. -/
def printptrOf (digits : List UInt8) (x : BitVec 64) : List UInt8 :=
  '0'.toUInt8 :: 'x'.toUInt8 ::
    (List.range 16).map fun i => digits.getD ((x <<< (4 * i)) >>> 60).toNat 0

/-! ### Conversions -/

/-- An argument: a word, or a string that may be a null pointer. -/
inductive Arg
  | word (w : BitVec 64)
  | str (s : Option (List UInt8))
  deriving DecidableEq, Repr

/-- What the tests on the characters after `%` select. -/
inductive Directive
  | int (long : Bool) (base : Base) (sgn : Bool)
  | ptr
  | char
  | str
  | percent
  | unknown
  deriving DecidableEq, Repr

/-- The tests on a conversion, in the order of the code, and how many characters beyond the
first it takes. -/
def directive (c0 c1 c2 : UInt8) : Directive × ℕ :=
  if c0 = 'd'.toUInt8 then (.int false .dec true, 0)
  else if c0 = 'l'.toUInt8 ∧ c1 = 'd'.toUInt8 then (.int true .dec true, 1)
  else if c0 = 'l'.toUInt8 ∧ c1 = 'l'.toUInt8 ∧ c2 = 'd'.toUInt8 then (.int true .dec true, 2)
  else if c0 = 'u'.toUInt8 then (.int false .dec false, 0)
  else if c0 = 'l'.toUInt8 ∧ c1 = 'u'.toUInt8 then (.int true .dec false, 1)
  else if c0 = 'l'.toUInt8 ∧ c1 = 'l'.toUInt8 ∧ c2 = 'u'.toUInt8 then (.int true .dec false, 2)
  else if c0 = 'x'.toUInt8 then (.int false .hex false, 0)
  else if c0 = 'l'.toUInt8 ∧ c1 = 'x'.toUInt8 then (.int true .hex false, 1)
  else if c0 = 'l'.toUInt8 ∧ c1 = 'l'.toUInt8 ∧ c2 = 'x'.toUInt8 then (.int true .hex false, 2)
  else if c0 = 'p'.toUInt8 then (.ptr, 0)
  else if c0 = 'c'.toUInt8 then (.char, 0)
  else if c0 = 's'.toUInt8 then (.str, 0)
  else if c0 = '%'.toUInt8 then (.percent, 0)
  else (.unknown, 0)

/-- The argument of an integer conversion as `printint` gets it: `va_arg` of an `int`, a
`uint32` or a `uint64`, converted to `long long`. -/
def intArg (long sgn : Bool) (w : BitVec 64) : ℤ :=
  match long, sgn with
  | false, true => (w.setWidth 32).toInt
  | false, false => (w.setWidth 32).toNat
  | true, _ => w.toInt

/-- How a `printf` writes: its digits, the width of `x` in its `printint`, and the bytes that
writing one character gives. -/
structure Writer where
  digits : List UInt8
  width : ℕ
  putc : ℕ → List UInt8

/-- Carry out a conversion: what is written, and the arguments that are left. -/
def convert (wr : Writer) (c0 : UInt8) : Directive → List Arg →
    Except Fault (List UInt8 × List Arg)
  | .int long base sgn, .word w :: ap => do
    pure (← printintOf wr.digits wr.width (intArg long sgn w) base sgn, ap)
  | .ptr, .word w :: ap => pure (printptrOf wr.digits w, ap)
  | .char, .word w :: ap => pure (wr.putc (w.setWidth 32).toNat, ap)
  | .str, .str s :: ap => pure (s.getD ("(null)".toList.map (·.toUInt8)), ap)
  | .percent, ap => pure (['%'.toUInt8], ap)
  | .unknown, ap => pure (['%'.toUInt8, c0], ap)
  | _, _ => .error .noArgument

/-! ### The user library -/

def user : Writer := ⟨userDigits, 32, fun c => [UInt8.ofNat c]⟩

/-- `vprintf` from a position in the format on, with `state` telling whether a `%` came just
before. -/
def vprintf (state : Bool) (fmt : List UInt8) (ap : List Arg) : Except Fault (List UInt8) :=
  match fmt with
  | [] => pure []
  | c0 :: fmt =>
    match state with
    | false =>
      if c0 = '%'.toUInt8 then vprintf true fmt ap
      else do pure (c0 :: (← vprintf false fmt ap))
    | true => do
      let c1 := fmt.getD 0 0
      let c2 := if c1 ≠ 0 then fmt.getD 1 0 else 0
      let d := directive c0 c1 c2
      let (out, ap) ← convert user c0 d.1 ap
      pure (out ++ (← vprintf false (fmt.drop d.2) ap))
termination_by fmt.length

/-! ### The kernel -/

def consputc (c : ℕ) : List UInt8 := if c = 0x100 then [8, 32, 8] else [UInt8.ofNat c]

def kernel : Writer := ⟨kernelDigits, 64, consputc⟩

/-- `printf` of kernel/printf.c from a position in the format on. A `%` at the end of the
format ends the loop. -/
def printf (fmt : List UInt8) (ap : List Arg) : Except Fault (List UInt8) :=
  match fmt with
  | [] => pure []
  | cx :: fmt =>
    if cx ≠ '%'.toUInt8 then do pure (cx :: (← printf fmt ap))
    else
      match fmt with
      | [] => pure []
      | c0 :: fmt => do
        let c1 := fmt.getD 0 0
        let c2 := if c1 ≠ 0 then fmt.getD 1 0 else 0
        let d := directive c0 c1 c2
        let (out, ap) ← convert kernel c0 d.1 ap
        pure (out ++ (← printf (fmt.drop d.2) ap))
termination_by fmt.length

/-! ### Numerals -/

/-- The digits of a number, the least significant first, and a single `0` for zero. -/
def figures (base x : ℕ) : List ℕ := if x = 0 then [0] else Nat.digits base x

/-- The canonical numeral of an integer: a sign if it is negative, and its digits from the most
significant on. -/
def numeral (digits : List UInt8) (base : Base) (v : ℤ) : List UInt8 :=
  (if v < 0 then ['-'.toUInt8] else []) ++
    ((figures base.val v.natAbs).map fun d => digits.getD d 0).reverse

inductive Conv
  | d | ld | lld | u | lu | llu | x | lx | llx
  deriving DecidableEq, Repr

def Conv.text : Conv → List UInt8
  | .d => "%d".toList.map (·.toUInt8)
  | .ld => "%ld".toList.map (·.toUInt8)
  | .lld => "%lld".toList.map (·.toUInt8)
  | .u => "%u".toList.map (·.toUInt8)
  | .lu => "%lu".toList.map (·.toUInt8)
  | .llu => "%llu".toList.map (·.toUInt8)
  | .x => "%x".toList.map (·.toUInt8)
  | .lx => "%lx".toList.map (·.toUInt8)
  | .llx => "%llx".toList.map (·.toUInt8)

def Conv.long : Conv → Bool
  | .d | .u | .x => false
  | _ => true

def Conv.signed : Conv → Bool
  | .d | .ld | .lld => true
  | _ => false

def Conv.base : Conv → Base
  | .x | .lx | .llx => .hex
  | _ => .dec

/-- The integer that an argument is for a conversion: of its low 32 bits or of all 64, signed or
unsigned. -/
def Conv.value (c : Conv) (w : BitVec 64) : ℤ :=
  match c.long, c.signed with
  | false, true => (w.setWidth 32).toInt
  | false, false => (w.setWidth 32).toNat
  | true, true => w.toInt
  | true, false => w.toNat

def lower (c : UInt8) : UInt8 :=
  if 'A'.toUInt8 ≤ c ∧ c ≤ 'F'.toUInt8 then c + 32 else c

/-! ### The digit loop -/

lemma figures_step {b x : ℕ} (hb : 1 < b) :
    figures b x = x % b :: if x / b = 0 then [] else figures b (x / b) := by
  unfold figures
  by_cases hx : x = 0
  · simp [hx]
  · rw [if_neg hx, Nat.digits_def' hb (Nat.pos_of_ne_zero hx)]
    by_cases hd : x / b = 0
    · rw [if_pos hd, hd, Nat.digits_zero]
    · rw [if_neg hd, if_neg hd]

lemma store_ok {buf : List UInt8} {c : UInt8} (h : buf.length < 20) :
    store buf c = .ok (buf ++ [c]) := if_pos h

lemma digitLoop_ok (digits : List UInt8) (base : Base) {x : ℕ} {buf : List UInt8}
    (h : buf.length + (figures base.val x).length ≤ 20) :
    digitLoop digits base x buf =
      .ok (buf ++ (figures base.val x).map fun d => digits.getD d 0) := by
  induction x using Nat.strong_induction_on generalizing buf with
  | _ x ih =>
    have hf := figures_step (x := x) base.one_lt
    rw [hf] at h ⊢
    rw [digitLoop, store_ok (by simp only [List.length_cons] at h; omega)]
    by_cases hd : x / base.val = 0
    · rw [if_pos hd] at h ⊢
      simp only [hd, ne_eq, not_true_eq_false, if_false, List.map_cons, List.map_nil]
      rfl
    · rw [if_neg hd] at h ⊢
      have hx : x ≠ 0 := fun hx => hd (by simp [hx])
      have hlt := Nat.div_lt_self (Nat.pos_of_ne_zero hx) base.one_lt
      have hroom : (buf ++ [digits.getD (x % base.val) 0]).length +
          (figures base.val (x / base.val)).length ≤ 20 := by
        simp only [List.length_cons, List.length_append, List.length_nil] at h ⊢
        omega
      have hrest := ih _ hlt hroom
      rw [List.append_assoc] at hrest
      simp only [hd, ne_eq, not_false_eq_true, if_true, List.map_cons]
      exact hrest

lemma figures_length {x k : ℕ} (base : Base) (hk : 0 < k) (h : x < 10 ^ k) :
    (figures base.val x).length ≤ k := by
  unfold figures
  split_ifs with hx
  · exact hk
  · rw [Nat.digits_length_le_iff base.one_lt]
    refine h.trans_le (Nat.pow_le_pow_left ?_ k)
    cases base <;> decide

lemma printintOf_ok (digits : List UInt8) {width : ℕ} {xx : ℤ} (base : Base) {sgn neg : Bool}
    {x : ℕ} (hneg : (sgn && decide (xx < 0)) = neg)
    (hx : ((if neg then -xx else xx) % 2 ^ width).toNat = x)
    (hfit : if neg then x < 10 ^ 19 else x < 10 ^ 20) :
    printintOf digits width xx base sgn =
      .ok ((if neg then ['-'.toUInt8] else []) ++
        ((figures base.val x).map fun d => digits.getD d 0).reverse) := by
  unfold printintOf
  rw [hneg]
  dsimp only
  rw [hx]
  cases neg with
  | false =>
    have hlen := figures_length base (by decide) hfit
    rw [digitLoop_ok digits base (by rw [List.length_nil]; omega)]
    rfl
  | true =>
    have hlen := figures_length base (by decide) hfit
    rw [digitLoop_ok digits base (by rw [List.length_nil]; omega)]
    change (store _ _ >>= fun buf => pure buf.reverse) = _
    rw [store_ok (by rw [List.nil_append, List.length_map]; omega)]
    change Except.ok _ = _
    rw [List.reverse_append]
    rfl

/-! ### What the conversions print -/

lemma intArg_eq {c : Conv} {w : BitVec 64} (h : c.long = true → c.signed = true) :
    intArg c.long c.signed w = c.value w := by
  rcases c with _ | _ | _ | _ | _ | _ | _ | _ | _ <;> first | rfl | exact absurd (h rfl) (by decide)

lemma toInt_emod (w : BitVec 64) {width : ℕ} (hw : width ≤ 64) :
    w.toInt % 2 ^ width = (w.toNat : ℤ) % 2 ^ width := by
  obtain ⟨k, hk⟩ : (2 : ℤ) ^ width ∣ 2 ^ 64 := pow_dvd_pow 2 hw
  rw [BitVec.toInt_eq_toNat_cond]
  split_ifs
  · rfl
  · have hsub : ((2 ^ 64 : ℕ) : ℤ) = 2 ^ width * k := by rw [← hk]; rfl
    rw [hsub, Int.sub_mul_emod_self_left]

lemma printint_value (c : Conv) (w : BitVec 64) {width : ℕ} (hw : width ≤ 64) :
    (c.signed && decide (intArg c.long c.signed w < 0)) = decide (c.value w < 0) ∧
      ((if decide (c.value w < 0) then -intArg c.long c.signed w else intArg c.long c.signed w)
        % 2 ^ width).toNat = (c.value w).natAbs % 2 ^ width := by
  have hcut : ∀ n : ℕ, ((n : ℤ) % 2 ^ width).toNat = n % 2 ^ width := by
    intro n
    have h : ((n % 2 ^ width : ℕ) : ℤ) = (n : ℤ) % 2 ^ width := by push_cast; rfl
    rw [← h, Int.toNat_natCast]
  have hunsigned : c.signed = false → ¬ c.value w < 0 := by
    intro hs
    unfold Conv.value
    rw [hs]
    cases c.long <;> exact Int.not_lt.mpr (Int.natCast_nonneg _)
  by_cases hl : c.long = true → c.signed = true
  · rw [intArg_eq hl]
    constructor
    · cases hs : c.signed with
      | false => simpa using hunsigned hs
      | true => rfl
    · by_cases h0 : c.value w < 0
      · rw [if_pos (by simpa using h0), ← hcut, Int.ofNat_natAbs_of_nonpos h0.le]
      · rw [if_neg (by simpa using h0), ← hcut, Int.natAbs_of_nonneg (by omega)]
  · -- an unsigned word is passed as a `long long`, and `x` gets it back
    obtain ⟨hlong, hs⟩ : c.long = true ∧ c.signed = false := by simpa using hl
    have hv : c.value w = w.toNat := by simp [Conv.value, hlong, hs]
    have hi : intArg c.long c.signed w = w.toInt := by simp [intArg, hlong]
    have h0 := hunsigned hs
    rw [if_neg (by simpa using h0), hi, toInt_emod w hw, hcut, hv, Int.natAbs_natCast]
    exact ⟨by simp [hs], rfl⟩

lemma value_range (c : Conv) (w : BitVec 64) : -2 ^ 63 ≤ c.value w ∧ c.value w < 2 ^ 64 := by
  have h64 := w.isLt
  have h32 := (w.setWidth 32).isLt
  have hi := w.toInt_lt
  have hi' := w.le_toInt
  have hs := (w.setWidth 32).toInt_lt
  have hs' := (w.setWidth 32).le_toInt
  unfold Conv.value
  rcases c.long with _ | _ <;> rcases c.signed with _ | _ <;> dsimp only <;> omega

lemma printintOf_value (digits : List UInt8) (c : Conv) (w : BitVec 64) {width : ℕ}
    (hw : width ≤ 64) (h : (c.value w).natAbs < 2 ^ width) :
    printintOf digits width (intArg c.long c.signed w) c.base c.signed =
      .ok (numeral digits c.base (c.value w)) := by
  obtain ⟨hneg, hx⟩ := printint_value c w hw
  rw [Nat.mod_eq_of_lt h] at hx
  have hrange := value_range c w
  rw [printintOf_ok digits c.base hneg hx, numeral]
  · simp only [decide_eq_true_eq]
  · simp only [decide_eq_true_eq]
    split_ifs <;> omega

/-- What a conversion selects, whatever follows it in the format. -/
lemma directive_text (c : Conv) (rest : List UInt8) :
    ∃ c0 fmt, c.text ++ rest = '%'.toUInt8 :: c0 :: fmt ∧
      directive c0 (fmt.getD 0 0) (if fmt.getD 0 0 ≠ 0 then fmt.getD 1 0 else 0) =
        (.int c.long c.base c.signed, c.text.length - 2) ∧
      fmt.drop (c.text.length - 2) = rest := by
  cases c <;> exact ⟨_, _, rfl, rfl, rfl⟩

lemma vprintf_conv (c : Conv) (w : BitVec 64) (rest : List UInt8) (args : List Arg) :
    vprintf false (c.text ++ rest) (.word w :: args) = (do
      let out ← printintOf userDigits 32 (intArg c.long c.signed w) c.base c.signed
      let tail ← vprintf false rest args
      pure (out ++ tail)) := by
  obtain ⟨c0, fmt, htext, hd, hrest⟩ := directive_text c rest
  rw [htext, vprintf]
  simp only [if_true]
  rw [vprintf]
  simp only [hd, hrest, convert, user]
  cases printintOf userDigits 32 (intArg c.long c.signed w) c.base c.signed <;> rfl

lemma vprintf_plain {t : List UInt8} (ht : '%'.toUInt8 ∉ t) (rest : List UInt8)
    (args : List Arg) :
    vprintf false (t ++ rest) args = (vprintf false rest args).map (t ++ ·) := by
  induction t with
  | nil =>
    rw [List.nil_append]
    cases vprintf false rest args <;> rfl
  | cons c t ih =>
    rw [List.mem_cons, not_or] at ht
    rw [List.cons_append, vprintf]
    simp only [Ne.symm ht.1, if_false, ih ht.2]
    cases vprintf false rest args <;> rfl

lemma vprintf_str (s rest : List UInt8) (args : List Arg) :
    vprintf false ("%s".toList.map (·.toUInt8) ++ rest) (.str (some s) :: args) =
      (vprintf false rest args).map (s ++ ·) := by
  have hd : ∀ c1 c2, directive 's'.toUInt8 c1 c2 = (.str, 0) := fun c1 c2 => rfl
  show vprintf false ('%'.toUInt8 :: 's'.toUInt8 :: rest) _ = _
  rw [vprintf]
  simp only [if_true]
  rw [vprintf]
  simp only [hd, convert, List.drop_zero, pure_bind, Option.getD_some]
  cases vprintf false rest args <;> rfl

lemma printf_conv (c : Conv) (w : BitVec 64) (rest : List UInt8) (args : List Arg) :
    printf (c.text ++ rest) (.word w :: args) = (do
      let out ← printintOf kernelDigits 64 (intArg c.long c.signed w) c.base c.signed
      let tail ← printf rest args
      pure (out ++ tail)) := by
  obtain ⟨c0, fmt, htext, hd, hrest⟩ := directive_text c rest
  rw [htext, printf]
  simp only [ne_eq, not_true_eq_false, if_false]
  simp only [← ne_eq, hd, hrest, convert, kernel]
  cases printintOf kernelDigits 64 (intArg c.long c.signed w) c.base c.signed <;> rfl

/-! ### Reading numerals back -/

lemma figures_lt (base : Base) {x d : ℕ} (hd : d ∈ figures base.val x) : d < 16 := by
  have hbase : base.val ≤ 16 := by cases base <;> decide
  unfold figures at hd
  split_ifs at hd
  · rw [List.mem_singleton] at hd
    omega
  · exact (Nat.digits_lt_base base.one_lt hd).trans_le hbase

lemma ofDigits_figures (b x : ℕ) : Nat.ofDigits b (figures b x) = x := by
  unfold figures
  split_ifs with h
  · simp [h]
  · exact Nat.ofDigits_digits b x

def spell (digits : List UInt8) (base : Base) (neg : Bool) (x : ℕ) : List UInt8 :=
  (if neg then ['-'.toUInt8] else []) ++
    ((figures base.val x).map fun d => digits.getD d 0).reverse

lemma numeral_eq_spell (digits : List UInt8) (base : Base) (v : ℤ) :
    numeral digits base v = spell digits base (decide (v < 0)) v.natAbs := by
  simp only [numeral, spell, decide_eq_true_eq]

lemma spell_lower (base : Base) (neg : Bool) (x : ℕ) :
    (spell userDigits base neg x).map lower = spell kernelDigits base neg x := by
  have htab : ∀ d < 16, lower (userDigits.getD d 0) = kernelDigits.getD d 0 := by decide +kernel
  unfold spell
  rw [List.map_append, List.map_reverse, List.map_map]
  congr 2
  · split_ifs <;> rfl
  · exact List.map_congr_left fun d hd => htab d (figures_lt base hd)

def Distinct (digits : List UInt8) : Prop := ∀ d < 16, digits.idxOf (digits.getD d 0) = d

lemma userDigits_distinct : Distinct userDigits := by unfold Distinct; decide +kernel

lemma kernelDigits_distinct : Distinct kernelDigits := by unfold Distinct; decide +kernel

lemma read_figures {digits : List UInt8} (hd : Distinct digits) (base : Base) (x : ℕ) :
    Nat.ofDigits base.val (((figures base.val x).map fun d => digits.getD d 0).map
      fun c => digits.idxOf c) = x := by
  have hback : ((figures base.val x).map fun d => digits.getD d 0).map
      (fun c => digits.idxOf c) = figures base.val x := by
    rw [List.map_map]
    exact (List.map_congr_left fun d hm => hd d (figures_lt base hm)).trans (List.map_id' _)
  rw [hback, ofDigits_figures]

lemma spell_inj {digits : List UInt8} (hd : Distinct digits) {base : Base} {neg : Bool} {x y : ℕ} :
    spell digits base neg x = spell digits base neg y ↔ x = y := by
  refine ⟨fun h => ?_, fun h => h ▸ rfl⟩
  have hrev := List.reverse_injective (List.append_cancel_left h)
  rw [← read_figures hd base x, hrev, read_figures hd base y]

lemma mem_spell {digits : List UInt8} {base : Base} {neg : Bool} {x : ℕ} {c : UInt8}
    (h : c ∈ spell digits base neg x) : c = '-'.toUInt8 ∨ ∃ d < 16, c = digits.getD d 0 := by
  rcases List.mem_append.mp h with h | h
  · split_ifs at h
    · exact .inl (List.mem_singleton.mp h)
    · cases h
  · obtain ⟨d, hd, rfl⟩ := List.mem_map.mp (List.mem_reverse.mp h)
    exact .inr ⟨d, figures_lt base hd, rfl⟩

lemma numeral_inj {base : Base} {v w : ℤ} :
    numeral userDigits base v = numeral userDigits base w ↔ v = w := by
  refine ⟨fun h => ?_, fun h => h ▸ rfl⟩
  have hsign : ∀ x y, spell userDigits base true x ≠ spell userDigits base false y := by
    intro x y h
    have hmem : '-'.toUInt8 ∈ ((figures base.val y).map fun d => userDigits.getD d 0).reverse := by
      have h' : '-'.toUInt8 ∈ spell userDigits base false y := h ▸ List.mem_cons_self
      exact h'
    obtain ⟨d, hd, hc⟩ := List.mem_map.mp (List.mem_reverse.mp hmem)
    have htab : ∀ d < 16, userDigits.getD d 0 ≠ '-'.toUInt8 := by decide +kernel
    exact htab d (figures_lt base hd) hc
  rw [numeral_eq_spell, numeral_eq_spell] at h
  by_cases hv : v < 0 <;> by_cases hw : w < 0 <;> simp only [hv, hw, decide_true, decide_false] at h
  · have := (spell_inj userDigits_distinct).mp h
    omega
  · exact absurd h (hsign _ _)
  · exact absurd h.symm (hsign _ _)
  · have := (spell_inj userDigits_distinct).mp h
    omega

/-- **Integer conversions.** A conversion anywhere in a format, with any 64-bit argument, makes
the kernel's `printf` write the canonical numeral of its value. The user library's `vprintf`
stays within its digit buffer too, and writes that numeral, with hexadecimal digits in upper case,
exactly if the value has at most 32 bits. -/
theorem conversions_denote (c : Conv) (w : BitVec 64) (rest : List UInt8) (args : List Arg) :
    printf (c.text ++ rest) (.word w :: args) =
      (printf rest args).map (numeral kernelDigits c.base (c.value w) ++ ·) ∧
    ∃ out, vprintf false (c.text ++ rest) (.word w :: args) =
        (vprintf false rest args).map (out ++ ·) ∧
      (out = numeral userDigits c.base (c.value w) ↔ (c.value w).natAbs < 2 ^ 32) ∧
      (out.map lower = numeral kernelDigits c.base (c.value w) ↔
        (c.value w).natAbs < 2 ^ 32) := by
  have hrange := value_range c w
  refine ⟨?_, ?_⟩
  · rw [printf_conv, printintOf_value kernelDigits c w (by decide) (by omega)]
    rfl
  · obtain ⟨hneg, hx⟩ := printint_value c w (show 32 ≤ 64 by decide)
    have hmod : (c.value w).natAbs % 2 ^ 32 = (c.value w).natAbs ↔
        (c.value w).natAbs < 2 ^ 32 := by omega
    -- at most ten digits, whatever the argument
    have hfit : if decide (c.value w < 0) = true then (c.value w).natAbs % 2 ^ 32 < 10 ^ 19
        else (c.value w).natAbs % 2 ^ 32 < 10 ^ 20 := by
      split_ifs <;> omega
    refine ⟨spell userDigits c.base (decide (c.value w < 0)) ((c.value w).natAbs % 2 ^ 32), ?_, ?_,
      ?_⟩
    · rw [vprintf_conv, printintOf_ok userDigits c.base hneg hx hfit]
      rfl
    · rw [numeral_eq_spell, spell_inj userDigits_distinct, hmod]
    · rw [spell_lower, numeral_eq_spell, spell_inj kernelDigits_distinct, hmod]

/-- The word of all ones as a signed number and as an unsigned one of 32 bits. -/
theorem conversions_denote_ones :
    vprintf false Conv.ld.text [.word (-1)] = .ok [45, 49] ∧
      vprintf false Conv.x.text [.word (-1)] = .ok [70, 70, 70, 70, 70, 70, 70, 70] := by
  obtain ⟨-, out, hld, hout, -⟩ := conversions_denote .ld (-1) [] []
  obtain ⟨-, out', hx, hout', -⟩ := conversions_denote .x (-1) [] []
  rw [List.append_nil] at hld hx
  rw [hld, hx, hout.mpr (by decide), hout'.mpr (by decide)]
  decide +kernel

/-- The user library writes `0` for the 64-bit argument 4294967296 of `%lu`. -/
theorem long_argument_cut :
    vprintf false Conv.lu.text [.word 4294967296] = .ok [48] ∧
      printf Conv.lu.text [.word 4294967296] = .ok [52, 50, 57, 52, 57, 54, 55, 50, 57, 54] ∧
      numeral userDigits .dec (Conv.lu.value 4294967296) =
        [52, 50, 57, 52, 57, 54, 55, 50, 57, 54] := by
  decide +kernel

end Xv6.Printf
