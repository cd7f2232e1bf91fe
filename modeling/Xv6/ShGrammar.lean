import Mathlib.Data.List.GetD
import Mathlib.Data.Nat.ModEq
import Mathlib.Logic.Function.Iterate
import Xv6.ShModel

/-!
The language of the shell: tokens, the grammar over them and the tree that it assigns, and how
`gettoken` and `peek` read the tokens of a line.
-/

namespace Xv6.Sh

/-! ### Tokens of a line -/

/-- A token; a word knows where it begins and ends. -/
inductive Tok
  | bar | lparen | rparen | semi | amp | lt | gt | append
  | word (q eq : ℕ)
  deriving DecidableEq, Repr

def Tok.code : Tok → UInt8
  | .bar => '|'.toUInt8
  | .lparen => '('.toUInt8
  | .rparen => ')'.toUInt8
  | .semi => ';'.toUInt8
  | .amp => '&'.toUInt8
  | .lt => '<'.toUInt8
  | .gt => '>'.toUInt8
  | .append => '+'.toUInt8
  | .word _ _ => 'a'.toUInt8

def Tok.symbol : Tok → Option UInt8
  | .append => some '>'.toUInt8
  | .word _ _ => none
  | t => some t.code

/-- The token `t` stands from `q` to `e`. The longest token is taken: `>>` is not two `>`, and
no character that could be part of a word follows one. -/
inductive Token (s : List UInt8) : ℕ → ℕ → Tok → Prop
  | single {q : ℕ} {t : Tok} (ht : t ∈ [.bar, .lparen, .rparen, .semi, .amp, .lt])
      (h : deref s q = t.code) : Token s q (q + 1) t
  | gt {q : ℕ} (h : deref s q = '>'.toUInt8) (h' : deref s (q + 1) ≠ '>'.toUInt8) :
      Token s q (q + 1) .gt
  | append {q : ℕ} (h : deref s q = '>'.toUInt8) (h' : deref s (q + 1) = '>'.toUInt8) :
      Token s q (q + 2) .append
  | word {q e : ℕ} (hlt : q < e) (he : e ≤ s.length)
      (h : ∀ i, q ≤ i → i < e → isWord (deref s i))
      (h' : e < s.length → isWord (deref s e) = false) : Token s q e (.word q e)

/-- The line from `p` on consists of the tokens `ts`, with white space between them. -/
inductive Lexes (s : List UInt8) : ℕ → List Tok → Prop
  | nil {p : ℕ} (hp : p ≤ s.length) (h : ∀ i, p ≤ i → i < s.length → isSpace (deref s i)) :
      Lexes s p []
  | cons {p q e : ℕ} {t : Tok} {ts : List Tok} (hp : p ≤ q)
      (h : ∀ i, p ≤ i → i < q → isSpace (deref s i)) (ht : Token s q e t) (hts : Lexes s e ts) :
      Lexes s p (t :: ts)

/-! ### The grammar -/

/-- `redirs ::= {('<' | '>' | '>>') word}`, and the redirections in their order. -/
inductive Redirs : List Tok → List Redir → Prop
  | nil : Redirs [] []
  | cons {op : Tok} {q e : ℕ} {ts : List Tok} {rs : List Redir} (hop : op ∈ [.lt, .gt, .append])
      (h : Redirs ts rs) : Redirs (op :: .word q e :: ts) (redirOf op.code q e :: rs)

/-- `{word redirs}`: the words, and the redirections between them. -/
inductive Args : List Tok → List (ℕ × ℕ) → List Redir → Prop
  | nil : Args [] [] []
  | cons {q e : ℕ} {u v : List Tok} {rs rs' : List Redir} {ws : List (ℕ × ℕ)}
      (hr : Redirs u rs) (h : Args v ws rs') :
      Args (.word q e :: u ++ v) ((q, e) :: ws) (rs ++ rs')

def array (l : List ℕ) : List (Option ℕ) :=
  l.map some ++ List.replicate (MAXARGS - l.length) none

def execNode (ws : List (ℕ × ℕ)) : Cmd := .exec (array (ws.map (·.1))) (array (ws.map (·.2)))

inductive Sym
  | line | pipe | exec

/-- What the grammar generates, with the tree that it assigns. -/
inductive Gen : Sym → List Tok → Cmd → Prop
  /-- `line ::= pipe {'&'}` -/
  | line {u : List Tok} {cmd : Cmd} (n : ℕ) (h : Gen .pipe u cmd) :
      Gen .line (u ++ List.replicate n .amp) (Cmd.back^[n] cmd)
  /-- `line ::= pipe {'&'} ';' line` -/
  | seq {u v : List Tok} {cmd right : Cmd} (n : ℕ) (h : Gen .pipe u cmd)
      (h' : Gen .line v right) :
      Gen .line (u ++ (List.replicate n .amp ++ .semi :: v)) (.list (Cmd.back^[n] cmd) right)
  /-- `pipe ::= exec` -/
  | single {u : List Tok} {cmd : Cmd} (h : Gen .exec u cmd) : Gen .pipe u cmd
  /-- `pipe ::= exec '|' pipe` -/
  | pipe {u v : List Tok} {cmd right : Cmd} (h : Gen .exec u cmd) (h' : Gen .pipe v right) :
      Gen .pipe (u ++ .bar :: v) (.pipe cmd right)
  /-- `exec ::= '(' line ')' redirs` -/
  | block {u v : List Tok} {cmd : Cmd} {rs : List Redir} (h : Gen .line u cmd)
      (h' : Redirs v rs) : Gen .exec (.lparen :: (u ++ .rparen :: v)) (wrap rs cmd)
  /-- `exec ::= redirs {word redirs}`, with fewer than `MAXARGS` words -/
  | exec {u v : List Tok} {ws : List (ℕ × ℕ)} {rs rs' : List Redir} (h : Redirs u rs)
      (h' : Args v ws rs') (hn : ws.length < MAXARGS) :
      Gen .exec (u ++ v) (wrap (rs ++ rs') (execNode ws))

/-! ### Reading the tokens -/

variable {s : List UInt8} {p q e : ℕ} {ts : List Tok} {t : Tok}

lemma scan_eq {f : UInt8 → Bool} (hp : p ≤ q) (hq : q ≤ s.length)
    (h : ∀ i, p ≤ i → i < q → f (deref s i)) (h' : q < s.length → f (deref s q) = false) :
    scan f s p = q := by
  induction hk : q - p generalizing p with
  | zero =>
    obtain rfl : p = q := by omega
    rw [scan, if_neg]
    rintro ⟨hlt, hf⟩
    rw [h' hlt] at hf
    cases hf
  | succ k ih =>
    rw [scan, if_pos ⟨by omega, h p le_rfl (by omega)⟩]
    exact ih (by omega) (fun i hi => h i (by omega)) (by omega)

lemma scan_spec (f : UInt8 → Bool) (hp : p ≤ s.length) :
    p ≤ scan f s p ∧ scan f s p ≤ s.length ∧
      (∀ i, p ≤ i → i < scan f s p → f (deref s i)) ∧
      (scan f s p < s.length → f (deref s (scan f s p)) = false) := by
  induction hk : s.length - p generalizing p with
  | zero =>
    have hn : ¬ (p < s.length ∧ f (deref s p) = true) := by omega
    rw [scan, if_neg hn]
    exact ⟨le_rfl, hp, fun i _ _ => by omega, fun _ => by omega⟩
  | succ k ih =>
    by_cases hf : p < s.length ∧ f (deref s p)
    · rw [scan, if_pos hf]
      obtain ⟨h1, h2, h3, h4⟩ := ih (p := p + 1) (by omega) (by omega)
      refine ⟨by omega, h2, fun i hi hlt => ?_, h4⟩
      rcases Nat.eq_or_lt_of_le hi with rfl | hi
      · exact hf.2
      · exact h3 i hi hlt
    · rw [scan, if_neg hf]
      refine ⟨le_rfl, hp, fun i _ _ => by omega, fun hlt => ?_⟩
      simpa using fun h => hf ⟨hlt, h⟩

lemma deref_ne_zero (h0 : 0 ∉ s) (h : p < s.length) : deref s p ≠ 0 := by
  intro hp
  apply h0
  rw [← hp, deref, List.getD_eq_getElem _ _ h]
  exact List.getElem_mem h

lemma deref_end (h : s.length ≤ p) : deref s p = 0 := by
  simp [deref, h]

lemma lt_of_deref (h : deref s p ≠ 0) : p < s.length := by
  by_contra hn
  exact h (deref_end (by omega))

lemma symbol_cases : ∀ c ∈ symbols, c = '>'.toUInt8 ∨
    ∃ t ∈ [Tok.bar, .lparen, .rparen, .semi, .amp, .lt], c = t.code := by
  rw [← List.forall_iff_forall_mem]
  decide

lemma single_test : ∀ t ∈ [Tok.bar, .lparen, .rparen, .semi, .amp, .lt],
    t.code = '|'.toUInt8 ∨ t.code = '('.toUInt8 ∨ t.code = ')'.toUInt8 ∨ t.code = ';'.toUInt8 ∨
      t.code = '&'.toUInt8 ∨ t.code = '<'.toUInt8 := by decide

lemma isWord_test {c : UInt8} (h : isWord c = true) :
    ¬ (c = '|'.toUInt8 ∨ c = '('.toUInt8 ∨ c = ')'.toUInt8 ∨ c = ';'.toUInt8 ∨
      c = '&'.toUInt8 ∨ c = '<'.toUInt8) ∧ c ≠ '>'.toUInt8 := by
  constructor
  · rintro (rfl | rfl | rfl | rfl | rfl | rfl) <;> revert h <;> decide
  · rintro rfl
    revert h
    decide

lemma single_code : ∀ t ∈ [Tok.bar, .lparen, .rparen, .semi, .amp, .lt],
    t.code ≠ 0 ∧ isSpace t.code = false ∧ t.symbol = some t.code := by decide

lemma Token.first (h : Token s q e t) :
    q < e ∧ e ≤ s.length ∧ isSpace (deref s q) = false := by
  cases h with
  | single ht h =>
    obtain ⟨hc, hs, -⟩ := single_code t ht
    rw [← h] at hc hs
    exact ⟨by omega, lt_of_deref hc, hs⟩
  | gt h h' => exact ⟨by omega, lt_of_deref (by rw [h]; decide), by rw [h]; decide⟩
  | append h h' =>
    have := lt_of_deref (p := q + 1) (s := s) (by rw [h']; decide)
    exact ⟨by omega, this, by rw [h]; decide⟩
  | word hlt he h h' =>
    refine ⟨hlt, he, ?_⟩
    have hw := h q le_rfl hlt
    simp only [isWord, decide_eq_true_eq] at hw
    simpa [isSpace] using hw.1

lemma Lexes.scan (h : Lexes s p (t :: ts)) :
    ∃ e, Token s (Sh.scan isSpace s p) e t ∧ Lexes s e ts := by
  cases h with
  | cons hp h ht hts =>
    obtain ⟨hlt, he, hs⟩ := ht.first
    rw [scan_eq hp (by omega) h fun _ => hs]
    exact ⟨_, ht, hts⟩

lemma Lexes.scan_nil (h : Lexes s p []) : Sh.scan isSpace s p = s.length := by
  cases h with
  | nil hp h => exact scan_eq hp le_rfl h fun hlt => absurd hlt (by omega)

lemma Lexes.skip (h : Lexes s p ts) : Lexes s (Sh.scan isSpace s p) ts := by
  cases ts with
  | nil =>
    rw [h.scan_nil]
    exact .nil le_rfl fun i _ _ => by omega
  | cons t ts =>
    obtain ⟨e, ht, hts⟩ := h.scan
    exact .cons le_rfl (fun i _ _ => by omega) ht hts

lemma exists_token (hq : q < s.length) (hs : isSpace (deref s q) = false) :
    ∃ e t, Token s q e t := by
  by_cases hc : deref s q ∈ symbols
  · rcases symbol_cases _ hc with hgt | ⟨t, ht, hc⟩
    · by_cases h' : deref s (q + 1) = '>'.toUInt8
      · exact ⟨_, _, .append hgt h'⟩
      · exact ⟨_, _, .gt hgt h'⟩
    · exact ⟨_, _, .single ht hc⟩
  · have hw : isWord (deref s q) = true := by
      have hs : deref s q ∉ whitespace := by simpa [isSpace] using hs
      simp [isWord, hs, hc]
    obtain ⟨h1, h2, h3, h4⟩ := scan_spec isWord hq.le
    refine ⟨_, _, .word (lt_of_le_of_ne h1 fun he => ?_) h2 h3 h4⟩
    rw [← he, hw] at h4
    cases h4 hq

lemma exists_lexes (hp : p ≤ s.length) : ∃ ts, Lexes s p ts := by
  induction hk : s.length - p using Nat.strong_induction_on generalizing p with
  | _ k ih =>
    subst hk
    obtain ⟨h1, h2, h3, h4⟩ := scan_spec isSpace hp
    set q := Sh.scan isSpace s p
    rcases Nat.eq_or_lt_of_le h2 with hq | hq
    · exact ⟨[], .nil hp fun i hi hlt => h3 i hi (by omega)⟩
    · obtain ⟨e, t, ht⟩ := exists_token hq (h4 hq)
      obtain ⟨hlt, he, -⟩ := ht.first
      obtain ⟨ts, hts⟩ := ih _ (by omega) he rfl
      exact ⟨t :: ts, .cons h1 h3 ht hts⟩

lemma Lexes.length_le (h : Lexes s p ts) : p + ts.length ≤ s.length := by
  induction h with
  | nil hp h => simpa using hp
  | cons hp h ht hts ih =>
    have := ht.first
    rw [List.length_cons]
    omega

lemma gettoken_cons (h0 : 0 ∉ s) (h : Lexes s p (t :: ts)) :
    ∃ q e p', gettoken s p = (t.code, q, e, p') ∧ Lexes s p' ts ∧
      ∀ q' e', t = .word q' e' → q' = q ∧ e' = e := by
  obtain ⟨e, ht, hts⟩ := h.scan
  refine ⟨Sh.scan isSpace s p, e, Sh.scan isSpace s e, ?_, hts.skip, ?_⟩
  · set q := Sh.scan isSpace s p with hq
    have hne : deref s q ≠ 0 := deref_ne_zero h0 (by have := ht.first; omega)
    simp only [gettoken, ← hq]
    rw [if_neg hne]
    clear h
    cases ht with
    | single ht h =>
      rw [h, if_pos (single_test t ht)]
    | gt h h' =>
      rw [h, if_neg (by decide), if_pos rfl, if_neg h']
      rfl
    | append h h' =>
      rw [h, if_neg (by decide), if_pos rfl, if_pos h']
      rfl
    | word hlt he h h' =>
      obtain ⟨h1, h2⟩ := isWord_test (h _ le_rfl hlt)
      rw [if_neg h1, if_neg h2, scan_eq hlt.le he h h']
      rfl
  · rintro q' e' rfl
    cases ht with
    | single ht h => simp at ht
    | word => exact ⟨rfl, rfl⟩

lemma gettoken_nil (h : Lexes s p []) :
    gettoken s p = (0, s.length, s.length, s.length) := by
  have hend : Sh.scan isSpace s s.length = s.length := scan_eq le_rfl le_rfl
    (fun i _ _ => by omega) fun hlt => absurd hlt (by omega)
  simp only [gettoken, h.scan_nil, deref_end le_rfl, if_true, hend]

lemma Token.symbol_eq (h : Token s q e t) (c : UInt8) (hc : c ∈ symbols) :
    t.symbol = some c ↔ deref s q = c := by
  cases h with
  | single ht h => rw [(single_code t ht).2.2, h, Option.some_inj]
  | gt h h' =>
    rw [h]
    exact Option.some_inj
  | append h h' => rw [h, Tok.symbol, Option.some_inj]
  | word hlt he h h' =>
    have hw := h q le_rfl hlt
    simp only [isWord, decide_eq_true_eq] at hw
    exact iff_of_false (by simp [Tok.symbol]) fun he => hw.2 (he ▸ hc)

lemma peek_eq (h : Lexes s p ts) (toks : String)
    (htoks : ∀ c ∈ toks.toList.map (·.toUInt8), c ∈ symbols) :
    ∃ p', Lexes s p' ts ∧ peek s p toks =
      (decide (∃ c ∈ (ts.head?.bind Tok.symbol), c ∈ toks.toList.map (·.toUInt8)), p') := by
  refine ⟨Sh.scan isSpace s p, h.skip, ?_⟩
  simp only [peek, Prod.mk.injEq, and_true, decide_eq_decide]
  cases ts with
  | nil =>
    rw [h.scan_nil, deref_end le_rfl]
    simp
  | cons t ts =>
    obtain ⟨e, ht, -⟩ := h.scan
    constructor
    · rintro ⟨-, hc⟩
      exact ⟨_, (ht.symbol_eq _ (htoks _ hc)).mpr rfl, hc⟩
    · rintro ⟨c, hc, hmem⟩
      rw [(ht.symbol_eq c (htoks c hmem)).mp hc]
      refine ⟨fun h => ?_, hmem⟩
      have := htoks c hmem
      rw [h] at this
      exact absurd this (by decide)

end Xv6.Sh
