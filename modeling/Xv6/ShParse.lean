import Xv6.ShGrammar

/-!
The parser of the shell accepts what the grammar generates, with the grammar's tree.

Everything is said about the tokens that the line still has at a pointer. For soundness, a
function that returns has taken a phrase of its nonterminal off the front; for completeness,
it takes off a given phrase where what follows cannot continue it.
-/

namespace Xv6.Sh

open List (length_append length_cons append_assoc cons_append)

variable {s : List UInt8} {p : ℕ} {ts : List Tok} {t : Tok}

/-! ### Looking ahead -/

def Starts (l ts : List Tok) : Prop := ∃ t ∈ ts.head?, t ∈ l

instance (l ts : List Tok) : Decidable (Starts l ts) := by
  unfold Starts
  infer_instance

@[simp] lemma starts_nil (l : List Tok) : ¬ Starts l [] := by simp [Starts]

@[simp] lemma starts_cons (l : List Tok) : Starts l (t :: ts) ↔ t ∈ l := by simp [Starts]

/-- The tokens that begin with one of the characters of a string. -/
def spelled (toks : String) : List Tok :=
  [Tok.bar, .lparen, .rparen, .semi, .amp, .lt, .gt, .append].filter fun t =>
    ∃ c ∈ t.symbol, c ∈ toks.toList.map (·.toUInt8)

lemma mem_spelled {toks : String} :
    t ∈ spelled toks ↔ ∃ c ∈ t.symbol, c ∈ toks.toList.map (·.toUInt8) := by
  rw [spelled, List.mem_filter, decide_eq_true_eq]
  refine and_iff_right_of_imp ?_
  rintro ⟨c, hc, -⟩
  cases t with
  | word q e => cases hc
  | _ => decide

lemma peek_starts (h : Lexes s p ts) (toks : String) (l : List Tok)
    (htoks : toks.toList.map (·.toUInt8) ⊆ symbols) (hl : spelled toks = l) :
    ∃ p', Lexes s p' ts ∧ peek s p toks = (decide (Starts l ts), p') := by
  obtain ⟨p', hp', hpeek⟩ := peek_eq h toks fun c hc => htoks hc
  refine ⟨p', hp', ?_⟩
  subst hl
  rw [hpeek, Prod.mk.injEq]
  refine ⟨?_, rfl⟩
  rw [decide_eq_decide]
  cases ts with
  | nil => simp
  | cons t ts => simpa using mem_spelled.symm

def redirOps : List Tok := [.lt, .gt, .append]

def execEnds : List Tok := [.bar, .rparen, .semi, .amp]

/-! ### Redirections -/

/-- What a function of the parser does with the tokens `ts`: it panics, or it takes a phrase off
their front. -/
def Outcome {α : Type} (s : List UInt8) (P : List Tok → α → List Tok → Prop) (ts : List Tok)
    (res : Except Stop (α × ℕ)) : Prop :=
  (∃ m, res = .error (.panic m)) ∨
    ∃ a p' u r, res = .ok (a, p') ∧ ts = u ++ r ∧ Lexes s p' r ∧ P u a r

lemma word_code (q e : ℕ) : (Tok.word q e).code = 'a'.toUInt8 := rfl

lemma code_ne_zero (t : Tok) : t.code ≠ 0 := by
  cases t <;> rw [Tok.code] <;> decide

lemma code_eq_a : t.code = 'a'.toUInt8 ↔ ∃ q e, t = .word q e := by
  cases t with
  | word q e => exact iff_of_true rfl ⟨q, e, rfl⟩
  | _ => exact iff_of_false (by decide) (by simp)

lemma Starts.cons {l : List Tok} (h : Starts l ts) : ∃ t ts', ts = t :: ts' ∧ t ∈ l := by
  cases ts with
  | nil => exact absurd h (starts_nil _)
  | cons t ts => exact ⟨t, ts, rfl, (starts_cons _).mp h⟩

lemma Starts.eq_cons (h : Starts [t] ts) : ∃ r, ts = t :: r := by
  obtain ⟨t', r, rfl, ht⟩ := h.cons
  obtain rfl := List.mem_singleton.mp ht
  exact ⟨r, rfl⟩

lemma peek_take (h0 : 0 ∉ s) (h : Lexes s p (t :: ts)) (toks : String)
    (htoks : toks.toList.map (·.toUInt8) ⊆ symbols) (hl : spelled toks = [t]) :
    ∃ p' q e p'', peek s p toks = (true, p') ∧ gettoken s p' = (t.code, q, e, p'') ∧
      Lexes s p'' ts := by
  obtain ⟨p', h', hpeek⟩ := peek_starts h toks [t] htoks hl
  obtain ⟨q, e, p'', hg, h'', -⟩ := gettoken_cons h0 h'
  refine ⟨p', q, e, p'', ?_, hg, h''⟩
  rw [hpeek, decide_eq_true (by simp)]

lemma peek_pass {l : List Tok} (h : Lexes s p ts) (toks : String)
    (htoks : toks.toList.map (·.toUInt8) ⊆ symbols) (hl : spelled toks = l)
    (hs : ¬ Starts l ts) : ∃ p', peek s p toks = (false, p') ∧ Lexes s p' ts := by
  obtain ⟨p', h', hpeek⟩ := peek_starts h toks l htoks hl
  exact ⟨p', by rw [hpeek, decide_eq_false hs], h'⟩

lemma not_starts {l l' r : List Tok} (hr : r = [] ∨ Starts l r) (h : ∀ t ∈ l, t ∉ l') :
    ¬ Starts l' r := by
  rcases hr with rfl | hr
  · simp
  · obtain ⟨t, r, rfl, ht⟩ := hr.cons
    rw [starts_cons]
    exact h t ht

lemma starts_mono {l l' r : List Tok} (hr : r = [] ∨ Starts l r) (h : ∀ t ∈ l, t ∈ l') :
    r = [] ∨ Starts l' r := by
  refine hr.imp_right fun hr => ?_
  obtain ⟨t, r, rfl, ht⟩ := hr.cons
  exact (starts_cons _).mpr (h t ht)

lemma parseredirs_sound (h0 : 0 ∉ s) (fuel : ℕ) (h : Lexes s p ts) (hf : ts.length < fuel) :
    Outcome s (fun u rs _ => Redirs u rs) ts (parseredirs s fuel p) := by
  induction fuel generalizing p ts with
  | zero => omega
  | succ fuel ih =>
    rw [parseredirs]
    obtain ⟨p1, h1, hpeek⟩ := peek_starts h "<>" redirOps (by decide) (by decide)
    rw [hpeek]
    by_cases hs : Starts redirOps ts
    · obtain ⟨op, ts, rfl, hop⟩ := hs.cons
      obtain ⟨_, _, p2, hg, h2, -⟩ := gettoken_cons h0 h1
      simp only [hs, decide_true, Bool.not_true, Bool.false_eq_true, if_false, hg]
      cases ts with
      | nil =>
        rw [gettoken_nil h2]
        exact .inl ⟨_, rfl⟩
      | cons w ts =>
        obtain ⟨q, e, p3, hg, h3, hw⟩ := gettoken_cons h0 h2
        rw [hg]
        dsimp only
        by_cases ha : w.code = 'a'.toUInt8
        · obtain ⟨q', e', rfl⟩ := code_eq_a.mp ha
          obtain ⟨rfl, rfl⟩ := hw _ _ rfl
          rw [if_neg (by simpa using ha)]
          rcases ih h3 (by simp only [length_cons] at hf; omega) with
            ⟨m, hm⟩ | ⟨rs, p4, u, r, hm, rfl, h4, hr⟩
          · rw [hm]
            exact .inl ⟨m, rfl⟩
          · rw [hm]
            exact .inr ⟨_, p4, op :: .word q' e' :: u, r, rfl, rfl, h4, .cons hop hr⟩
        · rw [if_pos ha]
          exact .inl ⟨_, rfl⟩
    · simp only [hs, decide_false, Bool.not_false, if_true]
      exact .inr ⟨[], p1, [], ts, rfl, rfl, h1, .nil⟩

lemma parseredirs_complete (h0 : 0 ∉ s) (fuel : ℕ) {u r : List Tok} {rs : List Redir}
    (hr : Redirs u rs) (h : Lexes s p (u ++ r)) (hs : ¬ Starts redirOps r)
    (hf : (u ++ r).length < fuel) :
    ∃ p', parseredirs s fuel p = .ok (rs, p') ∧ Lexes s p' r := by
  induction hr generalizing p fuel with
  | nil =>
    obtain _ | fuel := fuel
    · omega
    obtain ⟨p1, h1, hpeek⟩ := peek_starts h "<>" redirOps (by decide) (by decide)
    rw [List.nil_append] at h1 hpeek
    rw [parseredirs, hpeek]
    simp only [hs, decide_false, Bool.not_false, if_true]
    exact ⟨p1, rfl, h1⟩
  | @cons op q e ts rs hop hr ih =>
    obtain _ | fuel := fuel
    · omega
    obtain ⟨p1, h1, hpeek⟩ := peek_starts h "<>" redirOps (by decide) (by decide)
    obtain ⟨_, _, p2, hg, h2, -⟩ := gettoken_cons h0 h1
    obtain ⟨_, _, p3, hg', h3, hw⟩ := gettoken_cons h0 h2
    obtain ⟨rfl, rfl⟩ := hw _ _ rfl
    have hlen : (ts ++ r).length < fuel := by
      simp only [cons_append, length_cons] at hf
      omega
    obtain ⟨p4, hp, h4⟩ := ih fuel h3 hlen
    have hst : Starts redirOps (op :: .word q e :: ts ++ r) := (starts_cons _).mpr hop
    rw [parseredirs, hpeek]
    simp only [hst, decide_true, Bool.not_true, Bool.false_eq_true, if_false, hg, hg']
    rw [if_neg (not_not.mpr (word_code q e)), hp]
    exact ⟨p4, rfl, h4⟩

/-! ### Simple commands -/

lemma store_next {l : List ℕ} (h : l.length < MAXARGS) (q : ℕ) :
    store (array l) l.length (some q) = .ok (array (l ++ [q])) := by
  rw [store, if_pos h, array, List.set_append_right _ _ (by simp), List.length_map, Nat.sub_self,
    show MAXARGS - l.length = MAXARGS - (l ++ [q]).length + 1 by
      simp only [length_append, List.length_singleton]; omega,
    List.replicate_succ, List.set_cons_zero, array, List.map_append, append_assoc]
  rfl

lemma store_end {l : List ℕ} (h : l.length < MAXARGS) :
    store (array l) l.length none = .ok (array l) := by
  rw [store, if_pos h, array, List.set_append_right _ _ (by simp), List.length_map, Nat.sub_self,
    show MAXARGS - l.length = MAXARGS - l.length - 1 + 1 by omega, List.replicate_succ,
    List.set_cons_zero]

lemma endExec_eq {ws : List (ℕ × ℕ)} (h : ws.length < MAXARGS) (rs : List Redir) (p : ℕ) :
    endExec (array (ws.map (·.1))) (array (ws.map (·.2))) ws.length rs p =
      .ok (wrap rs (execNode ws), p) := by
  have h1 := store_end (l := ws.map (·.1)) (by simpa using h)
  have h2 := store_end (l := ws.map (·.2)) (by simpa using h)
  rw [List.length_map] at h1 h2
  rw [endExec, h1, h2]
  rfl

lemma argLoop_word (h0 : 0 ∉ s) (fuel : ℕ) {q e : ℕ} (ws : List (ℕ × ℕ)) (hn : ws.length < MAXARGS)
    (rs : List Redir) (h : Lexes s p (.word q e :: ts)) :
    ∃ p', Lexes s p' ts ∧
      argLoop s (fuel + 1) (array (ws.map (·.1))) (array (ws.map (·.2))) ws.length rs p =
        (if MAXARGS ≤ ws.length + 1 then .error (.panic .tooManyArgs)
        else do
          let (more, ps) ← parseredirs s fuel p'
          argLoop s fuel (array ((ws ++ [(q, e)]).map (·.1))) (array ((ws ++ [(q, e)]).map (·.2)))
            (ws ++ [(q, e)]).length (rs ++ more) ps) := by
  obtain ⟨p1, h1, hpeek⟩ := peek_starts h "|)&;" execEnds (by decide) (by decide)
  obtain ⟨_, _, p2, hg, h2, hw⟩ := gettoken_cons h0 h1
  obtain ⟨rfl, rfl⟩ := hw _ _ rfl
  refine ⟨p2, h2, ?_⟩
  have hst : ¬ Starts execEnds (.word q e :: ts) := by simp [execEnds]
  have s1 := store_next (l := ws.map (·.1)) (by simpa using hn) q
  have s2 := store_next (l := ws.map (·.2)) (by simpa using hn) e
  rw [List.length_map] at s1 s2
  rw [argLoop, hpeek]
  simp only [hst, decide_false, Bool.false_eq_true, if_false, hg]
  rw [if_neg (code_ne_zero _), if_neg (not_not.mpr (word_code q e)), s1, s2]
  simp only [List.map_append, List.map_cons, List.map_nil, length_append,
    List.length_singleton]
  change (if _ then _ else _) = _
  split_ifs <;> rfl

lemma argLoop_sound (h0 : 0 ∉ s) (fuel : ℕ) (ws : List (ℕ × ℕ)) (hn : ws.length < MAXARGS)
    (rs : List Redir) (h : Lexes s p ts) (hf : ts.length < fuel) :
    Outcome s (fun u cmd _ => ∃ ws' rs', Args u ws' rs' ∧ (ws ++ ws').length < MAXARGS ∧
      cmd = wrap (rs ++ rs') (execNode (ws ++ ws'))) ts
      (argLoop s fuel (array (ws.map (·.1))) (array (ws.map (·.2))) ws.length rs p) := by
  induction fuel generalizing p ts ws rs with
  | zero => omega
  | succ fuel ih =>
    have hend : ∀ {p'}, Lexes s p' ts → Outcome s (fun u cmd _ => ∃ ws' rs', Args u ws' rs' ∧
        (ws ++ ws').length < MAXARGS ∧ cmd = wrap (rs ++ rs') (execNode (ws ++ ws'))) ts
        (endExec (array (ws.map (·.1))) (array (ws.map (·.2))) ws.length rs p') := by
      intro p' hp'
      rw [endExec_eq hn]
      exact .inr ⟨_, p', [], ts, rfl, rfl, hp', [], [], .nil, by simpa using hn, by simp⟩
    by_cases hw : ∃ q e ts', ts = .word q e :: ts'
    · obtain ⟨q, e, ts, rfl⟩ := hw
      obtain ⟨p1, h1, hround⟩ := argLoop_word h0 fuel ws hn rs h
      rw [hround]
      split_ifs with hmax
      · exact .inl ⟨_, rfl⟩
      · rw [length_cons] at hf
        rcases parseredirs_sound h0 fuel h1 (by omega) with
          ⟨m, hm⟩ | ⟨more, p2, u, r, hm, rfl, h2, hr⟩
        · rw [hm]
          exact .inl ⟨m, rfl⟩
        · rw [hm]
          rw [length_append] at hf
          have hn' : (ws ++ [(q, e)]).length < MAXARGS := by
            rw [length_append, List.length_singleton]
            omega
          rcases ih _ hn' (rs ++ more) h2 (by omega) with
            ⟨m, hm⟩ | ⟨cmd, p3, v, r, hm, rfl, h3, ws', rs', ha, hl, rfl⟩
          · exact .inl ⟨m, hm⟩
          · refine .inr ⟨_, p3, .word q e :: u ++ v, r, hm, by simp, h3, (q, e) :: ws', more ++ rs',
              .cons hr ha, by simpa using hl, ?_⟩
            simp
    · obtain ⟨p1, h1, hpeek⟩ := peek_starts h "|)&;" execEnds (by decide) (by decide)
      rw [argLoop, hpeek]
      by_cases hs : Starts execEnds ts
      · simp only [hs, decide_true, if_true]
        exact hend h1
      · simp only [hs, decide_false, Bool.false_eq_true, if_false]
        cases ts with
        | nil =>
          rw [gettoken_nil h1]
          simp only [if_true]
          exact hend (.nil le_rfl fun i _ _ => by omega)
        | cons t ts =>
          obtain ⟨q, e, p2, hg, h2, -⟩ := gettoken_cons h0 h1
          have ht : t.code ≠ 'a'.toUInt8 := fun hc => by
            obtain ⟨q, e, rfl⟩ := code_eq_a.mp hc
            exact hw ⟨q, e, ts, rfl⟩
          rw [hg]
          simp only [ht, code_ne_zero, if_false, ne_eq, not_false_eq_true, if_true]
          exact .inl ⟨_, rfl⟩

lemma Args.not_redir {u r : List Tok} {ws : List (ℕ × ℕ)} {rs : List Redir} (ha : Args u ws rs)
    (hr : r = [] ∨ Starts execEnds r) : ¬ Starts redirOps (u ++ r) := by
  cases ha with
  | nil =>
    rw [List.nil_append]
    exact not_starts hr (by decide)
  | cons => simp [redirOps]

lemma argLoop_complete (h0 : 0 ∉ s) (fuel : ℕ) {u r : List Tok} (ws : List (ℕ × ℕ))
    {ws' : List (ℕ × ℕ)} {rs' : List Redir} (ha : Args u ws' rs')
    (hn : (ws ++ ws').length < MAXARGS) (rs : List Redir) (h : Lexes s p (u ++ r))
    (hr : r = [] ∨ Starts execEnds r) (hf : (u ++ r).length < fuel) :
    ∃ p', argLoop s fuel (array (ws.map (·.1))) (array (ws.map (·.2))) ws.length rs p =
      .ok (wrap (rs ++ rs') (execNode (ws ++ ws')), p') ∧ Lexes s p' r := by
  induction ha generalizing p fuel ws rs with
  | nil =>
    obtain _ | fuel := fuel
    · omega
    rw [List.append_nil] at hn ⊢
    rw [List.append_nil]
    obtain ⟨p1, h1, hpeek⟩ := peek_starts h "|)&;" execEnds (by decide) (by decide)
    rw [List.nil_append] at h1 hpeek
    rw [argLoop, hpeek]
    rcases hr with rfl | hr
    · simp only [starts_nil, decide_false, Bool.false_eq_true, if_false, gettoken_nil h1, if_true]
      exact ⟨_, endExec_eq hn _ _, .nil le_rfl fun i _ _ => by omega⟩
    · simp only [hr, decide_true, if_true]
      exact ⟨_, endExec_eq hn _ _, h1⟩
  | @cons q e u v more rs' ws' hr' ha ih =>
    obtain _ | fuel := fuel
    · omega
    rw [length_append, length_cons] at hn
    obtain ⟨p1, h1, hround⟩ := argLoop_word h0 fuel ws (by omega) rs h
    have h1 : Lexes s p1 (u ++ (v ++ r)) := by
      rw [← append_assoc]
      exact h1
    have hlen : (u ++ (v ++ r)).length < fuel := by
      rw [← append_assoc]
      simpa using hf
    obtain ⟨p2, hp2, h2⟩ := parseredirs_complete h0 fuel hr' h1 (ha.not_redir hr) hlen
    have hn' : ((ws ++ [(q, e)]) ++ ws').length < MAXARGS := by
      simp only [length_append, List.length_singleton]
      omega
    rw [length_append] at hlen
    obtain ⟨p3, hp3, h3⟩ := ih fuel _ hn' (rs ++ more) h2 (by omega)
    refine ⟨p3, ?_, h3⟩
    rw [hround, if_neg (by omega), hp2]
    change argLoop s fuel _ _ _ (rs ++ more) p2 = _
    rw [hp3, append_assoc, append_assoc]
    rfl

/-! ### Lines, pipes and blocks -/

lemma backLoop_eq (h0 : 0 ∉ s) (fuel n : ℕ) {r : List Tok} (cmd : Cmd)
    (h : Lexes s p (List.replicate n .amp ++ r)) (hs : ¬ Starts [.amp] r) (hf : n < fuel) :
    ∃ p', backLoop s fuel cmd p = .ok (Cmd.back^[n] cmd, p') ∧ Lexes s p' r := by
  induction n generalizing p fuel cmd with
  | zero =>
    obtain _ | fuel := fuel
    · omega
    rw [List.replicate_zero, List.nil_append] at h
    obtain ⟨p1, hpeek, h1⟩ := peek_pass h "&" (by decide) (by decide) hs
    rw [backLoop, hpeek]
    exact ⟨p1, rfl, h1⟩
  | succ n ih =>
    obtain _ | fuel := fuel
    · omega
    rw [List.replicate_succ, cons_append] at h
    obtain ⟨p1, _, _, p2, hpeek, hg, h2⟩ := peek_take h0 h "&" (by decide) (by decide)
    obtain ⟨p3, hp3, h3⟩ := ih fuel (.back cmd) h2 (by omega)
    refine ⟨p3, ?_, h3⟩
    rw [backLoop, hpeek]
    simp only [Bool.not_true, Bool.false_eq_true, if_false, hg]
    exact hp3

lemma exists_amps (ts : List Tok) :
    ∃ n r, ts = List.replicate n .amp ++ r ∧ ¬ Starts [.amp] r := by
  induction ts with
  | nil => exact ⟨0, [], rfl, by simp⟩
  | cons t ts ih =>
    by_cases ht : t = .amp
    · obtain ⟨n, r, rfl, hr⟩ := ih
      exact ⟨n + 1, r, by rw [ht, List.replicate_succ, cons_append], hr⟩
    · exact ⟨0, t :: ts, rfl, by simpa using ht⟩

/-- A function of the parser takes a phrase off the front of the tokens, with fuel for the calls
that it makes before the next token is taken. -/
def Sound (s : List UInt8) (sym : Sym) (parse : List UInt8 → ℕ → ℕ → Except Stop (Cmd × ℕ))
    (calls fuel : ℕ) : Prop :=
  ∀ p ts, Lexes s p ts → 4 * ts.length + calls ≤ fuel →
    Outcome s (fun u cmd _ => Gen sym u cmd) ts (parse s fuel p)

lemma parseline_sound {fuel : ℕ} (h0 : 0 ∉ s) (hpipe : Sound s .pipe parsepipe 3 fuel)
    (hline : Sound s .line parseline 4 fuel) : Sound s .line parseline 4 (fuel + 1) := by
  intro p ts h hf
  rw [parseline]
  rcases hpipe p ts h (by omega) with ⟨m, hm⟩ | ⟨cmd, p1, u, r, hm, rfl, h1, hg⟩
  · rw [hm]
    exact .inl ⟨m, rfl⟩
  · rw [length_append] at hf
    obtain ⟨n, r, rfl, hs⟩ := exists_amps r
    rw [length_append, List.length_replicate] at hf
    obtain ⟨p2, hp2, h2⟩ := backLoop_eq h0 fuel n cmd h1 hs (by omega)
    by_cases hsemi : Starts [.semi] r
    · obtain ⟨r, rfl⟩ := hsemi.eq_cons
      obtain ⟨p3, _, _, p4, hpeek, hg4, h4⟩ := peek_take h0 h2 ";" (by decide) (by decide)
      rw [length_cons] at hf
      simp only [hm, hp2, hpeek, hg4, bind, Except.bind, Bool.not_true, Bool.false_eq_true,
        if_false]
      rcases hline p4 r h4 (by omega) with ⟨m, hm⟩ | ⟨right, p5, v, r, hm, rfl, h5, hg'⟩
      · rw [hm]
        exact .inl ⟨m, rfl⟩
      · rw [hm]
        exact .inr ⟨_, p5, u ++ (List.replicate n .amp ++ .semi :: v), r, rfl, by simp, h5,
          .seq n hg hg'⟩
    · obtain ⟨p3, hpeek, h3⟩ := peek_pass h2 ";" (by decide) (by decide) hsemi
      simp only [hm, hp2, hpeek, bind, Except.bind, Bool.not_false, if_true]
      exact .inr ⟨_, p3, u ++ List.replicate n .amp, r, rfl, by simp, h3, .line n hg⟩

lemma parsepipe_sound {fuel : ℕ} (h0 : 0 ∉ s) (hexec : Sound s .exec parseexec 2 fuel)
    (hpipe : Sound s .pipe parsepipe 3 fuel) : Sound s .pipe parsepipe 3 (fuel + 1) := by
  intro p ts h hf
  rw [parsepipe]
  rcases hexec p ts h (by omega) with ⟨m, hm⟩ | ⟨cmd, p1, u, r, hm, rfl, h1, hg⟩
  · rw [hm]
    exact .inl ⟨m, rfl⟩
  · rw [length_append] at hf
    by_cases hbar : Starts [.bar] r
    · obtain ⟨r, rfl⟩ := hbar.eq_cons
      obtain ⟨p2, _, _, p3, hpeek, hg3, h3⟩ := peek_take h0 h1 "|" (by decide) (by decide)
      rw [length_cons] at hf
      simp only [hm, hpeek, hg3, bind, Except.bind, Bool.not_true, Bool.false_eq_true, if_false]
      rcases hpipe p3 r h3 (by omega) with ⟨m, hm⟩ | ⟨right, p4, v, r, hm, rfl, h4, hg'⟩
      · rw [hm]
        exact .inl ⟨m, rfl⟩
      · rw [hm]
        exact .inr ⟨_, p4, u ++ .bar :: v, r, rfl, by simp, h4, .pipe hg hg'⟩
    · obtain ⟨p2, hpeek, h2⟩ := peek_pass h1 "|" (by decide) (by decide) hbar
      simp only [hm, hpeek, bind, Except.bind, Bool.not_false, if_true]
      exact .inr ⟨_, p2, u, r, rfl, rfl, h2, .single hg⟩

lemma parseexec_sound {fuel : ℕ} (h0 : 0 ∉ s) (hblock : Sound s .exec parseblock 1 fuel) :
    Sound s .exec parseexec 2 (fuel + 1) := by
  intro p ts h hf
  by_cases hopen : Starts [.lparen] ts
  · obtain ⟨p1, h1, hpeek⟩ := peek_starts h "(" [.lparen] (by decide) (by decide)
    simp only [parseexec, hpeek, hopen, decide_true, if_true]
    exact hblock p1 ts h1 (by omega)
  · obtain ⟨p1, hpeek, h1⟩ := peek_pass h "(" (by decide) (by decide) hopen
    simp only [parseexec, hpeek, Bool.false_eq_true, if_false]
    rcases parseredirs_sound h0 fuel h1 (by omega) with
      ⟨m, hm⟩ | ⟨rs, p2, u, r, hm, rfl, h2, hr⟩
    · rw [hm]
      exact .inl ⟨m, rfl⟩
    · rw [hm]
      rw [length_append] at hf
      rcases argLoop_sound h0 fuel [] (by decide) rs h2 (by omega) with
        ⟨m, hm⟩ | ⟨_, p3, v, r, hm, rfl, h3, ws, rs', ha, hn, rfl⟩
      · exact .inl ⟨m, hm⟩
      · exact .inr ⟨_, p3, u ++ v, r, hm, by simp, h3, .exec hr ha hn⟩

lemma parseblock_sound {fuel : ℕ} (h0 : 0 ∉ s) (hline : Sound s .line parseline 4 fuel) :
    Sound s .exec parseblock 1 (fuel + 1) := by
  intro p ts h hf
  by_cases hopen : Starts [.lparen] ts
  · obtain ⟨ts, rfl⟩ := hopen.eq_cons
    obtain ⟨p1, _, _, p2, hpeek, hg2, h2⟩ := peek_take h0 h "(" (by decide) (by decide)
    rw [length_cons] at hf
    simp only [parseblock, hpeek, hg2, Bool.not_true, Bool.false_eq_true, if_false]
    rcases hline p2 ts h2 (by omega) with ⟨m, hm⟩ | ⟨cmd, p3, u, r, hm, rfl, h3, hg⟩
    · rw [hm]
      exact .inl ⟨m, rfl⟩
    · rw [length_append] at hf
      by_cases hclose : Starts [.rparen] r
      · obtain ⟨r, rfl⟩ := hclose.eq_cons
        obtain ⟨p4, _, _, p5, hpeek, hg5, h5⟩ := peek_take h0 h3 ")" (by decide) (by decide)
        rw [length_cons] at hf
        simp only [hm, hpeek, hg5, bind, Except.bind, Bool.not_true, Bool.false_eq_true, if_false]
        rcases parseredirs_sound h0 fuel h5 (by omega) with
          ⟨m, hm⟩ | ⟨rs, p6, v, r, hm, rfl, h6, hr⟩
        · rw [hm]
          exact .inl ⟨m, rfl⟩
        · rw [hm]
          exact .inr ⟨_, p6, .lparen :: (u ++ .rparen :: v), r, rfl, by simp, h6, .block hg hr⟩
      · obtain ⟨p4, hpeek, -⟩ := peek_pass h3 ")" (by decide) (by decide) hclose
        simp only [hm, hpeek, bind, Except.bind, Bool.not_false, if_true]
        exact .inl ⟨_, rfl⟩
  · obtain ⟨p1, hpeek, -⟩ := peek_pass h "(" (by decide) (by decide) hopen
    simp only [parseblock, hpeek, Bool.not_false, if_true]
    exact .inl ⟨_, rfl⟩

lemma parse_sound (h0 : 0 ∉ s) (fuel : ℕ) : Sound s .line parseline 4 fuel ∧
    Sound s .pipe parsepipe 3 fuel ∧ Sound s .exec parseexec 2 fuel ∧
    Sound s .exec parseblock 1 fuel := by
  induction fuel with
  | zero => exact ⟨fun _ _ _ h => by omega, fun _ _ _ h => by omega, fun _ _ _ h => by omega,
      fun _ _ _ h => by omega⟩
  | succ fuel ih =>
    obtain ⟨hline, hpipe, hexec, hblock⟩ := ih
    exact ⟨parseline_sound h0 hpipe hline, parsepipe_sound h0 hexec hpipe,
      parseexec_sound h0 hblock, parseblock_sound h0 hline⟩

def ends : Sym → List Tok
  | .line => [.rparen]
  | .pipe => [.rparen, .semi, .amp]
  | .exec => execEnds

/-- The function of the parser for a nonterminal, and the fuel it needs for itself and its
callees. -/
def parseSym : Sym → List UInt8 → ℕ → ℕ → Except Stop (Cmd × ℕ)
  | .line => parseline
  | .pipe => parsepipe
  | .exec => parseexec

def cost : Sym → ℕ
  | .line => 4
  | .pipe => 3
  | .exec => 2

lemma starts_amps {l l' r : List Tok} (n : ℕ) (hr : r = [] ∨ Starts l r) (hamp : .amp ∈ l')
    (h : ∀ t ∈ l, t ∈ l') :
    List.replicate n Tok.amp ++ r = [] ∨ Starts l' (List.replicate n .amp ++ r) := by
  cases n with
  | zero => exact starts_mono hr h
  | succ n => exact .inr (by simpa [List.replicate_succ] using hamp)

/-- The parser takes a phrase off that what follows cannot continue. -/
def Complete (s : List UInt8) (sym : Sym) (u : List Tok) (cmd : Cmd) : Prop :=
  ∀ fuel p r, Lexes s p (u ++ r) → (r = [] ∨ Starts (ends sym) r) →
    4 * (u ++ r).length + cost sym ≤ fuel →
    ∃ p', parseSym sym s fuel p = .ok (cmd, p') ∧ Lexes s p' r

section Complete

variable {u v : List Tok} {cmd right : Cmd}

lemma Complete.line (h0 : 0 ∉ s) (n : ℕ) (hu : Complete s .pipe u cmd) :
    Complete s .line (u ++ List.replicate n .amp) (Cmd.back^[n] cmd) := by
  intro fuel p r h hr hf
  obtain _ | fuel := fuel
  · simp only [cost] at hf
    omega
  rw [append_assoc] at h hf
  simp only [cost] at hf
  have hlen : n ≤ (u ++ (List.replicate n Tok.amp ++ r)).length := by
    simp only [length_append, List.length_replicate]
    omega
  obtain ⟨p1, hp1, h1⟩ := hu fuel p _ h (starts_amps n hr (by decide) (by decide))
    (by simp only [cost]; omega)
  obtain ⟨p2, hp2, h2⟩ := backLoop_eq h0 fuel n cmd h1 (not_starts hr (by decide)) (by omega)
  have hsemi : ¬ Starts [.semi] r := not_starts hr (by decide)
  obtain ⟨p3, hpeek, h3⟩ := peek_pass h2 ";" (by decide) (by decide) hsemi
  refine ⟨p3, ?_, h3⟩
  simp only [parseSym] at hp1
  simp only [parseSym, parseline, hp1, hp2, hpeek, bind, Except.bind, Bool.not_false, if_true]
  rfl

lemma Complete.seq (h0 : 0 ∉ s) (n : ℕ) (hu : Complete s .pipe u cmd)
    (hv : Complete s .line v right) :
    Complete s .line (u ++ (List.replicate n .amp ++ .semi :: v))
      (.list (Cmd.back^[n] cmd) right) := by
  intro fuel p r h hr hf
  obtain _ | fuel := fuel
  · simp only [cost] at hf
    omega
  rw [append_assoc, append_assoc, cons_append] at h hf
  simp only [cost, length_append, List.length_replicate, length_cons] at hf
  have hsemi : (Tok.semi :: (v ++ r)) = [] ∨ Starts [.semi] (Tok.semi :: (v ++ r)) :=
    .inr (by simp)
  obtain ⟨p1, hp1, h1⟩ := hu fuel p _ h (starts_amps n hsemi (by decide) (by decide)) (by
    simp only [cost, length_append, List.length_replicate, length_cons]
    omega)
  obtain ⟨p2, hp2, h2⟩ := backLoop_eq h0 fuel n cmd h1 (not_starts hsemi (by decide)) (by omega)
  obtain ⟨p3, _, _, p4, hpeek, hg4, h4⟩ := peek_take h0 h2 ";" (by decide) (by decide)
  obtain ⟨p5, hp5, h5⟩ := hv fuel p4 r h4 hr (by
    simp only [cost, length_append]
    omega)
  refine ⟨p5, ?_, h5⟩
  simp only [parseSym] at hp1 hp5
  simp only [parseSym, parseline, hp1, hp2, hpeek, bind, Except.bind, Bool.not_true,
    Bool.false_eq_true, if_false, hg4, hp5]
  rfl

lemma Complete.single (hu : Complete s .exec u cmd) : Complete s .pipe u cmd := by
  intro fuel p r h hr hf
  obtain _ | fuel := fuel
  · simp only [cost] at hf
    omega
  simp only [cost] at hf
  obtain ⟨p1, hp1, h1⟩ := hu fuel p r h (starts_mono hr (by decide)) (by simp only [cost]; omega)
  have hbar : ¬ Starts [.bar] r := not_starts hr (by decide)
  obtain ⟨p2, hpeek, h2⟩ := peek_pass h1 "|" (by decide) (by decide) hbar
  refine ⟨p2, ?_, h2⟩
  simp only [parseSym] at hp1
  simp only [parseSym, parsepipe, hp1, hpeek, bind, Except.bind, Bool.not_false, if_true]
  rfl

lemma Complete.pipe (h0 : 0 ∉ s) (hu : Complete s .exec u cmd) (hv : Complete s .pipe v right) :
    Complete s .pipe (u ++ .bar :: v) (.pipe cmd right) := by
  intro fuel p r h hr hf
  obtain _ | fuel := fuel
  · simp only [cost] at hf
    omega
  rw [append_assoc, cons_append] at h hf
  simp only [cost, length_append, length_cons] at hf
  obtain ⟨p1, hp1, h1⟩ := hu fuel p _ h (.inr (by simp [ends, execEnds])) (by
    simp only [cost, length_append, length_cons]
    omega)
  obtain ⟨p2, _, _, p3, hpeek, hg3, h3⟩ := peek_take h0 h1 "|" (by decide) (by decide)
  obtain ⟨p4, hp4, h4⟩ := hv fuel p3 r h3 hr (by
    simp only [cost, length_append]
    omega)
  refine ⟨p4, ?_, h4⟩
  simp only [parseSym] at hp1 hp4
  simp only [parseSym, parsepipe, hp1, hpeek, bind, Except.bind, Bool.not_true,
    Bool.false_eq_true, if_false, hg3, hp4]
  rfl

lemma Complete.block {rs : List Redir} (h0 : 0 ∉ s) (hu : Complete s .line u cmd)
    (hv : Redirs v rs) : Complete s .exec (.lparen :: (u ++ .rparen :: v)) (wrap rs cmd) := by
  intro fuel p r h hr hf
  obtain ⟨fuel, rfl⟩ : ∃ k, fuel = k + 2 := ⟨fuel - 2, by simp only [cost] at hf; omega⟩
  rw [cons_append, append_assoc, cons_append] at h hf
  simp only [cost, length_append, length_cons] at hf
  -- both `parseexec` and `parseblock` look for the parenthesis
  obtain ⟨p1, h1, hpeek1⟩ := peek_starts h "(" [.lparen] (by decide) (by decide)
  rw [decide_eq_true (by simp)] at hpeek1
  obtain ⟨p2, _, _, p3, hpeek2, hg3, h3⟩ := peek_take h0 h1 "(" (by decide) (by decide)
  obtain ⟨p4, hp4, h4⟩ := hu fuel p3 _ h3 (.inr (by simp [ends])) (by
    simp only [cost, length_append, length_cons]
    omega)
  obtain ⟨p5, _, _, p6, hpeek5, hg6, h6⟩ := peek_take h0 h4 ")" (by decide) (by decide)
  obtain ⟨p7, hp7, h7⟩ := parseredirs_complete h0 fuel hv h6 (not_starts hr (by decide)) (by
    rw [length_append]
    omega)
  refine ⟨p7, ?_, h7⟩
  simp only [parseSym] at hp4
  simp only [parseSym, parseexec, parseblock, hpeek1, hpeek2, if_true, Bool.not_true,
    Bool.false_eq_true, if_false, hg3, hp4, bind, Except.bind, hpeek5, hg6, hp7]
  rfl

lemma not_lparen {r : List Tok} {ws : List (ℕ × ℕ)} {rs rs' : List Redir} (hu : Redirs u rs)
    (hv : Args v ws rs') (hr : r = [] ∨ Starts execEnds r) :
    ¬ Starts [.lparen] (u ++ (v ++ r)) := by
  cases hu with
  | nil =>
    cases hv with
    | nil => exact not_starts hr (by decide)
    | cons => simp
  | cons hop =>
    rw [cons_append, starts_cons, List.mem_singleton]
    rintro rfl
    revert hop
    decide

lemma Complete.exec {ws : List (ℕ × ℕ)} {rs rs' : List Redir} (h0 : 0 ∉ s) (hu : Redirs u rs)
    (hv : Args v ws rs') (hn : ws.length < MAXARGS) :
    Complete s .exec (u ++ v) (wrap (rs ++ rs') (execNode ws)) := by
  intro fuel p r h hr hf
  obtain _ | fuel := fuel
  · simp only [cost] at hf
    omega
  rw [append_assoc] at h hf
  simp only [cost] at hf
  obtain ⟨p1, hpeek, h1⟩ := peek_pass h "(" (by decide) (by decide) (not_lparen hu hv hr)
  obtain ⟨p2, hp2, h2⟩ := parseredirs_complete h0 fuel hu h1 (hv.not_redir hr) (by omega)
  rw [length_append] at hf
  obtain ⟨p3, hp3, h3⟩ := argLoop_complete h0 fuel [] hv hn rs h2 hr (by omega)
  refine ⟨p3, ?_, h3⟩
  simp only [parseSym, parseexec, hpeek, Bool.false_eq_true, if_false, hp2, bind, Except.bind]
  exact hp3

end Complete

lemma parse_complete (h0 : 0 ∉ s) {sym : Sym} {u : List Tok} {cmd : Cmd} (hg : Gen sym u cmd) :
    Complete s sym u cmd := by
  induction hg with
  | line n _ ih => exact .line h0 n ih
  | seq n _ _ ih ih' => exact .seq h0 n ih ih'
  | single _ ih => exact .single ih
  | pipe _ _ ih ih' => exact .pipe h0 ih ih'
  | block _ hr ih => exact .block h0 ih hr
  | exec hr ha hn => exact .exec h0 hr ha hn

end Xv6.Sh
