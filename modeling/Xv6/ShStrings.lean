import Xv6.ShParse

/-!
The strings of a parsed command: what `nulterminate` writes, and that every argument and file
is the word of the line that it was made from.
-/

namespace Xv6.Sh

variable {s : List UInt8} {p : ℕ} {ts : List Tok}

/-! ### The strings of a command -/

/-- Where the strings of a command begin and end: its arguments and files. -/
def Cmd.strings : Cmd → List (ℕ × ℕ)
  | .exec argv eargv =>
    (argv.zip eargv).filterMap fun x => x.1.bind fun q => x.2.map fun e => (q, e)
  | .redir cmd file efile _ _ => cmd.strings ++ [(file, efile)]
  | .pipe left right => left.strings ++ right.strings
  | .list left right => left.strings ++ right.strings
  | .back cmd => cmd.strings

/-- Every `exec` of a command has fewer than `MAXARGS` words and zeros behind them. -/
def Cmd.Filled : Cmd → Prop
  | .exec argv eargv => ∃ ws : List (ℕ × ℕ), ws.length < MAXARGS ∧
      argv = array (ws.map (·.1)) ∧ eargv = array (ws.map (·.2))
  | .redir cmd _ _ _ _ => cmd.Filled
  | .pipe left right => left.Filled ∧ right.Filled
  | .list left right => left.Filled ∧ right.Filled
  | .back cmd => cmd.Filled

/-- The bytes of a buffer after zeros have been written behind strings. -/
def Nulled (l : List (ℕ × ℕ)) (buf buf' : List UInt8) : Prop :=
  ∀ i, buf'.getD i 0 = if i ∈ l.map (·.2) then 0 else buf.getD i 0

lemma Nulled.append {l l' : List (ℕ × ℕ)} {a b c : List UInt8} (h : Nulled l a b)
    (h' : Nulled l' b c) : Nulled (l ++ l') a c := by
  intro i
  rw [h' i, h i]
  simp only [List.map_append, List.mem_append]
  split_ifs <;> simp_all

lemma nulled_set (q e : ℕ) (buf : List UInt8) : Nulled [(q, e)] buf (buf.set e 0) := by
  intro i
  simp only [List.map_cons, List.map_nil, List.mem_singleton, List.getD_eq_getElem?_getD,
    List.getElem?_set]
  split_ifs <;> simp_all

lemma strings_execNode (ws : List (ℕ × ℕ)) : (execNode ws).strings = ws := by
  have hzip : (array (ws.map (·.1))).zip (array (ws.map (·.2))) =
      ws.map (fun x => (some x.1, some x.2)) ++
        List.replicate (MAXARGS - ws.length) (none, none) := by
    simp only [array, List.length_map, List.map_map]
    rw [List.zip_append (by simp), List.zip_map']
    simp
  rw [execNode, Cmd.strings, hzip, List.filterMap_append, List.filterMap_map]
  simp

lemma array_getD {l : List ℕ} (i : ℕ) : (array l).getD i none = l[i]? := by
  rw [array, List.getD_eq_getElem?_getD, List.getElem?_append]
  split_ifs with h
  · rw [List.length_map] at h
    simp [h]
  · rw [List.length_map] at h
    rw [List.getElem?_eq_none (l := l) (by omega), List.getElem?_replicate]
    split_ifs <;> rfl

lemma nulArgs_spec {ws : List (ℕ × ℕ)} (hn : ws.length < MAXARGS) (fuel i : ℕ)
    (hi : i ≤ ws.length) (hf : ws.length - i < fuel) (buf : List UInt8) :
    ∃ buf', nulArgs (array (ws.map (·.1))) (array (ws.map (·.2))) fuel i buf = .ok buf' ∧
      Nulled (ws.drop i) buf buf' := by
  induction fuel generalizing i buf with
  | zero => omega
  | succ fuel ih =>
    rw [nulArgs, if_neg (by omega), array_getD, array_getD]
    rcases Nat.eq_or_lt_of_le hi with rfl | hlt
    · refine ⟨buf, by simp, fun i => ?_⟩
      simp
    · obtain ⟨buf', hb, hz⟩ := ih (i + 1) hlt (by omega) (buf.set (ws[i].2) 0)
      refine ⟨buf', by simpa [hlt] using hb, ?_⟩
      rw [List.drop_eq_getElem_cons hlt]
      exact (nulled_set (ws[i].1) (ws[i].2) buf).append hz

lemma nulterminate_spec {cmd : Cmd} (h : cmd.Filled) (buf : List UInt8) :
    ∃ buf', nulterminate cmd buf = .ok buf' ∧ Nulled cmd.strings buf buf' := by
  induction cmd generalizing buf with
  | exec argv eargv =>
    obtain ⟨ws, hn, rfl, rfl⟩ := h
    obtain ⟨buf', hb, hz⟩ := nulArgs_spec hn (MAXARGS + 1) 0 (Nat.zero_le _) (by omega) buf
    refine ⟨buf', hb, ?_⟩
    have := strings_execNode ws
    rw [execNode] at this
    rw [this]
    exact hz
  | redir cmd file efile mode fd ih =>
    obtain ⟨buf', hb, hz⟩ := ih h buf
    refine ⟨buf'.set efile 0, ?_, hz.append (nulled_set file efile buf')⟩
    rw [nulterminate, hb]
    rfl
  | pipe left right ihl ihr | list left right ihl ihr =>
    obtain ⟨b1, hb1, hz1⟩ := ihl h.1 buf
    obtain ⟨b2, hb2, hz2⟩ := ihr h.2 b1
    refine ⟨b2, ?_, hz1.append hz2⟩
    rw [nulterminate, hb1]
    exact hb2
  | back cmd ih => exact ih h buf

lemma wrap_filled {cmd : Cmd} (h : cmd.Filled) (rs : List Redir) : (wrap rs cmd).Filled := by
  induction rs generalizing cmd with
  | nil => exact h
  | cons r rs ih => exact ih h

lemma back_filled {cmd : Cmd} (h : cmd.Filled) (n : ℕ) : (Cmd.back^[n] cmd).Filled := by
  induction n generalizing cmd with
  | zero => exact h
  | succ n ih => exact ih h

lemma execNode_filled {ws : List (ℕ × ℕ)} (h : ws.length < MAXARGS) : (execNode ws).Filled :=
  ⟨ws, h, rfl, rfl⟩

lemma Gen.filled {sym : Sym} {u : List Tok} {cmd : Cmd} (h : Gen sym u cmd) : cmd.Filled := by
  induction h with
  | line n _ ih => exact back_filled ih n
  | seq n _ _ ih ih' => exact ⟨back_filled ih n, ih'⟩
  | single _ ih => exact ih
  | pipe _ _ ih ih' => exact ⟨ih, ih'⟩
  | block _ _ ih => exact wrap_filled ih _
  | @exec _ _ ws _ _ _ _ hn => exact wrap_filled (execNode_filled hn) _

lemma wrap_strings (cmd : Cmd) (rs : List Redir) :
    (wrap rs cmd).strings = cmd.strings ++ rs.map fun r => (r.file, r.efile) := by
  induction rs generalizing cmd with
  | nil => simp [wrap]
  | cons r rs ih =>
    have := ih (.redir cmd r.file r.efile r.mode r.fd)
    simpa [wrap, Cmd.strings] using this

lemma back_strings (cmd : Cmd) (n : ℕ) : (Cmd.back^[n] cmd).strings = cmd.strings := by
  induction n generalizing cmd with
  | zero => rfl
  | succ n ih => exact ih (.back cmd)

lemma Redirs.words {u : List Tok} {rs : List Redir} (h : Redirs u rs) {x : ℕ × ℕ}
    (hx : x ∈ rs.map fun r => (r.file, r.efile)) : .word x.1 x.2 ∈ u := by
  induction h with
  | nil => simp at hx
  | @cons op q e ts rs hop h ih =>
    rw [List.map_cons, List.mem_cons] at hx
    rcases hx with rfl | hx
    · have : (redirOf op.code q e).file = q ∧ (redirOf op.code q e).efile = e := by
        unfold redirOf
        split_ifs <;> exact ⟨rfl, rfl⟩
      simp [this]
    · exact List.mem_cons_of_mem _ (List.mem_cons_of_mem _ (ih hx))

lemma Args.words {u : List Tok} {ws : List (ℕ × ℕ)} {rs : List Redir} (h : Args u ws rs)
    {x : ℕ × ℕ} (hx : x ∈ ws ∨ x ∈ rs.map fun r => (r.file, r.efile)) : .word x.1 x.2 ∈ u := by
  induction h with
  | nil => simp at hx
  | @cons q e u v rs rs' ws hr h ih =>
    rw [List.map_append, List.mem_append, List.mem_cons] at hx
    rw [List.cons_append, List.mem_cons, List.mem_append]
    rcases hx with (rfl | hx) | hx | hx
    · exact .inl rfl
    · exact .inr (.inr (ih (.inl hx)))
    · exact .inr (.inl (hr.words hx))
    · exact .inr (.inr (ih (.inr hx)))

lemma Gen.words {sym : Sym} {u : List Tok} {cmd : Cmd} (h : Gen sym u cmd) {x : ℕ × ℕ}
    (hx : x ∈ cmd.strings) : .word x.1 x.2 ∈ u := by
  induction h with
  | line n _ ih =>
    rw [back_strings] at hx
    exact List.mem_append_left _ (ih hx)
  | seq n _ _ ih ih' =>
    rw [Cmd.strings, back_strings, List.mem_append] at hx
    simp only [List.mem_append, List.mem_cons]
    exact hx.imp ih fun hx => .inr (.inr (ih' hx))
  | single _ ih => exact ih hx
  | pipe _ _ ih ih' =>
    rw [Cmd.strings, List.mem_append] at hx
    simp only [List.mem_append, List.mem_cons]
    exact hx.imp ih fun hx => .inr (ih' hx)
  | block _ hr ih =>
    rw [wrap_strings, List.mem_append] at hx
    simp only [List.mem_append, List.mem_cons]
    exact .inr (hx.imp ih fun hx => .inr (hr.words hx))
  | exec hr ha _ =>
    rw [wrap_strings, strings_execNode, List.map_append, List.mem_append, List.mem_append] at hx
    rw [List.mem_append]
    rcases hx with hx | hx | hx
    · exact .inr (ha.words (.inl hx))
    · exact .inl (hr.words hx)
    · exact .inr (ha.words (.inr hx))

lemma Lexes.token {q e : ℕ} (h : Lexes s p ts) (hw : .word q e ∈ ts) : Token s q e (.word q e) := by
  induction h with
  | nil => simp at hw
  | cons hp h ht hts ih =>
    rcases List.mem_cons.mp hw with rfl | hw
    · cases ht with
      | single ht _ => simp at ht
      | word hlt he h h' => exact .word hlt he h h'
    · exact ih hw

lemma Token.word_spec {q e : ℕ} {t : Tok} (h : Token s q e t) (ht : t = .word q e) :
    q < e ∧ e ≤ s.length ∧ (∀ i, q ≤ i → i < e → isWord (deref s i)) ∧
      (e < s.length → isWord (deref s e) = false) := by
  cases h with
  | single ht' _ =>
    subst ht
    simp at ht'
  | word hlt he h h' => exact ⟨hlt, he, h, h'⟩
  | _ => cases ht

def cstr (buf : List UInt8) (q : ℕ) : List UInt8 := (buf.drop q).takeWhile (· ≠ 0)

lemma takeWhile_eq_take {a b : List UInt8} {k : ℕ} (hk : k ≤ b.length)
    (h : ∀ i < k, a.getD i 0 = b.getD i 0 ∧ b.getD i 0 ≠ 0) (h0 : a.getD k 0 = 0) :
    a.takeWhile (· ≠ 0) = b.take k := by
  induction k generalizing a b with
  | zero =>
    cases a with
    | nil => rfl
    | cons x a =>
      have hx : x = 0 := by simpa using h0
      simp [hx]
  | succ k ih =>
    obtain ⟨y, b, rfl⟩ := List.exists_cons_of_length_pos (Nat.lt_of_lt_of_le (Nat.succ_pos k) hk)
    obtain ⟨hxy, hy⟩ := h 0 (Nat.succ_pos k)
    rw [List.getD_cons_zero] at hxy hy
    cases a with
    | nil => exact absurd hxy.symm hy
    | cons x a =>
      rw [List.getD_cons_zero] at hxy
      subst hxy
      rw [List.takeWhile_cons_of_pos (by simpa using hy), List.take_succ_cons,
        ih (by simpa using hk) (fun i hi => h (i + 1) (by omega)) h0]

/-- Terminating the words of a line leaves each of them as it was: no word ends inside of
another. -/
lemma cstr_eq (h0 : 0 ∉ s) {l : List (ℕ × ℕ)} (hl : ∀ x ∈ l, Token s x.1 x.2 (.word x.1 x.2))
    {buf : List UInt8} (hz : Nulled l (s ++ [0]) buf) {x : ℕ × ℕ} (hx : x ∈ l) :
    cstr buf x.1 = (s.drop x.1).take (x.2 - x.1) := by
  obtain ⟨q, e⟩ := x
  obtain ⟨hlt, he, hw, -⟩ := (hl _ hx).word_spec rfl
  dsimp only at hlt he hw ⊢
  have hzero : buf.getD e 0 = 0 := by
    rw [hz e, if_pos (List.mem_map.mpr ⟨_, hx, rfl⟩)]
  refine takeWhile_eq_take (by simp; omega) (fun i hi => ?_) ?_
  · have hlen : q + i < s.length := by omega
    have hkeep : q + i ∉ l.map (·.2) := by
      intro hmem
      obtain ⟨⟨q', e'⟩, hy, hyi⟩ := List.mem_map.mp hmem
      obtain rfl : e' = q + i := hyi
      have hend := ((hl _ hy).word_spec rfl).2.2.2 hlen
      rw [hw _ (by omega) (by omega)] at hend
      cases hend
    have hs : (s ++ [0]).getD (q + i) 0 = deref s (q + i) := by
      rw [List.getD_append _ _ _ _ hlen]
      rfl
    have hd : (s.drop q).getD i 0 = deref s (q + i) := by
      rw [List.getD_eq_getElem?_getD, List.getElem?_drop, deref, List.getD_eq_getElem?_getD]
    refine ⟨?_, by rw [hd]; exact deref_ne_zero h0 hlen⟩
    rw [hd, List.getD_eq_getElem?_getD, List.getElem?_drop, ← List.getD_eq_getElem?_getD, hz,
      if_neg hkeep, hs]
  · rw [List.getD_eq_getElem?_getD, List.getElem?_drop, ← List.getD_eq_getElem?_getD,
      Nat.add_sub_cancel' hlt.le]
    exact hzero

/-! ### The parser -/

lemma peek_end (h : Lexes s p ts) : (peek s p "").2 = s.length ↔ ts = [] := by
  change scan isSpace s p = s.length ↔ _
  cases ts with
  | nil => exact iff_of_true h.scan_nil rfl
  | cons t ts =>
    obtain ⟨e, ht, -⟩ := h.scan
    have := ht.first
    exact iff_of_false (by omega) (by simp)

lemma parsecmd_sound (h0 : 0 ∉ s) :
    (∃ m, parsecmd s = .error (.panic m)) ∨
      ∃ cmd buf ts, parsecmd s = .ok (cmd, buf) ∧ Lexes s 0 ts ∧ Gen .line ts cmd ∧
        Nulled cmd.strings (s ++ [0]) buf := by
  obtain ⟨ts, hts⟩ := exists_lexes (s := s) (Nat.zero_le _)
  have hlen := hts.length_le
  rw [parsecmd]
  rcases (parse_sound h0 (4 * s.length + 5)).1 _ _ hts (by omega) with
    ⟨m, hm⟩ | ⟨cmd, p, u, r, hm, rfl, h1, hg⟩
  · rw [hm]
    exact .inl ⟨m, rfl⟩
  · have hend := peek_end h1
    simp only [hm, bind, Except.bind]
    by_cases hr : (peek s p "").2 = s.length
    · obtain rfl := hend.mp hr
      obtain ⟨buf, hb, hz⟩ := nulterminate_spec hg.filled (s ++ [0])
      refine .inr ⟨cmd, buf, u ++ [], ?_, hts, by rwa [List.append_nil], hz⟩
      simp only [hr, ne_eq, not_true_eq_false, if_false, hb]
      rfl
    · simp only [hr, ne_eq, not_false_eq_true, if_true]
      exact .inl ⟨_, rfl⟩

lemma parsecmd_complete (h0 : 0 ∉ s) {cmd : Cmd} (hts : Lexes s 0 ts) (hg : Gen .line ts cmd) :
    ∃ buf, parsecmd s = .ok (cmd, buf) := by
  have hlen := hts.length_le
  rw [← List.append_nil ts] at hts
  obtain ⟨p, hp, h1⟩ := parse_complete h0 hg (4 * s.length + 5) _ _ hts (.inl rfl) (by
    simp only [List.append_nil, cost]
    omega)
  obtain ⟨buf, hb, -⟩ := nulterminate_spec hg.filled (s ++ [0])
  refine ⟨buf, ?_⟩
  simp only [parseSym] at hp
  simp only [parsecmd, hp, bind, Except.bind, (peek_end h1).mpr rfl, ne_eq, not_true_eq_false,
    if_false, hb]
  rfl

/-- **The shell's parser.** On every line the parser comes to an end without an index outside of
an array: it panics, or it returns a command. It returns a command exactly if the grammar
generates the tokens of the line, and the command is the tree that the grammar assigns. Each
argument and file of the command is a word of the line, and its string in the terminated
buffer is that word. -/
theorem parser_follows_grammar (s : List UInt8) (h0 : 0 ∉ s) :
    (∀ stop, parsecmd s = .error stop → ∃ m, stop = .panic m) ∧
    (∀ cmd, (∃ buf, parsecmd s = .ok (cmd, buf)) ↔ ∃ ts, Lexes s 0 ts ∧ Gen .line ts cmd) ∧
    ∀ cmd buf, parsecmd s = .ok (cmd, buf) → ∀ x ∈ cmd.strings,
      Token s x.1 x.2 (.word x.1 x.2) ∧ cstr buf x.1 = (s.drop x.1).take (x.2 - x.1) := by
  refine ⟨fun stop hstop => ?_, fun cmd => ⟨?_, ?_⟩, fun cmd buf hb x hx => ?_⟩
  · rcases parsecmd_sound h0 with ⟨m, hm⟩ | ⟨_, _, _, hm, -⟩
    · exact ⟨m, by rw [hm] at hstop; exact (Except.error.inj hstop).symm⟩
    · rw [hm] at hstop
      cases hstop
  · rintro ⟨buf, hb⟩
    rcases parsecmd_sound h0 with ⟨m, hm⟩ | ⟨_, _, ts, hm, hts, hg, -⟩
    · rw [hm] at hb
      cases hb
    · rw [hm] at hb
      cases hb
      exact ⟨ts, hts, hg⟩
  · rintro ⟨ts, hts, hg⟩
    exact parsecmd_complete h0 hts hg
  · rcases parsecmd_sound h0 with ⟨m, hm⟩ | ⟨_, _, ts, hm, hts, hg, hz⟩
    · rw [hm] at hb
      cases hb
    · rw [hm] at hb
      cases hb
      have hwords : ∀ x ∈ cmd.strings, Token s x.1 x.2 (.word x.1 x.2) := fun x hx =>
        hts.token (hg.words hx)
      exact ⟨hwords x hx, cstr_eq h0 hwords hz hx⟩

/-- The line `a>b;c`: a redirection and a list, with all delimiters overwritten. -/
theorem parser_follows_grammar_list :
    parsecmd [97, 62, 98, 59, 99] =
      .ok (.list (.redir (execNode [(0, 1)]) 2 3 0x601 1) (execNode [(4, 5)]),
        [97, 0, 98, 0, 99, 0]) ∧
      ∃ ts, Lexes [97, 62, 98, 59, 99] 0 ts ∧
        Gen .line ts (.list (.redir (execNode [(0, 1)]) 2 3 0x601 1) (execNode [(4, 5)])) := by
  have hrun : parsecmd [97, 62, 98, 59, 99] =
      .ok (.list (.redir (execNode [(0, 1)]) 2 3 0x601 1) (execNode [(4, 5)]),
        [97, 0, 98, 0, 99, 0]) := by decide +kernel
  exact ⟨hrun, ((parser_follows_grammar _ (by decide)).2.1 _).mp ⟨_, hrun⟩⟩

end Xv6.Sh
