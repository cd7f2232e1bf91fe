import Xv6.BcacheModel

/-!
The structure of the buffer cache: one list of all buffers, one buffer for a block, exact reference
counts, and recycling of the least recently used buffer.
-/

namespace Xv6.BcacheLru

open Function Runs LinkedList BcacheModel

variable {n : ℕ} {s t : State n} {L : List (Fin NBUF)} {p : Fin n} {b : Fin NBUF}

/-- Of two unused buffers, the second was dropped before the first, or never used. -/
def Older (s : State n) (a b : Fin NBUF) : Prop :=
  (s.buf a).refcnt = 0 → (s.buf b).refcnt = 0 → s.dropped b < s.dropped a ∨ s.dropped b = 0

structure Inv (s : State n) (L : List (Fin NBUF)) : Prop where
  nodup : L.Nodup
  all : ∀ b, b ∈ L
  linked : Linked s.links L
  single : ∀ b b', (s.buf b).dev = (s.buf b').dev → (s.buf b).blockno = (s.buf b').blockno →
    b = b' ∨ (s.buf b).dev = 0
  count : ∀ b, (s.buf b).refcnt = reads s b + s.pins b
  order : L.Pairwise (Older s)
  clock : ∀ b, s.dropped b ≤ s.clock

lemma Inv.length (h : Inv s L) : L.length ≤ NBUF := by
  have := h.nodup.length_le_card
  rwa [Fintype.card_fin] at this

/-! ### Start -/

lemma linked_foldl {l : Links (Fin NBUF)} {K L : List (Fin NBUF)} (h : Linked l L)
    (hn : (K.reverse ++ L).Nodup) : Linked (K.foldl pushFront l) (K.reverse ++ L) := by
  induction K generalizing l L with
  | nil => exact h
  | cons a K ih =>
    rw [List.reverse_cons, List.append_assoc, List.singleton_append] at hn ⊢
    exact ih (linked_pushFront h (List.nodup_append.mp hn).2.1) hn

lemma start_inv : Inv (start : State n) (List.finRange NBUF).reverse := by
  refine ⟨?_, fun b => ?_, ?_, fun _ _ _ _ => Or.inr rfl, fun b => ?_, ?_, fun _ => le_rfl⟩
  · exact List.nodup_reverse.mpr (List.nodup_finRange _)
  · exact List.mem_reverse.mpr (List.mem_finRange b)
  · have hn : ((List.finRange NBUF).reverse ++ []).Nodup := by
      rw [List.append_nil]
      exact List.nodup_reverse.mpr (List.nodup_finRange _)
    have := linked_foldl linked_empty hn
    rwa [List.append_nil] at this
  · simp [start, reads, Pc.uses, Buf.held]
  · exact List.pairwise_of_forall fun _ _ _ _ => Or.inr rfl

/-! ### Counting -/

lemma sum_uses (pc : Fin n → Pc) (p : Fin n) (x : Pc) (b : Fin NBUF) :
    ∑ q, (update pc p x q).uses b + (pc p).uses b = ∑ q, (pc q).uses b + x.uses b := by
  have h1 := Finset.add_sum_erase Finset.univ (fun q => (pc q).uses b) (Finset.mem_univ p)
  have h2 := Finset.add_sum_erase Finset.univ (fun q => (update pc p x q).uses b)
    (Finset.mem_univ p)
  have h3 : ∑ q ∈ Finset.univ.erase p, (update pc p x q).uses b =
      ∑ q ∈ Finset.univ.erase p, (pc q).uses b :=
    Finset.sum_congr rfl fun q hq => by rw [update_of_ne (Finset.ne_of_mem_erase hq)]
  simp only [update_self] at h2
  omega

lemma uses_locking (b c : Fin NBUF) : (Pc.locking b).uses c = if c = b then 1 else 0 := by
  simp [Pc.uses, eq_comm]

lemma uses_releasing (b c : Fin NBUF) : (Pc.releasing b).uses c = if c = b then 1 else 0 := by
  simp [Pc.uses, eq_comm]

lemma held_some {x : Buf n} {p : Fin n} (h : x.lock = some p) : x.held = 1 := by simp [Buf.held, h]

lemma held_none {x : Buf n} (h : x.lock = none) : x.held = 0 := by simp [Buf.held, h]

lemma held_congr {x y : Buf n} (h : x.lock = y.lock) : x.held = y.held := by simp only [Buf.held, h]

lemma uses_idle (c : Fin NBUF) : Pc.idle.uses c = 0 := by simp [Pc.uses]

/-! ### Steps that leave the list alone -/

lemma Inv.setBuf (h : Inv s L) {x : Buf n} (hl : t.links = s.links)
    (hb : t.buf = update s.buf b x) (hd : t.dropped = s.dropped) (hc : t.clock = s.clock)
    (hdev : x.dev = (s.buf b).dev ∧ x.blockno = (s.buf b).blockno)
    (href : x.refcnt = 0 → (s.buf b).refcnt = 0)
    (hcount : ∀ c, (t.buf c).refcnt = reads t c + t.pins c) : Inv t L := by
  have hne : ∀ c, c ≠ b → t.buf c = s.buf c := fun c hcb => by rw [hb, update_of_ne hcb]
  have hself : t.buf b = x := by rw [hb, update_self]
  have hid : ∀ c, (t.buf c).dev = (s.buf c).dev ∧ (t.buf c).blockno = (s.buf c).blockno := by
    intro c
    by_cases hcb : c = b
    · subst hcb
      rw [hself]
      exact hdev
    · rw [hne c hcb]
      exact ⟨rfl, rfl⟩
  have hzero : ∀ c, (t.buf c).refcnt = 0 → (s.buf c).refcnt = 0 := by
    intro c
    by_cases hcb : c = b
    · subst hcb
      rw [hself]
      exact href
    · rw [hne c hcb]
      exact id
  refine ⟨h.nodup, h.all, by rw [hl]; exact h.linked, fun c c' => ?_, hcount, ?_, ?_⟩
  · rw [(hid c).1, (hid c').1, (hid c).2, (hid c').2]
    exact h.single c c'
  · refine h.order.imp fun hab ha hb' => ?_
    rw [hd]
    exact hab (hzero _ ha) (hzero _ hb')
  · rw [hd, hc]
    exact h.clock

/-! ### `bget` -/

lemma bget_cases (h : Inv s L) {dev blockno : ℕ} (hs : bget s dev blockno = some (b, t)) :
    ((s.buf b).dev = dev ∧ (s.buf b).blockno = blockno ∧
      t = s.setBuf b { s.buf b with refcnt := (s.buf b).refcnt + 1 }) ∨
    ((∀ c, ¬ ((s.buf c).dev = dev ∧ (s.buf c).blockno = blockno)) ∧
      L.reverse.find? (unused s) = some b ∧
      t = s.setBuf b
        { s.buf b with dev := dev, blockno := blockno, valid := false, refcnt := 1 }) := by
  unfold bget at hs
  rw [scan_forward h.linked _ h.length, scan_backward h.linked _ h.length] at hs
  split at hs
  · rename_i c hc
    cases hs
    have := List.find?_some hc
    simp only [isBlock, decide_eq_true_eq] at this
    exact Or.inl ⟨this.1, this.2, rfl⟩
  · rename_i hnone
    split at hs
    · rename_i c hc
      cases hs
      refine Or.inr ⟨fun d hd => ?_, hc, rfl⟩
      have := List.find?_eq_none.mp hnone d (h.all d)
      simp [isBlock, hd] at this
    · cases hs

/-- The buffer that is recycled: it is unused, and of all unused ones it was dropped first. -/
lemma Inv.oldest (h : Inv s L) (hb : L.reverse.find? (unused s) = some b) :
    (s.buf b).refcnt = 0 ∧
      ∀ c, (s.buf c).refcnt = 0 → c ≠ b → s.dropped b < s.dropped c ∨ s.dropped b = 0 := by
  have h0 : (s.buf b).refcnt = 0 := by simpa [unused] using List.find?_some hb
  refine ⟨h0, fun c hc hne => ?_⟩
  obtain ⟨-, A, B, hAB, hA⟩ := List.find?_eq_some_iff_append.mp hb
  have hrev := List.pairwise_reverse.mpr h.order
  rw [hAB] at hrev
  have hmem : c ∈ A ++ b :: B := by
    rw [← hAB]
    exact List.mem_reverse.mpr (h.all c)
  -- the buffers behind it are all in use
  have hcB : c ∈ B := by
    rcases List.mem_append.mp hmem with h1 | h1
    · have := hA c h1
      simp [unused, hc] at this
    · exact (List.mem_cons.mp h1).resolve_left hne
  exact (List.pairwise_cons.mp (List.pairwise_append.mp hrev).2.1).1 c hcB hc h0

lemma Inv.bget (h : Inv s L) {dev blockno : ℕ} (hp : s.pc p = .idle)
    (hs : bget s dev blockno = some (b, t)) : Inv (t.setPc p (.locking b)) L := by
  have hreads : ∀ c, reads (s.setPc p (.locking b)) c = reads s c + if c = b then 1 else 0 := by
    intro c
    have := sum_uses s.pc p (.locking b) c
    rw [hp, uses_idle, uses_locking] at this
    simp only [reads, State.setPc]
    omega
  rcases bget_cases h hs with ⟨-, -, rfl⟩ | ⟨hmiss, hfind, rfl⟩
  · refine h.setBuf (b := b) (x := { s.buf b with refcnt := (s.buf b).refcnt + 1 }) rfl rfl rfl rfl
      ⟨rfl, rfl⟩ (fun h0 => absurd h0 (Nat.succ_ne_zero _)) fun c => ?_
    have hc := h.count c
    have hr := hreads c
    by_cases hcb : c = b
    · subst hcb
      simp only [State.setPc, State.setBuf, reads, update_self, if_pos] at hr hc ⊢
      rw [held_congr (y := s.buf c) (by rfl)]
      omega
    · simp only [State.setPc, State.setBuf, reads, update_of_ne hcb, if_neg hcb] at hr hc ⊢
      omega
  · obtain ⟨h0, -⟩ := h.oldest hfind
    set x : Buf n := { s.buf b with dev := dev, blockno := blockno, valid := false, refcnt := 1 }
      with hx
    have hself : update s.buf b x b = x := update_self _ _ _
    have hne : ∀ c, c ≠ b → update s.buf b x c = s.buf c := fun c hc =>
      update_of_ne hc _ _
    refine ⟨h.nodup, h.all, h.linked, fun c c' hd hbn => ?_, fun c => ?_, ?_, h.clock⟩
    · simp only [State.setPc, State.setBuf] at hd hbn ⊢
      by_cases hc : c = b <;> by_cases hc' : c' = b
      · exact Or.inl (hc.trans hc'.symm)
      · subst hc
        rw [hself, hne c' hc'] at hd hbn
        exact absurd ⟨hd.symm, hbn.symm⟩ (hmiss c')
      · subst hc'
        rw [hself, hne c hc] at hd hbn
        exact absurd ⟨hd, hbn⟩ (hmiss c)
      · rw [hne c hc, hne c' hc'] at hd hbn
        rw [hne c hc]
        exact h.single c c' hd hbn
    · have hc := h.count c
      have hr := hreads c
      by_cases hcb : c = b
      · subst hcb
        have hh : x.held = (s.buf c).held := held_congr rfl
        have hone : x.refcnt = 1 := rfl
        simp only [State.setPc, State.setBuf, reads, hself, if_pos] at hr hc ⊢
        omega
      · simp only [State.setPc, State.setBuf, reads, hne c hcb, if_neg hcb] at hr hc ⊢
        omega
    · refine h.order.imp fun {c c'} hcc h1 h2 => ?_
      simp only [State.setPc, State.setBuf] at h1 h2 ⊢
      have hc : c ≠ b := by
        rintro rfl
        rw [hself] at h1
        cases h1
      have hc' : c' ≠ b := by
        rintro rfl
        rw [hself] at h2
        cases h2
      rw [hne c hc] at h1
      rw [hne c' hc'] at h2
      exact hcc h1 h2

/-! ### `brelse` -/

lemma Inv.drop (h : Inv s L) (hp : s.pc p = .releasing b) :
    ∃ L', Inv ((drop s b).setPc p .idle) L' := by
  have hsum : ∀ c, ∑ q, (update s.pc p .idle q).uses c + (if c = b then 1 else 0) =
      ∑ q, (s.pc q).uses c := by
    intro c
    have := sum_uses s.pc p .idle c
    rw [hp, uses_idle, uses_releasing] at this
    omega
  have hpos : 1 ≤ (s.buf b).refcnt := by
    have h1 := h.count b
    have h2 := hsum b
    rw [if_pos rfl] at h2
    simp only [reads] at h1
    omega
  set x : Buf n := { s.buf b with refcnt := (s.buf b).refcnt - 1 } with hx
  have hself : update s.buf b x b = x := update_self _ _ _
  have hne : ∀ c, c ≠ b → update s.buf b x c = s.buf c := fun c hc =>
    update_of_ne hc _ _
  have hcount : ∀ c, (update s.buf b x c).refcnt =
      (update s.buf b x c).held +
        ∑ q, (update s.pc p .idle q).uses c + s.pins c := by
    intro c
    have h1 := h.count c
    have h2 := hsum c
    by_cases hcb : c = b
    · subst hcb
      rw [if_pos rfl] at h2
      have hh : x.held = (s.buf c).held := held_congr rfl
      have hr : x.refcnt = (s.buf c).refcnt - 1 := rfl
      rw [hself]
      simp only [reads] at h1
      omega
    · rw [if_neg hcb] at h2
      rw [hne c hcb]
      simp only [reads] at h1
      omega
  unfold BcacheModel.drop
  simp only [State.setBuf, ← hx, hself]
  split_ifs with h0
  · -- the last reference: the buffer goes to the front
    obtain ⟨A, B, hAB⟩ := List.append_of_mem (h.all b)
    have hn := h.nodup
    have hl := h.linked
    have ho := h.order
    rw [hAB] at hn hl ho
    have hperm : (A ++ b :: B).Perm (b :: (A ++ B)) := List.perm_middle
    have hn' : (b :: (A ++ B)).Nodup := hperm.nodup_iff.mp hn
    have hsub : (A ++ B).Sublist (A ++ b :: B) :=
      List.Sublist.append (List.Sublist.refl _) (List.sublist_cons_self _ _)
    have hnb : ∀ c ∈ A ++ B, c ≠ b := by
      rintro c hc rfl
      exact (List.nodup_cons.mp hn').1 hc
    refine ⟨b :: (A ++ B), hn', fun c => hperm.mem_iff.mp (hAB ▸ h.all c),
      linked_pushFront (linked_unlink hl hn) hn', fun c c' => ?_, hcount, ?_, fun c => ?_⟩
    · have hid : ∀ c, (update s.buf b x c).dev = (s.buf c).dev ∧
          (update s.buf b x c).blockno = (s.buf c).blockno := by
        intro c
        by_cases hc : c = b
        · subst hc
          rw [hself]
          exact ⟨rfl, rfl⟩
        · rw [hne c hc]
          exact ⟨rfl, rfl⟩
      simp only [State.setPc]
      rw [(hid c).1, (hid c').1, (hid c).2, (hid c').2]
      exact h.single c c'
    · refine List.pairwise_cons.mpr ⟨fun c hc _ _ => ?_, ?_⟩
      · simp only [State.setPc, update_self, update_of_ne (hnb c hc)]
        exact Or.inl (Nat.lt_succ_of_le (h.clock c))
      · refine (ho.sublist hsub).imp_of_mem fun {c c'} hc hc' hcc h1 h2 => ?_
        simp only [State.setPc, hne c (hnb c hc), hne c' (hnb c' hc')] at h1 h2
        simp only [State.setPc, update_of_ne (hnb c hc),
          update_of_ne (hnb c' hc')]
        exact hcc h1 h2
    · simp only [State.setPc]
      by_cases hc : c = b
      · subst hc
        rw [update_self]
      · rw [update_of_ne hc]
        exact Nat.le_succ_of_le (h.clock c)
  · refine ⟨L, h.setBuf (b := b) (x := x) rfl rfl rfl rfl ⟨rfl, rfl⟩
      (fun hz => absurd hz h0) hcount⟩

/-! ### All steps -/

lemma Inv.step {a : Act n} (h : Inv s L) (hs : step s a = some t) : ∃ L', Inv t L' := by
  cases a with
  | bget p dev blockno =>
    simp only [BcacheModel.step, Option.ite_none_right_eq_some] at hs
    obtain ⟨⟨hp, -⟩, hs⟩ := hs
    obtain ⟨⟨b, u⟩, hb, rfl⟩ := Option.map_eq_some_iff.mp hs
    exact ⟨L, h.bget hp hb⟩
  | lock p =>
    simp only [BcacheModel.step] at hs
    split at hs
    · rename_i b hp
      simp only [Option.ite_none_right_eq_some] at hs
      obtain ⟨hl, hs⟩ := hs
      cases hs
      refine ⟨L, h.setBuf (b := b) (x := { s.buf b with lock := some p, valid := true })
        rfl rfl rfl rfl ⟨rfl, rfl⟩ id fun c => ?_⟩
      have h1 := h.count c
      have h2 := sum_uses s.pc p .idle c
      rw [hp, uses_idle, uses_locking] at h2
      by_cases hcb : c = b
      · subst hcb
        rw [if_pos rfl] at h2
        simp only [reads, held_none hl] at h1
        simp only [State.setPc, State.setBuf, reads, update_self]
        rw [held_some (p := p) rfl]
        omega
      · rw [if_neg hcb] at h2
        simp only [reads] at h1
        simp only [State.setPc, State.setBuf, reads, update_of_ne hcb]
        omega
    · cases hs
  | bwrite p b =>
    simp only [BcacheModel.step, Option.ite_none_right_eq_some, Option.some.injEq] at hs
    obtain ⟨-, rfl⟩ := hs
    exact ⟨L, h⟩
  | brelse p b =>
    simp only [BcacheModel.step, Option.ite_none_right_eq_some, Option.some.injEq] at hs
    obtain ⟨⟨hp, hl⟩, rfl⟩ := hs
    refine ⟨L, h.setBuf (b := b) (x := { s.buf b with lock := none }) rfl rfl rfl rfl ⟨rfl, rfl⟩ id
      fun c => ?_⟩
    have h1 := h.count c
    have h2 := sum_uses s.pc p (.releasing b) c
    rw [hp, uses_idle, uses_releasing] at h2
    by_cases hcb : c = b
    · subst hcb
      rw [if_pos rfl] at h2
      simp only [reads, held_some hl] at h1
      simp only [State.setPc, State.setBuf, reads, update_self]
      rw [held_none rfl]
      omega
    · rw [if_neg hcb] at h2
      simp only [reads] at h1
      simp only [State.setPc, State.setBuf, reads, update_of_ne hcb]
      omega
  | drop p =>
    simp only [BcacheModel.step] at hs
    split at hs
    · rename_i b hp
      cases hs
      exact h.drop hp
    · cases hs
  | bpin b =>
    cases hs
    refine ⟨L, h.setBuf (b := b) (x := { s.buf b with refcnt := (s.buf b).refcnt + 1 })
      rfl rfl rfl rfl ⟨rfl, rfl⟩ (fun h0 => absurd h0 (Nat.succ_ne_zero _)) fun c => ?_⟩
    have h1 := h.count c
    by_cases hcb : c = b
    · subst hcb
      simp only [reads] at h1
      simp only [State.setBuf, reads, update_self]
      rw [held_congr (y := s.buf c) (by rfl)]
      omega
    · simp only [reads] at h1
      simp only [State.setBuf, reads, update_of_ne hcb]
      omega
  | bunpin p b =>
    simp only [BcacheModel.step, Option.ite_none_right_eq_some, Option.some.injEq] at hs
    obtain ⟨⟨-, hl, hpin⟩, rfl⟩ := hs
    have hb := h.count b
    simp only [reads, held_some hl] at hb
    -- the reader has a reference of its own
    refine ⟨L, h.setBuf (b := b) (x := { s.buf b with refcnt := (s.buf b).refcnt - 1 })
      rfl rfl rfl rfl ⟨rfl, rfl⟩ (fun h0 => ?_) fun c => ?_⟩
    · dsimp only at h0
      omega
    · have h1 := h.count c
      by_cases hcb : c = b
      · subst hcb
        simp only [State.setBuf, reads, update_self]
        rw [held_congr (y := s.buf c) (by rfl), held_some hl]
        omega
      · simp only [reads] at h1
        simp only [State.setBuf, reads, update_of_ne hcb]
        omega

lemma reach_inv (h : Reach step Always (· = start) s) : ∃ L, Inv s L :=
  h.invariant (I := fun s => ∃ L, Inv s L)
    (fun _ h0 => ⟨_, by subst h0; exact start_inv⟩) fun _ _ _ hs _ ht => by
      obtain ⟨L, hL⟩ := hs
      exact hL.step ht

/-- A step gives a buffer to another block only if nobody uses it. -/
lemma kept_step {a : Act n} (h : Inv s L) (hs : step s a = some t) (hb : 0 < (s.buf b).refcnt) :
    (t.buf b).dev = (s.buf b).dev ∧ (t.buf b).blockno = (s.buf b).blockno := by
  have key : ∀ (u : State n) (c : Fin NBUF) (x : Buf n), u.buf = update s.buf c x →
      (c = b → x.dev = (s.buf b).dev ∧ x.blockno = (s.buf b).blockno) →
      (u.buf b).dev = (s.buf b).dev ∧ (u.buf b).blockno = (s.buf b).blockno := by
    intro u c x hu hx
    rw [hu]
    by_cases hcb : b = c
    · subst hcb
      rw [update_self]
      exact hx rfl
    · rw [update_of_ne hcb]
      exact ⟨rfl, rfl⟩
  cases a with
  | bget p dev blockno =>
    simp only [BcacheModel.step, Option.ite_none_right_eq_some] at hs
    obtain ⟨-, hs⟩ := hs
    obtain ⟨⟨c, u⟩, hc, rfl⟩ := Option.map_eq_some_iff.mp hs
    rcases bget_cases h hc with ⟨-, -, rfl⟩ | ⟨-, hfind, rfl⟩
    · exact key _ c _ rfl fun hcb => by subst hcb; exact ⟨rfl, rfl⟩
    · refine key _ c _ rfl fun hcb => ?_
      subst hcb
      have := (h.oldest hfind).1
      omega
  | lock p =>
    simp only [BcacheModel.step] at hs
    split at hs
    · rename_i c hp
      simp only [Option.ite_none_right_eq_some] at hs
      obtain ⟨-, hs⟩ := hs
      cases hs
      exact key _ c _ rfl fun hcb => by subst hcb; exact ⟨rfl, rfl⟩
    · cases hs
  | bwrite p c =>
    simp only [BcacheModel.step, Option.ite_none_right_eq_some, Option.some.injEq] at hs
    obtain ⟨-, rfl⟩ := hs
    exact ⟨rfl, rfl⟩
  | brelse p c =>
    simp only [BcacheModel.step, Option.ite_none_right_eq_some, Option.some.injEq] at hs
    obtain ⟨-, rfl⟩ := hs
    exact key _ c _ rfl fun hcb => by subst hcb; exact ⟨rfl, rfl⟩
  | drop p =>
    simp only [BcacheModel.step] at hs
    split at hs
    · rename_i c hp
      cases hs
      refine key _ c { s.buf c with refcnt := (s.buf c).refcnt - 1 } ?_ fun hcb => by
        subst hcb; exact ⟨rfl, rfl⟩
      simp only [State.setPc, BcacheModel.drop]
      split_ifs <;> rfl
    · cases hs
  | bpin c =>
    cases hs
    exact key _ c _ rfl fun hcb => by subst hcb; exact ⟨rfl, rfl⟩
  | bunpin p c =>
    simp only [BcacheModel.step, Option.ite_none_right_eq_some, Option.some.injEq] at hs
    obtain ⟨-, rfl⟩ := hs
    exact key _ c _ rfl fun hcb => by subst hcb; exact ⟨rfl, rfl⟩

/-- **The structure of the buffer cache.** After any calls: the pointers form one circular list of
all buffers; a block has at most one buffer; reference counts are the reads and pins outstanding; no
step recycles a buffer in use; and when `bget` recycles a buffer, this is, of the unused ones, the
one that has been unused for longest, or one that was never used. -/
theorem cache_structure (h : Reach step Always (· = start) s) :
    (∃ L : List (Fin NBUF), L.Nodup ∧ (∀ b, b ∈ L) ∧ Linked s.links L) ∧
    (∀ b b', (s.buf b).dev ≠ 0 → (s.buf b).dev = (s.buf b').dev →
      (s.buf b).blockno = (s.buf b').blockno → b = b') ∧
    (∀ b, (s.buf b).refcnt = reads s b + s.pins b) ∧
    (∀ a t b, step s a = some t → 0 < (s.buf b).refcnt →
      (t.buf b).dev = (s.buf b).dev ∧ (t.buf b).blockno = (s.buf b).blockno) ∧
    (∀ p dev blockno t b, step s (.bget p dev blockno) = some t → t.pc p = .locking b →
      (∀ c, ¬ ((s.buf c).dev = dev ∧ (s.buf c).blockno = blockno)) →
      (s.buf b).refcnt = 0 ∧
        ∀ c, (s.buf c).refcnt = 0 → c ≠ b → s.dropped b < s.dropped c ∨ s.dropped b = 0) := by
  obtain ⟨L, hi⟩ := reach_inv h
  refine ⟨⟨L, hi.nodup, hi.all, hi.linked⟩, fun b b' h0 hd hn => ?_, hi.count,
    fun a t b hs hb => kept_step hi hs hb, fun p dev blockno t b hs hpc hmiss => ?_⟩
  · exact (hi.single b b' hd hn).resolve_right h0
  · simp only [BcacheModel.step, Option.ite_none_right_eq_some] at hs
    obtain ⟨-, hs⟩ := hs
    obtain ⟨⟨c, u⟩, hc, rfl⟩ := Option.map_eq_some_iff.mp hs
    simp only [State.setPc, update_self, Pc.locking.injEq] at hpc
    subst hpc
    rcases bget_cases hi hc with ⟨h1, h2, -⟩ | ⟨-, hfind, -⟩
    · exact absurd ⟨h1, h2⟩ (hmiss c)
    · exact hi.oldest hfind

def buf0 : Fin NBUF := ⟨0, by decide⟩
def buf1 : Fin NBUF := ⟨1, by decide⟩

/-- One process reads a block, pins its buffer, and lets it go; another reads the next block. -/
def twoReads (p q : Fin n) : List (Act n) :=
  [.bget p 1 7, .lock p, .bpin buf0, .brelse p buf0, .drop p, .bget q 1 8]

theorem cache_structure_twoReads : ∃ s : State 2, run step start (twoReads 0 1) = some s ∧
    (s.buf buf0).refcnt = 1 ∧ s.pc 1 = .locking buf1 ∧
    ∀ b, (s.buf b).refcnt = reads s b + s.pins b := by
  refine ⟨_, rfl, by decide +kernel, by decide +kernel, ?_⟩
  exact (cache_structure (Reach.of_run (.init rfl)
    (show run step start (twoReads 0 1) = _ from rfl))).2.2.1

end Xv6.BcacheLru
