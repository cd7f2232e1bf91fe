import Xv6.UmallocHeap

/-!
What `malloc` does with a heap that satisfies the invariant of `UmallocHeap`.

The search goes once around the ring, from the block behind `freep` to `freep` itself. Either it
finds a block with room, which is carved, or it comes to `freep` and asks the system for more; the
new region is then given to `free` like a block that had been handed out, and the next round finds
room.
-/

namespace Xv6.Umalloc

open Function FreeList

variable {σ : Type} {os : Os σ} {h : Heap σ} {L live : List Block} {x y z : Block} {n : ℕ}

/-! ### Taking a block out of the ring -/

lemma Inv.carve (hi : Inv h L live) {l₁ l₂ r : List Block} (hL : L = l₁ ++ y :: l₂)
    (hc : Carved HEADER y r z) {mem : ℕ → Cell} {p ret : ℕ} {blocks : List Block}
    (hring : Seg mem h.base ((h.base, 0) :: (l₁ ++ (r ++ l₂))) h.base)
    (hp : ∃ x ∈ (h.base, 0) :: (l₁ ++ (r ++ l₂)), x.1 = p)
    (hsizes : ∀ w ∈ z :: live, (mem w.1).size = w.2) :
    Inv { h with mem := mem, freep := p, ret := ret, live := blocks }
      (l₁ ++ (r ++ l₂)) (z :: live) := by
  have hyL : y ∈ L := by rw [hL]; simp
  have hother : ∀ x ∈ l₁ ++ l₂, x ∈ L ∧ Disj HEADER x y := by
    have hap := (List.pairwise_cons.mp hi.apart).2
    rw [hL, List.pairwise_append, List.pairwise_cons] at hap
    intro x hx
    rcases List.mem_append.mp hx with hx | hx
    · exact ⟨by rw [hL]; simp [hx], (hap.2.2 x hx y List.mem_cons_self).disj⟩
    · exact ⟨by rw [hL]; simp [hx], (hap.2.1.1 x hx).disj.symm⟩
  have hstays : ∀ x ∈ r, ∀ i, Covers HEADER x i → Covers HEADER y i := by
    rintro x hx i ⟨h1, h2⟩
    obtain ⟨h3, h4⟩ := hc.stays x hx
    exact ⟨h3 ▸ h1, h2.trans_le h4⟩
  have hmem : ∀ x ∈ l₁ ++ (r ++ l₂), x ∈ r ∨ x ∈ l₁ ++ l₂ := by
    intro x hx
    simp only [List.mem_append] at hx ⊢
    tauto
  refine ⟨hring, hp, hi.base_pos, ?_, ?_, ?_, ?_, ?_, hsizes, hi.above, ?_⟩
  · have hap := hi.apart
    rw [nodes, hL, ← List.cons_append] at hap
    exact hc.pairwise hap
  · intro x hx
    rcases List.mem_append.mp hx with hx | hx
    · rcases hmem x hx with hx | hx
      · exact hc.pos.1 x hx
      · exact hi.pos x (List.mem_append_left _ (hother x hx).1)
    · rcases List.mem_cons.mp hx with rfl | hx
      · exact hc.pos.2
      · exact hi.pos x (List.mem_append_right _ hx)
  · have hy := hi.inside y (List.mem_append_left _ hyL)
    intro x hx
    rcases List.mem_append.mp hx with hx | hx
    · rcases hmem x hx with hx | hx
      · exact fun i hci => hy i (hstays x hx i hci)
      · exact hi.inside x (List.mem_append_left _ (hother x hx).1)
    · rcases List.mem_cons.mp hx with rfl | hx
      · exact fun i hci => hy i (hc.goes i hci)
      · exact hi.inside x (List.mem_append_right _ hx)
  · intro x hx w hw
    rcases hmem x hx with hx | hx <;> rcases List.mem_cons.mp hw with rfl | hw
    · exact hc.disj x hx
    · refine disj_of_covers header_pos (hc.pos.1 x hx) (hi.pos w (by simp [hw])) fun i hci => ?_
      exact (hi.free_live y hyL w hw).not_covers (hstays x hx i hci)
    · have hxpos := hi.pos x (List.mem_append_left _ (hother x hx).1)
      refine disj_of_covers header_pos hxpos hc.pos.2 fun i hci hw => ?_
      exact (hother x hx).2.not_covers hci (hc.goes i hw)
    · exact hi.free_live x (hother x hx).1 w hw
  · refine List.pairwise_cons.mpr ⟨fun w hw => ?_, hi.live_live⟩
    refine disj_of_covers header_pos hc.pos.2 (hi.pos w (by simp [hw])) fun i hci => ?_
    exact (hi.free_live y hyL w hw).not_covers (hc.goes i hci)
  · have h1 := hi.count
    have h2 := hc.total
    rw [hL, total_append, total_cons] at h1
    rw [total_append, total_append, total_cons]
    change HEADER * _ = total h.regions
    rw [← h1]
    congr 1
    omega

lemma Inv.behind (hi : Inv h L live) {q : Block} (hq : q ∈ nodes h L) (hy : y ∈ nodes h L)
    (hpos : 0 < y.2) (hptr : (h.mem q.1).ptr = y.1) :
    ∃ l₁ l₂, nodes h L = l₁ ++ q :: y :: l₂ := by
  obtain ⟨l₁, l₂, heq⟩ := List.append_of_mem hq
  have hyL : y ∈ L := by
    rcases List.mem_cons.mp hy with rfl | hy
    · cases hpos
    · exact hy
  have hring := hi.ring
  have hsize := hring.size hy
  rw [heq] at hring
  obtain ⟨-, hseg⟩ := hring.split
  cases l₂ with
  | nil =>
    have hend : (h.mem q.1).ptr = h.base := hseg
    have := hi.base_lt (List.mem_append_left live hyL)
    omega
  | cons u l₂ =>
    obtain ⟨hu, husize, -⟩ := hseg
    have huy : u = y := Prod.ext (by omega) (by rw [← husize, ← hsize, hptr])
    exact ⟨l₁, l₂, huy ▸ heq⟩

lemma nodes_behind {l₁ l₂ : List Block} {q : Block} (heq : nodes h L = l₁ ++ q :: y :: l₂) :
    ∃ m, L = m ++ y :: l₂ ∧ ∀ l, (h.base, 0) :: (m ++ l) = l₁ ++ q :: l := by
  have hcut : nodes h L = (l₁ ++ [q]) ++ y :: l₂ := by rw [heq, List.append_assoc]; rfl
  rcases nodes_cut hcut with ⟨h0, -⟩ | ⟨m, hm, hL⟩
  · simp at h0
  · refine ⟨m, hL, fun l => ?_⟩
    rw [← List.cons_append, ← hm, List.append_assoc]
    rfl

/-- An exact fit: the block behind `y` becomes the one behind `q`. -/
lemma Inv.take_whole (hi : Inv h L live) {l₁ l₂ : List Block} {q : Block}
    (heq : nodes h L = l₁ ++ q :: y :: l₂) (hy : 0 < y.2) :
    ∃ mem L', take h q.1 y.1 y.2 = { h with
        mem := mem, freep := q.1, ret := y.1 + HEADER, live := y :: h.live } ∧
      Inv { h with mem := mem, freep := q.1, ret := y.1 + HEADER, live := y :: h.live } L'
        (y :: live) := by
  obtain ⟨m, hL, hlist⟩ := nodes_behind heq
  have hring : Seg h.mem h.base (l₁ ++ q :: y :: l₂) h.base := heq ▸ hi.ring
  have hysize := hring.size (x := y) (by simp)
  obtain ⟨ho1, ho2, -⟩ := hi.ordered heq
  refine ⟨update h.mem q.1 { h.mem q.1 with ptr := (h.mem y.1).ptr }, m ++ ([] ++ l₂), ?_,
    hi.carve hL (carved_whole HEADER hy) ?_ ?_ ?_⟩
  · rw [Umalloc.take, if_pos hysize]
  · rw [hlist]
    refine hring.unlink fun x hx => ?_
    rcases List.mem_append.mp hx with hx | hx
    · exact (ho1 x hx).lt.ne
    · exact (ho2 x (List.mem_cons_of_mem _ hx)).lt.ne'
  · exact ⟨q, by rw [hlist]; simp, rfl⟩
  · intro w hw
    have hw2 : (h.mem w.1).size = w.2 := by
      rcases List.mem_cons.mp hw with rfl | hw
      · exact hysize
      · exact hi.sizes w hw
    by_cases hwq : w.1 = q.1
    · rw [hwq, update_self]
      exact hwq ▸ hw2
    · rw [update_of_ne hwq]
      exact hw2

lemma Inv.take_tail (hi : Inv h L live) {l₁ l₂ : List Block} {q : Block} {k : ℕ}
    (heq : nodes h L = l₁ ++ q :: y :: l₂) (hn : 0 < n) (hk : 0 < k) (hkn : k + n = y.2) :
    ∃ mem L', take h q.1 y.1 n = { h with
        mem := mem, freep := q.1, ret := y.1 + HEADER * k + HEADER,
        live := (y.1 + HEADER * k, n) :: h.live } ∧
      Inv { h with
        mem := mem, freep := q.1, ret := y.1 + HEADER * k + HEADER,
        live := (y.1 + HEADER * k, n) :: h.live } L' ((y.1 + HEADER * k, n) :: live) := by
  have hcut : nodes h L = (l₁ ++ [q]) ++ y :: l₂ := by rw [heq, List.append_assoc]; rfl
  obtain ⟨m, hL, hlist⟩ := nodes_behind heq
  have hyL : y ∈ L := by rw [hL]; simp
  have hring : Seg h.mem h.base ((l₁ ++ [q]) ++ y :: l₂) h.base := hcut ▸ hi.ring
  have hysize := hring.size (x := y) (by simp)
  obtain ⟨hb1, hb2, -⟩ := hi.ordered hcut
  have hc := carved_tail HEADER hkn hn hk
  have hzy : y.1 < y.1 + HEADER * k := Nat.lt_add_of_pos_right (Nat.mul_pos header_pos hk)
  have hzstop := hc.goes (y.1 + HEADER * k)
    ⟨le_rfl, lt_stop (x := (y.1 + HEADER * k, n)) header_pos hn⟩
  refine ⟨update (update h.mem y.1 { h.mem y.1 with size := k })
    (y.1 + HEADER * k) { h.mem (y.1 + HEADER * k) with size := n }, m ++ ([(y.1, k)] ++ l₂), ?_,
    hi.carve hL hc ?_ ?_ ?_⟩
  · have hne : ¬ (h.mem y.1).size = n := by omega
    rw [Umalloc.take, if_neg hne, hysize, ← hkn, Nat.add_sub_cancel]
    dsimp only
    rw [update_of_ne hzy.ne']
  · have happ : l₁ ++ q :: ([(y.1, k)] ++ l₂) = (l₁ ++ [q]) ++ (y.1, k) :: l₂ := by simp
    rw [hlist, happ]
    refine hring.resize ?_ fun x hx => ?_
    · rw [update_of_ne hzy.ne, update_self]
    · have hx2 : x.1 < y.1 ∨ stop HEADER y < x.1 := by
        rcases List.mem_append.mp hx with hx | hx
        · exact .inl (hb1 x hx).lt
        · exact .inr (hb2 x hx)
      have := hzstop.2
      rw [update_of_ne (by omega), update_of_ne (by omega)]
  · exact ⟨q, by rw [hlist]; simp, rfl⟩
  · intro w hw
    rcases List.mem_cons.mp hw with rfl | hw
    · rw [update_self]
    · have hwpos := hi.pos w (by simp [hw])
      have hd := hi.free_live y hyL w hw
      have hwy := hd.ne header_pos (by omega) hwpos
      have hwz : w.1 ≠ y.1 + HEADER * k := fun heq =>
        hd.not_covers hzstop (heq ▸ ⟨le_rfl, lt_stop header_pos hwpos⟩)
      rw [update_of_ne hwz, update_of_ne hwy.symm]
      exact hi.sizes w hw

/-- **A block is taken.** It has the size asked for and was part of a free block. -/
lemma Inv.take (hi : Inv h L live) {l₁ l₂ : List Block} {q : Block}
    (heq : nodes h L = l₁ ++ q :: y :: l₂) (hn : 0 < n) (hny : n ≤ y.2) :
    ∃ z mem L', z.2 = n ∧
      take h q.1 y.1 n = { h with
        mem := mem, freep := q.1, ret := z.1 + HEADER, live := z :: h.live } ∧
      Inv { h with mem := mem, freep := q.1, ret := z.1 + HEADER, live := z :: h.live } L'
        (z :: live) := by
  rcases hny.eq_or_lt with rfl | hless
  · obtain ⟨mem, L', htake, hinv⟩ := hi.take_whole heq hn
    exact ⟨y, mem, L', rfl, htake, hinv⟩
  · obtain ⟨mem, L', htake, hinv⟩ := hi.take_tail heq hn (k := y.2 - n) (by omega) (by omega)
    exact ⟨(y.1 + HEADER * (y.2 - n), n), mem, L', rfl, htake, hinv⟩

/-! ### The search -/

lemma Inv.around (hi : Inv h L live) {k₁ k₂ : List Block} (heq : nodes h L = k₁ ++ x :: k₂) :
    Seg h.mem (h.mem x.1).ptr ((k₂ ++ k₁) ++ [x]) (h.mem x.1).ptr := by
  have hring := hi.ring
  have hsize := hring.size (x := x) (by rw [heq]; simp)
  rw [heq] at hring
  obtain ⟨h1, h2⟩ := hring.split
  exact seg_append.mpr ⟨x.1, seg_append.mpr ⟨h.base, h2, h1⟩, rfl, hsize, rfl⟩

/-- The search along blocks `d` that end before `freep`: it finds room, or comes to `freep`. -/
lemma mallocLoop_along (hx : x.1 = h.freep) {d : List Block} {e p prevp : ℕ}
    (hseg : Seg h.mem p (d ++ [x]) e) (hd : ∀ y ∈ d, y.1 ≠ h.freep)
    (hprev : (h.mem prevp).ptr = p) :
    (∃ y ∈ d ++ [x], ∃ q, (q = prevp ∨ ∃ u ∈ d, u.1 = q) ∧ n ≤ y.2 ∧ (h.mem q).ptr = y.1 ∧
      ∀ (os : Os σ) fuel, d.length < fuel →
        mallocLoop os n fuel prevp p h = some (Umalloc.take h q y.1 n)) ∨
    (∀ y ∈ d ++ [x], y.2 < n) ∧ ∀ (os : Os σ) fuel r t, morecore os h n = some (r, t) →
      mallocLoop os n (fuel + d.length + 1) prevp p h = match r with
        | none => some { t with ret := 0 }
        | some p => mallocLoop os n fuel p (t.mem p).ptr t := by
  induction d generalizing p prevp with
  | nil =>
    obtain ⟨rfl, hsize, -⟩ := hseg
    by_cases hn : n ≤ x.2
    · refine .inl ⟨x, by simp, prevp, .inl rfl, hn, hprev, fun os fuel hf => ?_⟩
      obtain ⟨fuel, rfl⟩ := Nat.exists_eq_succ_of_ne_zero (Nat.pos_iff_ne_zero.mp hf)
      rw [mallocLoop, hsize, if_pos hn]
    · refine .inr ⟨by simpa using hn, fun os fuel r t ht => ?_⟩
      rw [List.length_nil, Nat.add_zero, mallocLoop, hsize, if_neg hn, if_pos hx, ht]
      cases r <;> rfl
  | cons u d ih =>
    obtain ⟨rfl, hsize, hseg⟩ := hseg
    by_cases hn : n ≤ u.2
    · refine .inl ⟨u, by simp, prevp, .inl rfl, hn, hprev, fun os fuel hf => ?_⟩
      obtain ⟨fuel, rfl⟩ := Nat.exists_eq_succ_of_ne_zero (Nat.ne_zero_of_lt hf)
      rw [mallocLoop, hsize, if_pos hn]
    · have hne := hd u List.mem_cons_self
      rcases ih hseg (fun y hy => hd y (List.mem_cons_of_mem _ hy)) rfl with
        ⟨y, hy, q, hq, hny, hqy, hrun⟩ | ⟨hsmall, hrun⟩
      · refine .inl ⟨y, List.mem_cons_of_mem _ hy, q, .inr ?_, hny, hqy, fun os fuel hf => ?_⟩
        · rcases hq with rfl | ⟨v, hv, rfl⟩
          · exact ⟨u, List.mem_cons_self, rfl⟩
          · exact ⟨v, List.mem_cons_of_mem _ hv, rfl⟩
        · obtain ⟨fuel, rfl⟩ := Nat.exists_eq_succ_of_ne_zero (Nat.ne_zero_of_lt hf)
          rw [mallocLoop, hsize, if_neg hn, if_neg hne]
          exact hrun os fuel (Nat.lt_of_succ_lt_succ hf)
      · refine .inr ⟨?_, fun os fuel r t ht => ?_⟩
        · intro y hy
          rcases List.mem_cons.mp hy with rfl | hy
          · exact not_le.mp hn
          · exact hsmall y hy
        · rw [List.length_cons, ← Nat.add_assoc, mallocLoop, hsize, if_neg hn, if_neg hne]
          exact hrun os fuel r t ht

/-- **The search of `malloc`.** With enough rounds it takes a block, or it asks for more memory
when every block of the ring is too small. -/
lemma Inv.search_room (hi : Inv h L live) (hn : 0 < n) :
    (∃ z mem q L', z.2 = n ∧
      Inv { h with mem := mem, freep := q, ret := z.1 + HEADER, live := z :: h.live } L'
        (z :: live) ∧
      ∀ (os : Os σ) fuel, L.length < fuel →
        mallocLoop os n fuel h.freep (h.mem h.freep).ptr h = some
          { h with mem := mem, freep := q, ret := z.1 + HEADER, live := z :: h.live }) ∨
    (∀ y ∈ L, y.2 < n) ∧ ∀ (os : Os σ) fuel r t, morecore os h n = some (r, t) →
      mallocLoop os n (fuel + L.length + 1) h.freep (h.mem h.freep).ptr h = match r with
        | none => some { t with ret := 0 }
        | some p => mallocLoop os n fuel p (t.mem p).ptr t := by
  obtain ⟨x, hx, hxp⟩ := hi.freep
  obtain ⟨k₁, k₂, heq⟩ := List.append_of_mem hx
  obtain ⟨ho1, ho2, -⟩ := hi.ordered heq
  have hlen : (k₂ ++ k₁).length = L.length := by
    have := congrArg List.length heq
    rw [nodes, List.length_cons, List.length_append, List.length_cons] at this
    rw [List.length_append]
    omega
  have hmem : ∀ y, y ∈ (k₂ ++ k₁) ++ [x] ↔ y ∈ nodes h L := fun y => by
    rw [heq]
    simp only [List.mem_append, List.mem_cons, List.mem_nil_iff]
    tauto
  have hd : ∀ y ∈ k₂ ++ k₁, y.1 ≠ h.freep := by
    intro y hy
    rw [← hxp]
    rcases List.mem_append.mp hy with hy | hy
    · exact (ho2 y hy).lt.ne'
    · exact (ho1 y hy).lt.ne
  have hseg := hi.around heq
  rw [hxp] at hseg
  rcases mallocLoop_along hxp hseg hd rfl with
    ⟨y, hy, q, hq, hny, hqy, hrun⟩ | ⟨hsmall, hrun⟩
  · obtain ⟨u, hu, rfl⟩ : ∃ u ∈ nodes h L, u.1 = q := by
      rcases hq with rfl | ⟨u, hu, rfl⟩
      · exact ⟨x, hx, hxp⟩
      · exact ⟨u, (hmem u).mp (List.mem_append_left _ hu), rfl⟩
    obtain ⟨l₁, l₂, hl⟩ := hi.behind hu ((hmem y).mp hy) (hn.trans_le hny) hqy
    obtain ⟨z, mem, L', hz, htake, hinv⟩ := hi.take hl hn hny
    refine .inl ⟨z, mem, u.1, L', hz, hinv, fun os fuel hf => ?_⟩
    rw [hrun os fuel (by omega), htake]
  · refine .inr ⟨fun y hy => hsmall y ((hmem y).mpr (List.mem_cons_of_mem _ hy)),
      fun os fuel r t ht => ?_⟩
    rw [← hlen]
    exact hrun os fuel r t ht

/-! ### More memory -/

def extended (h : Heap σ) (a nu : ℕ) (os' : σ) : Heap σ :=
  { h with
    os := os', regions := (a, HEADER * nu) :: h.regions
    mem := update h.mem a { h.mem a with size := nu } }

lemma Inv.obtained (hi : Inv h L live) {a nu : ℕ} (ha : top h ≤ a) (hnu : 0 < nu) (os' : σ) :
    Inv (extended h a nu os') L ((a, nu) :: live) := by
  have hbase := base_le_top h
  have hh := header_pos
  have hbelow : ∀ x ∈ L ++ live, x.1 ≠ a ∧ Disj HEADER x (a, nu) := by
    intro x hx
    have := (hi.bounds hx).2
    have := lt_stop header_pos (hi.pos x hx)
    exact ⟨by omega, .inl (by dsimp only; omega)⟩
  have hmem : ∀ x, x ∈ L ++ (a, nu) :: live ↔ x = (a, nu) ∨ x ∈ L ++ live := fun x => by
    simp only [List.mem_append, List.mem_cons]
    tauto
  refine ⟨hi.ring.frame fun x hx => update_of_ne ?_ _ _, hi.freep, hi.base_pos, hi.apart,
    fun x hx => ?_, fun x hx => ?_, fun x hx w hw => ?_, ?_, fun w hw => ?_, fun r hr => ?_, ?_⟩
  · rcases List.mem_cons.mp hx with rfl | hx
    · dsimp only
      omega
    · exact (hbelow x (List.mem_append_left _ hx)).1
  · rcases (hmem x).mp hx with rfl | hx
    · exact hnu
    · exact hi.pos x hx
  · rcases (hmem x).mp hx with rfl | hx
    · exact fun i hc => ⟨_, List.mem_cons_self, hc.1, hc.2⟩
    · intro i hc
      obtain ⟨r, hr, h1⟩ := hi.inside x hx i hc
      exact ⟨r, List.mem_cons_of_mem _ hr, h1⟩
  · rcases List.mem_cons.mp hw with rfl | hw
    · exact (hbelow x (List.mem_append_left _ hx)).2
    · exact hi.free_live x hx w hw
  · exact List.pairwise_cons.mpr
      ⟨fun w hw => (hbelow w (List.mem_append_right _ hw)).2.symm, hi.live_live⟩
  · rcases List.mem_cons.mp hw with rfl | hw
    · change (update h.mem a { h.mem a with size := nu } a).size = nu
      rw [update_self]
    · change (update h.mem a { h.mem a with size := nu } w.1).size = _
      rw [update_of_ne (hbelow w (List.mem_append_right _ hw)).1]
      exact hi.sizes w hw
  · rcases List.mem_cons.mp hr with rfl | hr
    · exact hbase.trans ha
    · exact hi.above r hr
  · have := hi.count
    change HEADER * _ = total ((a, HEADER * nu) :: h.regions)
    rw [total_cons, total_cons, ← this, ← Nat.mul_add]
    congr 1
    dsimp only
    omega

lemma int_of_lt {m : ℕ} (h : m < 2 ^ 31) : int m = m := by
  unfold int
  rw [Int.bmod_eq_of_le] <;> omega

lemma le_coreUnits (nu : ℕ) : nu ≤ coreUnits nu := by
  unfold coreUnits
  split_ifs <;> omega

/-- **What `morecore` does.** It fails with the ring as it was, or one of the free blocks has room
for the request. -/
lemma Inv.morecore (hi : Inv h L live) (hpos : 0 < n) (hsmall : HEADER * coreUnits n < 2 ^ 31)
    (hs : ∀ a os', os.sbrk h.os (int (coreUnits n * HEADER)) = (some a, os') →
      top h ≤ a ∧ total L + coreUnits n < 2 ^ 32) :
    (∃ os', os.sbrk h.os (int (coreUnits n * HEADER)) = (none, os') ∧
      morecore os h n = some (none, { h with os := os' })) ∨
    ∃ a os' p mem L', os.sbrk h.os (int (coreUnits n * HEADER)) = (some a, os') ∧
      morecore os h n = some (some p, { extended h a (coreUnits n) os' with
        mem := mem, freep := p }) ∧
      Inv { extended h a (coreUnits n) os' with mem := mem, freep := p } L' live ∧
      (∃ y ∈ L', n ≤ y.2) ∧ L'.length ≤ L.length + 1 := by
  have hle := le_coreUnits n
  have hint : int (coreUnits n * HEADER) = (HEADER * coreUnits n : ℕ) := by
    rw [Nat.mul_comm]
    exact int_of_lt hsmall
  rcases hask : os.sbrk h.os (int (coreUnits n * HEADER)) with ⟨_ | a, os'⟩
  · refine .inl ⟨os', rfl, ?_⟩
    simp only [Umalloc.morecore, hask]
  · obtain ⟨habove, hunits⟩ := hs a os' hask
    have hob := hi.obtained habove (hpos.trans_le hle) os'
    obtain ⟨p, mem, L', hfree, hinv, hg⟩ := hob.free hunits
    refine .inr ⟨a, os', p, mem, L', rfl, ?_, hinv, ?_, hg.length⟩
    · have hregion : ({ h with
          os := os', regions := (a, (int (coreUnits n * HEADER)).toNat) :: h.regions
          mem := update h.mem a { h.mem a with size := coreUnits n } } : Heap σ) =
          extended h a (coreUnits n) os' := by
        rw [hint, Int.toNat_natCast]
        rfl
      simp only [Umalloc.morecore, hask]
      rw [hregion, hfree]
      rfl
    · obtain ⟨y, hy, hny⟩ := hg.big
      exact ⟨y, hy, hle.trans hny⟩

end Xv6.Umalloc
