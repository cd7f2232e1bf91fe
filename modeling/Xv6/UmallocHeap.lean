import Mathlib.Data.List.Perm.Basic
import Mathlib.Data.List.Perm.Lattice
import Xv6.UmallocModel

/-!
The invariant of the user heap: a ring of free blocks in the order of their addresses, apart
from each other and from the blocks handed out, that together make up the memory obtained.

A block that is about to be freed, by the program or by `morecore`, counts as live until then;
so one lemma about `free` serves both callers.
-/

namespace Xv6.Umalloc

open FreeList Runs

variable {σ : Type} {h : Heap σ} {L live : List Block} {b x y : Block}

lemma header_pos : 0 < HEADER := by decide

def nodes (h : Heap σ) (L : List Block) : List Block := (h.base, 0) :: L

def Inside (regions : List (ℕ × ℕ)) (x : Block) : Prop :=
  ∀ i, Covers HEADER x i → ∃ r ∈ regions, r.1 ≤ i ∧ i < r.1 + r.2

def top (h : Heap σ) : ℕ := h.regions.foldr (fun r t => max (r.1 + r.2) t) (h.base + HEADER)

/-- The heap with the free blocks `L` and the live blocks `live`. -/
structure Inv (h : Heap σ) (L live : List Block) : Prop where
  ring : Seg h.mem h.base (nodes h L) h.base
  freep : ∃ x ∈ nodes h L, x.1 = h.freep
  base_pos : 0 < h.base
  apart : (nodes h L).Pairwise (Apart HEADER)
  pos : ∀ x ∈ L ++ live, 0 < x.2
  inside : ∀ x ∈ L ++ live, Inside h.regions x
  free_live : ∀ x ∈ L, ∀ y ∈ live, Disj HEADER x y
  live_live : live.Pairwise (Disj HEADER)
  sizes : ∀ y ∈ live, (h.mem y.1).size = y.2
  above : ∀ r ∈ h.regions, h.base + HEADER ≤ r.1
  count : HEADER * (total L + total live) = total h.regions

lemma Inv.congr {t : Heap σ} (hi : Inv h L live) (h1 : t.base = h.base) (h2 : t.mem = h.mem)
    (h3 : t.freep = h.freep) (h4 : t.regions = h.regions) : Inv t L live := by
  obtain ⟨base, mem, freep, os, ret, l, regions⟩ := t
  obtain rfl : base = h.base := h1
  obtain rfl : mem = h.mem := h2
  obtain rfl : freep = h.freep := h3
  obtain rfl : regions = h.regions := h4
  exact { hi with }

/-! ### Addresses -/

lemma top_cons {t : Heap σ} {r : ℕ × ℕ} (hb : t.base = h.base)
    (hr : t.regions = r :: h.regions) : top t = max (r.1 + r.2) (top h) := by
  rw [top, hr, List.foldr_cons, top, hb]

lemma top_congr {t : Heap σ} (hb : t.base = h.base) (hr : t.regions = h.regions) :
    top t = top h := by
  rw [top, hr, hb, top]

lemma le_top (h : Heap σ) {r : ℕ × ℕ} (hr : r ∈ h.regions) : r.1 + r.2 ≤ top h := by
  unfold top
  generalize h.regions = l at hr
  induction l with
  | nil => cases hr
  | cons s l ih =>
    rw [List.foldr_cons]
    rcases List.mem_cons.mp hr with rfl | hr
    · exact Nat.le_max_left _ _
    · exact (ih hr).trans (Nat.le_max_right _ _)

lemma base_le_top (h : Heap σ) : h.base + HEADER ≤ top h := by
  unfold top
  induction h.regions with
  | nil => exact le_rfl
  | cons s l ih => exact ih.trans (Nat.le_max_right _ _)

lemma Inside.bounds (hx : Inside h.regions x) (hpos : 0 < x.2)
    (habove : ∀ r ∈ h.regions, h.base + HEADER ≤ r.1) :
    h.base + HEADER ≤ x.1 ∧ stop HEADER x ≤ top h := by
  have hlt := lt_stop (w := HEADER) header_pos hpos
  obtain ⟨r, hr, h1, h2⟩ := hx x.1 ⟨le_rfl, hlt⟩
  obtain ⟨r', hr', h1', h2'⟩ := hx (stop HEADER x - 1) ⟨by omega, by omega⟩
  have := habove r hr
  have := le_top h hr'
  constructor <;> omega

lemma Inv.bounds (hi : Inv h L live) (hx : x ∈ L ++ live) :
    h.base + HEADER ≤ x.1 ∧ stop HEADER x ≤ top h :=
  (hi.inside x hx).bounds (hi.pos x hx) hi.above

lemma Inv.base_lt (hi : Inv h L live) (hx : x ∈ L ++ live) : h.base < x.1 := by
  have := (hi.bounds hx).1
  have := header_pos
  omega

lemma Inv.perm {live' : List Block} (hi : Inv h L live) (hp : live.Perm live') : Inv h L live' := by
  have hmem : ∀ {x}, x ∈ L ++ live' → x ∈ L ++ live := fun {x} hx => by
    rw [List.mem_append] at hx ⊢
    exact hx.imp_right hp.mem_iff.mpr
  refine ⟨hi.ring, hi.freep, hi.base_pos, hi.apart, fun x hx => hi.pos x (hmem hx),
    fun x hx => hi.inside x (hmem hx), fun x hx y hy => hi.free_live x hx y (hp.mem_iff.mpr hy),
    (hp.pairwise_iff fun h => h.symm).mp hi.live_live, fun y hy => hi.sizes y (hp.mem_iff.mpr hy),
    hi.above, ?_⟩
  rw [← hi.count]
  unfold total
  rw [(hp.map _).sum_eq]

lemma Inv.length_le (hi : Inv h L live) : 2 * (nodes h L).length ≤ h.rounds - 2 := by
  have := length_le_total fun x hx => hi.pos x (List.mem_append_left _ hx)
  have := hi.count
  rw [nodes, List.length_cons, Heap.rounds, ← this]
  unfold HEADER
  omega

/-! ### The search of free -/

/-- The free blocks before and behind an address. -/
structure Place (h : Heap σ) (L : List Block) (bp : ℕ) (l₁ : List Block) (x : Block)
    (l₂ : List Block) : Prop where
  eq : nodes h L = l₁ ++ x :: l₂
  before : x.1 < bp
  behind : ∀ y ∈ l₂, bp < y.1

/-- The pointer of a block: to the next one, or from the last one back to the base. -/
lemma Inv.next (hi : Inv h L live) {l₁ l₂ : List Block} (heq : nodes h L = l₁ ++ x :: l₂) :
    (h.mem x.1).ptr = (l₂.head?.map (·.1)).getD h.base := by
  have hseg := hi.ring
  rw [heq] at hseg
  obtain ⟨-, h2⟩ := hseg.split
  cases l₂ with
  | nil => exact h2
  | cons y l₂ => exact h2.1

lemma nodes_cut {l₁ l₂ : List Block} (heq : nodes h L = l₁ ++ x :: l₂) :
    (l₁ = [] ∧ x = (h.base, 0) ∧ l₂ = L) ∨ ∃ l, l₁ = (h.base, 0) :: l ∧ L = l ++ x :: l₂ := by
  cases l₁ with
  | nil =>
    obtain ⟨rfl, rfl⟩ := List.cons.inj heq
    exact .inl ⟨rfl, rfl, rfl⟩
  | cons z l =>
    obtain ⟨rfl, hL⟩ := List.cons.inj heq
    exact .inr ⟨l, rfl, hL⟩

lemma Inv.base_le (hi : Inv h L live) (hx : x ∈ nodes h L) : h.base ≤ x.1 := by
  rcases List.mem_cons.mp hx with rfl | hx
  · exact le_rfl
  · exact (hi.base_lt (List.mem_append_left _ hx)).le

lemma tail_free {l₁ l₂ : List Block} (heq : nodes h L = l₁ ++ x :: l₂) (hy : y ∈ l₂) : y ∈ L := by
  rcases nodes_cut heq with ⟨-, -, rfl⟩ | ⟨l, -, rfl⟩
  · exact hy
  · exact List.mem_append_right _ (List.mem_cons_of_mem _ hy)

lemma Inv.ordered (hi : Inv h L live) {l₁ l₂ : List Block} (heq : nodes h L = l₁ ++ x :: l₂) :
    (∀ z ∈ l₁, Apart HEADER z x) ∧ (∀ y ∈ l₂, Apart HEADER x y) ∧
      ∀ z ∈ l₁, ∀ y ∈ l₂, Apart HEADER z y := by
  have hp := hi.apart
  rw [heq, List.pairwise_append, List.pairwise_cons] at hp
  obtain ⟨-, ⟨h2, -⟩, h3⟩ := hp
  exact ⟨fun z hz => h3 z hz x List.mem_cons_self, h2,
    fun z hz y hy => h3 z hz y (List.mem_cons_of_mem _ hy)⟩

lemma Inv.search_up (hi : Inv h L live) {bp : ℕ} (hb : h.base < bp) (hne : ∀ y ∈ L, y.1 ≠ bp)
    {l₁ l₂ : List Block} (heq : nodes h L = l₁ ++ x :: l₂) (hx : x.1 < bp) {fuel : ℕ}
    (hf : l₂.length < fuel) :
    ∃ l₁' z l₂', Place h L bp l₁' z l₂' ∧ freeSearch h.mem bp fuel x.1 = some z.1 := by
  induction l₂ generalizing l₁ x fuel with
  | nil =>
    obtain _ | fuel := fuel
    · omega
    have hnext : (h.mem x.1).ptr = h.base := hi.next heq
    have hle : h.base ≤ x.1 := hi.base_le (by rw [heq]; simp)
    refine ⟨l₁, x, [], ⟨heq, hx, by simp⟩, ?_⟩
    rw [freeSearch, hnext, if_neg (by omega), if_pos ⟨hle, .inl hx⟩]
  | cons y l₂ ih =>
    obtain _ | fuel := fuel
    · omega
    have hnext : (h.mem x.1).ptr = y.1 := hi.next heq
    have hxy : x.1 < y.1 := ((hi.ordered heq).2.1 y List.mem_cons_self).lt
    have hyne : y.1 ≠ bp := hne y (tail_free heq List.mem_cons_self)
    have heq' : nodes h L = (l₁ ++ [x]) ++ y :: l₂ := by rw [heq]; simp
    rw [freeSearch, hnext]
    by_cases hy : bp < y.1
    · refine ⟨l₁, x, y :: l₂, ⟨heq, hx, fun z hz => ?_⟩, if_pos ⟨hx, hy⟩⟩
      rcases List.mem_cons.mp hz with rfl | hz
      · exact hy
      · exact hy.trans ((hi.ordered heq').2.1 z hz).lt
    · rw [if_neg (by omega), if_neg (by omega)]
      exact ih heq' (by omega) (by simpa using hf)

/-- From any block, the search ends at the place: it may have to pass the end of the ring. -/
lemma Inv.search (hi : Inv h L live) {bp : ℕ} (hb : h.base < bp) (hne : ∀ y ∈ L, y.1 ≠ bp)
    {l₁ l₂ : List Block} (heq : nodes h L = l₁ ++ x :: l₂) {fuel : ℕ}
    (hf : l₂.length + (nodes h L).length < fuel) :
    ∃ l₁' z l₂', Place h L bp l₁' z l₂' ∧ freeSearch h.mem bp fuel x.1 = some z.1 := by
  by_cases hx : x.1 < bp
  · exact hi.search_up hb hne heq hx (by omega)
  · have hxbp : bp < x.1 := by
      rcases nodes_cut heq with ⟨-, rfl, -⟩ | ⟨l, -, hL⟩
      · exact absurd hb hx
      · exact lt_of_le_of_ne (by omega) (hne x (by rw [hL]; simp)).symm
    have hbase := hi.base_le (x := x) (by rw [heq]; simp)
    induction l₂ generalizing l₁ x fuel with
    | nil =>
      obtain _ | fuel := fuel
      · omega
      have hnext : (h.mem x.1).ptr = h.base := hi.next heq
      rw [freeSearch, hnext, if_neg (by omega), if_neg (by omega)]
      refine hi.search_up hb hne (show nodes h L = [] ++ (h.base, 0) :: L from rfl) hb ?_
      simp only [nodes, List.length_cons, List.length_nil] at hf
      omega
    | cons y l₂ ih =>
      obtain _ | fuel := fuel
      · omega
      have hnext : (h.mem x.1).ptr = y.1 := hi.next heq
      have hxy : x.1 < y.1 := ((hi.ordered heq).2.1 y List.mem_cons_self).lt
      have heq' : nodes h L = (l₁ ++ [x]) ++ y :: l₂ := by rw [heq]; simp
      rw [freeSearch, hnext, if_neg (by omega), if_neg (by omega)]
      rw [List.length_cons] at hf
      exact ih heq' (by omega) (by omega) (by omega) (by omega)

/-! ### free -/

lemma Place.insert {l₁ l₂ : List Block} {z : Block} (hp : Place h L b.1 l₁ z l₂) :
    ∃ L', l₁ ++ glue HEADER z (glue HEADER b l₂) = (h.base, 0) :: L' ∧ Grown HEADER L L' b := by
  rcases nodes_cut hp.eq with ⟨rfl, rfl, rfl⟩ | ⟨l, rfl, rfl⟩
  · obtain ⟨n, l', hl, -⟩ := glue_cons HEADER b l₂
    have hne : stop HEADER (h.base, 0) ≠ b.1 := by
      have := hp.before
      unfold stop
      omega
    refine ⟨glue HEADER b l₂, ?_, grown_glue _ _ _⟩
    rw [hl, List.nil_append, glue, if_neg hne]
  · exact ⟨_, rfl, grown_between _ _ _ _ _⟩

lemma Inv.insert_apart (hi : Inv h L (b :: live)) {l₁ l₂ : List Block} {z : Block}
    (hp : Place h L b.1 l₁ z l₂) :
    (l₁ ++ glue HEADER z (glue HEADER b l₂)).Pairwise (Apart HEADER) := by
  obtain ⟨ho1, ho2, ho3⟩ := hi.ordered hp.eq
  have hb : b ∈ L ++ b :: live := by simp
  have hstop : ∀ y ∈ l₂, stop HEADER b ≤ y.1 := by
    intro y hy
    have hyL := tail_free hp.eq hy
    have hlt := hp.behind y hy
    have := lt_stop header_pos (hi.pos y (List.mem_append_left _ hyL))
    rcases hi.free_live y hyL b List.mem_cons_self with hd | hd
    · omega
    · exact hd
  have hz : stop HEADER z ≤ b.1 := by
    have hlt := hp.before
    rcases nodes_cut hp.eq with ⟨-, rfl, -⟩ | ⟨l, -, hL⟩
    · exact hlt.le
    · have := lt_stop header_pos (hi.pos b hb)
      rcases hi.free_live z (by rw [hL]; simp) b List.mem_cons_self with hd | hd
      · exact hd
      · omega
  have hp2 := hi.apart
  rw [hp.eq, List.pairwise_append, List.pairwise_cons] at hp2
  refine List.pairwise_append.mpr ⟨hp2.1, pairwise_glue (pairwise_glue hp2.2.1.2 hstop) ?_, ?_⟩
  · intro y hy
    rcases mem_glue_start hy with hy | hy
    · omega
    · exact (ho2 y hy).le
  · intro x hx y hy
    have hxz := ho1 x hx
    rcases mem_glue_start hy with hy | hy
    · rw [Apart, hy]
      exact hxz
    · rcases mem_glue_start hy with hy | hy
      · have := hp.before
        unfold Apart at hxz ⊢
        omega
      · exact ho3 x hx y hy

lemma Inv.insert_ring (hi : Inv h L (b :: live)) (hB : total L + b.2 < 2 ^ 32)
    {l₁ l₂ : List Block} {z : Block} (hp : Place h L b.1 l₁ z l₂) :
    Seg (attach HEADER (2 ^ 32) (attach HEADER (2 ^ 32) h.mem b.1 (h.mem z.1).ptr) z.1 b.1) h.base
      (l₁ ++ glue HEADER z (glue HEADER b l₂)) h.base := by
  obtain ⟨ho1, ho2, -⟩ := hi.ordered hp.eq
  have hlt := hp.before
  have hbase : h.base < b.1 := hi.base_lt (by simp)
  have hseg := hi.ring
  rw [hp.eq] at hseg
  have hzsize := hseg.size (x := z) (by simp)
  obtain ⟨hs1, hs2⟩ := hseg.split
  have htotal : total l₁ + (z.2 + total l₂) = total L := by
    have := congrArg total hp.eq
    rw [total_append, total_cons, nodes, total_cons] at this
    simpa using this.symm
  have h1 := hs2.attach (w := HEADER) (B := 2 ^ 32) (x := b)
    (fun y hy => (hp.behind y hy).ne') (hi.sizes b List.mem_cons_self)
    (fun _ => by have := le_stop HEADER b; omega) (by omega)
  have h2 := h1.attach (w := HEADER) (B := 2 ^ 32) (x := z) (fun y hy => ?_)
    (by rw [attach_ne (by omega)]; exact hzsize) (fun hnil => ?_) (by rw [total_glue]; omega)
  · refine seg_append.mpr ⟨z.1, hs1.frame fun y hy => ?_, h2⟩
    have := (ho1 y hy).lt
    rw [attach_ne (by omega), attach_ne (by omega)]
  · rcases mem_glue_start hy with hy | hy
    · omega
    · exact (ho2 y hy).lt.ne'
  · obtain ⟨n, l', hl, -⟩ := glue_cons HEADER b l₂
    rw [hl] at hnil
    cases hnil

/-- **What `free` does.** A live block goes back to the free ones, joined with its neighbours. -/
theorem Inv.free (hi : Inv h L (b :: live)) (hB : total L + b.2 < 2 ^ 32) :
    ∃ p mem L', free h (b.1 + HEADER) = some { h with mem := mem, freep := p } ∧
      Inv { h with mem := mem, freep := p } L' live ∧ Grown HEADER L L' b := by
  have hbpos := hi.pos b (by simp)
  have hbase : h.base < b.1 := hi.base_lt (by simp)
  have hne : ∀ y ∈ L, y.1 ≠ b.1 := fun y hy =>
    (hi.free_live y hy b List.mem_cons_self).ne header_pos (hi.pos y (by simp [hy])) hbpos
  obtain ⟨x, hx, hxp⟩ := hi.freep
  obtain ⟨k₁, k₂, hk⟩ := List.append_of_mem hx
  have hlen := hi.length_le
  have hk2 : k₂.length < (nodes h L).length := by
    rw [hk, List.length_append, List.length_cons]
    omega
  have hrounds : 4 ≤ h.rounds := by
    unfold Heap.rounds
    omega
  have hfuel : k₂.length + (nodes h L).length < h.rounds := by omega
  obtain ⟨l₁, z, l₂, hp, hsearch⟩ := hi.search hbase hne hk hfuel
  obtain ⟨L', hL', hg⟩ := hp.insert
  refine ⟨z.1, attach HEADER (2 ^ 32) (attach HEADER (2 ^ 32) h.mem b.1 (h.mem z.1).ptr) z.1 b.1,
    L', ?_, ?_, hg⟩
  · rw [Umalloc.free, Nat.add_sub_cancel, ← hxp, hsearch]
    rfl
  · have hzlive : ∀ y ∈ live, y.1 ≠ z.1 ∧ y.1 ≠ b.1 := by
      intro y hy
      have hypos := hi.pos y (by simp [hy])
      refine ⟨?_, ?_⟩
      · rcases nodes_cut hp.eq with ⟨-, rfl, -⟩ | ⟨l, -, hL⟩
        · exact (hi.base_lt (by simp [hy])).ne'
        · have hzL : z ∈ L := by rw [hL]; simp
          exact ((hi.free_live z hzL y (by simp [hy])).ne header_pos
            (hi.pos z (by simp [hzL])) hypos).symm
      · exact ((List.pairwise_cons.mp hi.live_live).1 y hy |>.ne header_pos hbpos hypos).symm
    have hposL' : ∀ x ∈ L', 0 < x.2 := hg.pos (fun x hx => hi.pos x (by simp [hx])) hbpos
    refine ⟨?_, ?_, hi.base_pos, ?_, ?_, ?_, ?_, (List.pairwise_cons.mp hi.live_live).2, ?_,
      hi.above, ?_⟩
    · change Seg _ h.base ((h.base, 0) :: L') h.base
      rw [← hL']
      exact hi.insert_ring hB hp
    · obtain ⟨n, l', hl, -⟩ := glue_cons HEADER z (glue HEADER b l₂)
      refine ⟨(z.1, n), ?_, rfl⟩
      change _ ∈ (h.base, 0) :: L'
      rw [← hL', hl]
      simp
    · change ((h.base, 0) :: L').Pairwise _
      rw [← hL']
      exact hi.insert_apart hp
    · intro x hx
      rcases List.mem_append.mp hx with hx | hx
      · exact hposL' x hx
      · exact hi.pos x (by simp [hx])
    · intro x hx
      rcases List.mem_append.mp hx with hx | hx
      · intro i hci
        rcases (hg.covers i).mp ⟨x, hx, hci⟩ with ⟨y, hy, hc⟩ | hc
        · exact hi.inside y (by simp [hy]) i hc
        · exact hi.inside b (by simp) i hc
      · exact hi.inside x (by simp [hx])
    · intro x hx y hy
      have hypos := hi.pos y (by simp [hy])
      refine disj_of_covers header_pos (hposL' x hx) hypos fun i hci => ?_
      rcases (hg.covers i).mp ⟨x, hx, hci⟩ with ⟨u, hu, hc⟩ | hc
      · exact (hi.free_live u hu y (by simp [hy])).not_covers hc
      · exact ((List.pairwise_cons.mp hi.live_live).1 y hy).not_covers hc
    · intro y hy
      obtain ⟨h1, h2⟩ := hzlive y hy
      change (attach _ _ (attach _ _ _ _ _) _ _ y.1).size = _
      rw [attach_ne h1, attach_ne h2]
      exact hi.sizes y (by simp [hy])
    · have := hi.count
      rw [total_cons] at this
      change HEADER * _ = total h.regions
      rw [hg.total, ← this, Nat.add_assoc]

end Xv6.Umalloc
