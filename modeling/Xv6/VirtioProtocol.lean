import Mathlib.Algebra.BigOperators.Fin
import Xv6.VirtioModel

/-!
The protocol between the disk driver and the device: descriptors belong to one request each, rings
do not lose entries, and a call returns when its own request is complete.
-/

namespace Xv6.VirtioProtocol

open Function Params Runs RingBuffer VirtioModel
open ProcModel (scan scan_some)

variable {n : ℕ} {B : Type} [DecidableEq B] {blockno : B → ℕ} {s t : State n B} {p q : Fin n}
  {c d : Chain B} {i : Idx}

/-! ### Descriptors -/

lemma cast_self (i : Idx) : Fin.ofNat NUM i.val = i := Fin.ext (Nat.mod_eq_of_lt i.isLt)

section Chains

omit [DecidableEq B]

lemma allocDesc_some (h : allocDesc s = some (i, t)) :
    s.free i = true ∧ t = { s with free := update s.free i false } := by
  obtain ⟨j, hj, he⟩ := Option.map_eq_some_iff.mp h
  cases he
  exact ⟨scan_some hj, rfl⟩

lemma freeDesc_used (h : s.free i = false) : freeDesc s i = { s with
    desc := update s.desc i .zero,
    free := update s.free i true } := by
  rw [freeDesc, dif_pos i.isLt, if_neg (by simp [h])]

def mark (free : Idx → Bool) (i0 i1 i2 : Idx) (v : Bool) : Idx → Bool :=
  update (update (update free i0 v) i1 v) i2 v

lemma mark_eq (free : Idx → Bool) (i0 i1 i2 : Idx) (v : Bool) (i : Idx) :
    mark free i0 i1 i2 v i = if i = i0 ∨ i = i1 ∨ i = i2 then v else free i := by
  simp only [mark, update_apply]
  grind

lemma alloc3_some {i0 i1 i2 : Idx} (h : alloc3Desc s = (some (i0, i1, i2), t)) :
    (s.free i0 = true ∧ s.free i1 = true ∧ s.free i2 = true) ∧
    (i0 ≠ i1 ∧ i0 ≠ i2 ∧ i1 ≠ i2) ∧
    t = { s with free := mark s.free i0 i1 i2 false } := by
  unfold alloc3Desc at h
  split at h
  · cases h
  · rename_i j0 s0 h0
    obtain ⟨f0, rfl⟩ := allocDesc_some h0
    split at h
    · cases h
    · rename_i j1 s1 h1
      obtain ⟨f1, rfl⟩ := allocDesc_some h1
      split at h
      · cases h
      · rename_i j2 s2 h2
        obtain ⟨f2, rfl⟩ := allocDesc_some h2
        cases h
        have n01 : i0 ≠ i1 := by
          rintro rfl
          simp at f1
        have n12 : i1 ≠ i2 := by
          rintro rfl
          simp at f2
        have n02 : i0 ≠ i2 := by
          rintro rfl
          simp [update_of_ne n01] at f2
        simp only [update_of_ne n01.symm] at f1
        simp only [update_of_ne n12.symm, update_of_ne n02.symm] at f2
        exact ⟨⟨f0, f1, f2⟩, ⟨n01, n02, n12⟩, rfl⟩

lemma alloc3_none (h : alloc3Desc s = (none, t)) :
    ∃ d, t = { s with desc := d } ∧ ∀ i, s.free i = false → d i = s.desc i := by
  unfold alloc3Desc at h
  split at h
  · cases h
    exact ⟨s.desc, rfl, fun _ _ => rfl⟩
  · rename_i i0 s0 h0
    obtain ⟨f0, rfl⟩ := allocDesc_some h0
    split at h
    · cases h
      rw [freeDesc_used (update_self _ _ _)]
      refine ⟨update s.desc i0 .zero, ?_, fun i hi => update_of_ne ?_ _ _⟩
      · simp only [update_idem]
        rw [← f0, update_eq_self]
      · rintro rfl
        rw [f0] at hi
        cases hi
    · rename_i i1 s1 h1
      obtain ⟨f1, rfl⟩ := allocDesc_some h1
      have n01 : i1 ≠ i0 := by
        rintro rfl
        simp at f1
      simp only [update_of_ne n01] at f1
      split at h
      · cases h
        rw [freeDesc_used (i := i0) (by simp [update_of_ne n01.symm]),
          freeDesc_used (i := i1) (by simp [update_of_ne n01])]
        refine ⟨update (update s.desc i0 .zero) i1 .zero, ?_, fun i hi => ?_⟩
        · dsimp only
          rw [update_comm n01.symm, update_idem, update_comm n01,
            update_idem]
          have e0 := update_eq_self i0 s.free
          have e1 := update_eq_self i1 s.free
          rw [f0] at e0
          rw [f1] at e1
          rw [e0, e1]
        · have e0 : i ≠ i0 := by
            rintro rfl
            rw [f0] at hi
            cases hi
          have e1 : i ≠ i1 := by
            rintro rfl
            rw [f1] at hi
            cases hi
          rw [update_of_ne e1, update_of_ne e0]
      · cases h

/-! ### The invariant -/

structure ChainOk (blockno : B → ℕ) (s : State n B) (c : Chain B) : Prop where
  apart : c.i0 ≠ c.i1 ∧ c.i0 ≠ c.i2 ∧ c.i1 ≠ c.i2
  d0 : s.desc c.i0 = ⟨.op c.i0, 16, false, true, c.i1⟩
  d1 : s.desc c.i1 = ⟨.data c.b, BSIZE, !c.write, true, c.i2⟩
  d2 : s.desc c.i2 = ⟨.status c.i0, 1, true, false, 0⟩
  info : (s.info c.i0).b = some c.b
  op : s.ops c.i0 = request blockno c
  tag : s.tag c.i0 = c.serial

/-- The heads of the chains that are in the rings or with the device. -/
def flight (s : State n B) : List Idx := contents s.avail ++ s.taken ++ contents s.used

def doneOf (blockno : B → ℕ) (c : Chain B) : Done B := ⟨c.serial, c.b, request blockno c⟩

structure Inv (blockno : B → ℕ) (s : State n B) : Prop where
  chain : ∀ p c, s.pc p = .waiting c → ChainOk blockno s c
  apart : ∀ p q c d, s.pc p = .waiting c → s.pc q = .waiting d → p ≠ q → c.idx.Disjoint d.idx
  used : ∀ i, s.free i = false ↔ ∃ p c, s.pc p = .waiting c ∧ i ∈ c.idx
  bufs : ∀ p q b, p ≠ q → (s.pc p).buf = some b → (s.pc q).buf ≠ some b
  nodup : (flight s).Nodup
  heads : ∀ i ∈ flight s, ∃ p c, s.pc p = .waiting c ∧ c.i0 = i ∧ s.disk c.b = true
  pending : ∀ p c, s.pc p = .waiting c → s.disk c.b = true → c.i0 ∈ flight s
  status : ∀ i ∈ contents s.used, (s.info i).status = 0
  done : ∀ p c, s.pc p = .waiting c → s.disk c.b = false ∨ c.i0 ∈ contents s.used →
    doneOf blockno c ∈ s.completed
  calm : s.panicked = false

lemma start_inv : Inv blockno (start : State n B) := by
  have hempty : ∀ r : Ring Idx 16 NUM, r.nread = r.nwrite → contents r = [] := by
    intro r hr
    rw [contents, used_eq_zero.mpr hr]
    rfl
  have hfl : flight (start : State n B) = [] := by
    rw [flight, hempty _ rfl, hempty _ rfl]
    rfl
  have hno : ∀ p c, (start : State n B).pc p ≠ .waiting c := by simp [start]
  refine ⟨fun p c h => absurd h (hno p c), fun p q c d h => absurd h (hno p c), fun i => ?_,
    fun p q b _ h => ?_, ?_, fun i h => ?_, fun p c h => absurd h (hno p c), fun i h => ?_,
    fun p c h => absurd h (hno p c), rfl⟩
  · constructor
    · intro h
      cases h
    · rintro ⟨p, c, h, -⟩
      exact absurd h (hno p c)
  · cases h
  · rw [hfl]
    exact List.nodup_nil
  · rw [hfl] at h
    cases h
  · rw [hempty _ rfl] at h
    cases h

lemma Inv.same (h : Inv blockno s) (hp : s.pc p = .waiting c) (hq : s.pc q = .waiting d)
    (hi : c.i0 = d.i0) : p = q ∧ c = d := by
  have hpq : p = q := by
    by_contra hne
    exact h.apart p q c d hp hq hne (List.mem_cons_self ..)
      (by rw [hi]; exact List.mem_cons_self ..)
  subst hpq
  rw [hp] at hq
  cases hq
  exact ⟨rfl, rfl⟩

lemma Inv.flight_used (h : Inv blockno s) (hi : i ∈ flight s) : s.free i = false := by
  obtain ⟨p, c, hp, rfl, -⟩ := h.heads i hi
  exact (h.used _).mpr ⟨p, c, hp, List.mem_cons_self ..⟩

lemma Inv.buf_ne (h : Inv blockno s) (hpq : p ≠ q) (hp : s.pc p = .waiting c)
    (hq : s.pc q = .waiting d) : c.b ≠ d.b := by
  intro he
  refine h.bufs p q c.b hpq (by rw [hp]; rfl) ?_
  rw [hq, he]
  rfl

lemma room {r : Ring Idx 16 NUM} (hn : (contents r).Nodup) (hi : i ∉ contents r) :
    RingBuffer.used r < NUM := by
  have hlen := (List.nodup_cons.mpr ⟨hi, hn⟩).length_le_card
  rw [Fintype.card_fin, List.length_cons, contents, List.length_map, List.length_range] at hlen
  exact hlen

lemma NUM_lt : NUM < 2 ^ 16 := by decide

lemma NUM_dvd : NUM ∣ 2 ^ 16 := by decide

lemma Inv.nodup_avail (h : Inv blockno s) : (contents s.avail).Nodup :=
  (List.nodup_append.mp (List.nodup_append.mp h.nodup).1).1

lemma Inv.nodup_used (h : Inv blockno s) : (contents s.used).Nodup :=
  (List.nodup_append.mp h.nodup).2.1

lemma mem_flight : i ∈ flight s ↔ i ∈ contents s.avail ∨ i ∈ s.taken ∨ i ∈ contents s.used := by
  rw [flight, List.mem_append, List.mem_append, or_assoc]

lemma mem_idx : i ∈ c.idx ↔ i = c.i0 ∨ i = c.i1 ∨ i = c.i2 := by
  simp [Chain.idx]

lemma Inv.push_avail (h : Inv blockno s) (hi : s.free i = true) :
    contents (push s.avail i) = contents s.avail ++ [i] := by
  refine contents_push NUM_dvd NUM_lt (room (i := i) h.nodup_avail fun hm => ?_) _
  have hf := h.flight_used (mem_flight.mpr (Or.inl hm))
  rw [hi] at hf
  cases hf

lemma update_idx {β : Type} {f : Idx → β} {x y z : β} (hi : i ∉ c.idx) :
    update (update (update f c.i0 x) c.i1 y) c.i2 z i = f i := by
  have hne := mt mem_idx.mpr hi
  rw [not_or, not_or] at hne
  rw [update_of_ne hne.2.2, update_of_ne hne.2.1, update_of_ne hne.1]

lemma ChainOk.congr (h : ChainOk blockno s c) (hd : ∀ i ∈ c.idx, t.desc i = s.desc i)
    (hinfo : (t.info c.i0).b = (s.info c.i0).b) (hop : t.ops c.i0 = s.ops c.i0)
    (htag : t.tag c.i0 = s.tag c.i0) : ChainOk blockno t c :=
  ⟨h.apart, (hd _ (by simp [Chain.idx])).trans h.d0, (hd _ (by simp [Chain.idx])).trans h.d1,
    (hd _ (by simp [Chain.idx])).trans h.d2, hinfo.trans h.info, hop.trans h.op, htag.trans h.tag⟩

lemma Inv.bufs_update (h : Inv blockno s) {x : Pc B}
    (hx : ∀ b, x.buf = some b → ∀ q, q ≠ p → (s.pc q).buf ≠ some b) (q r : Fin n) (b : B)
    (hqr : q ≠ r) (hq : (update s.pc p x q).buf = some b) :
    (update s.pc p x r).buf ≠ some b := by
  intro hr
  rw [update_apply] at hq hr
  split_ifs at hq hr with e1 e2 e2
  · exact hqr (e1.trans e2.symm)
  · exact hx b hq r e2 hr
  · exact hx b hr q e1 hq
  · exact h.bufs q r b hqr hq hr

/-! ### Submitting -/

/-- The attempt fails: free descriptors are cleared, and the process sleeps. -/
lemma Inv.starve (h : Inv blockno s) {ds : Idx → Desc B} {b : B} {write : Bool}
    (hd : ∀ i, s.free i = false → ds i = s.desc i)
    (hp : ∀ c, s.pc p ≠ .waiting c) (hb : ∀ q, q ≠ p → (s.pc q).buf ≠ some b) :
    Inv blockno (State.setPc { s with desc := ds } p (.allocating b write)) := by
  have hw : ∀ q c, update s.pc p (.allocating b write) q = .waiting c ↔
      s.pc q = .waiting c := by
    intro q c
    by_cases e : q = p
    · subst e
      rw [update_self]
      constructor
      · intro hx
        cases hx
      · exact fun hx => absurd hx (hp c)
    · rw [update_of_ne e]
  simp only [State.setPc]
  refine ⟨fun q c hq => ?_, fun q r c d hq hr => ?_, fun i => ?_, h.bufs_update ?_, h.nodup,
    fun i hi => ?_, fun q c hq => ?_, h.status, fun q c hq => ?_, h.calm⟩
  · have hq' := (hw q c).mp hq
    exact (h.chain q c hq').congr (fun i hi => hd i ((h.used i).mpr ⟨q, c, hq', hi⟩)) rfl rfl rfl
  · exact h.apart q r c d ((hw q c).mp hq) ((hw r d).mp hr)
  · simp only [hw]
    exact h.used i
  · rintro b' ⟨⟩
    exact hb
  · simp only [hw]
    exact h.heads i hi
  · exact h.pending q c ((hw q c).mp hq)
  · exact h.done q c ((hw q c).mp hq)

end Chains

lemma Inv.submit (h : Inv blockno s)
    (hfree : s.free c.i0 = true ∧ s.free c.i1 = true ∧ s.free c.i2 = true)
    (hne : c.i0 ≠ c.i1 ∧ c.i0 ≠ c.i2 ∧ c.i1 ≠ c.i2)
    (hp : ∀ d, s.pc p ≠ .waiting d) (hb : ∀ q, q ≠ p → (s.pc q).buf ≠ some c.b) :
    Inv blockno (submit blockno { s with free := mark s.free c.i0 c.i1 c.i2 false } p c) := by
  have hused : ∀ i, s.free i = false → i ∉ c.idx := by
    intro i hi hm
    rcases mem_idx.mp hm with rfl | rfl | rfl
    · rw [hfree.1] at hi
      cases hi
    · rw [hfree.2.1] at hi
      cases hi
    · rw [hfree.2.2] at hi
      cases hi
  have h0 : c.i0 ∈ c.idx := List.mem_cons_self ..
  have hfl : c.i0 ∉ flight s := fun hm => hused _ (h.flight_used hm) h0
  have hav := h.push_avail hfree.1
  have hother : ∀ q d, q ≠ p → s.pc q = .waiting d → (∀ i ∈ d.idx, i ∉ c.idx) ∧ d.b ≠ c.b := by
    intro q d hqp hq
    refine ⟨fun i hi => hused i ((h.used i).mpr ⟨q, d, hq, hi⟩), fun he => hb q hqp ?_⟩
    rw [hq, ← he]
    rfl
  -- the processes that wait are those that did, and this one
  have hw : ∀ q d, update s.pc p (.waiting c) q = .waiting d ↔
      (q = p ∧ d = c) ∨ (q ≠ p ∧ s.pc q = .waiting d) := by
    intro q d
    by_cases e : q = p
    · subst e
      rw [update_self]
      simp [eq_comm]
    · rw [update_of_ne e]
      simp [e]
  have hmem : ∀ i, i ∈ flight (VirtioModel.submit blockno
      { s with free := mark s.free c.i0 c.i1 c.i2 false } p c) ↔ i = c.i0 ∨ i ∈ flight s := by
    intro i
    rw [mem_flight, mem_flight]
    simp only [VirtioModel.submit, hav, List.mem_append, List.mem_singleton]
    tauto
  refine ⟨fun q d hq => ?_, fun q r d d' hq hr hqr => ?_, fun i => ?_,
    h.bufs_update ?_, ?_,
    fun i hi => ?_, fun q d hq hd => ?_, fun i hi => ?_, fun q d hq hd => ?_, h.calm⟩
  · rcases (hw q d).mp hq with ⟨rfl, rfl⟩ | ⟨hqp, hq⟩
    · refine ⟨hne, ?_, ?_, ?_, ?_, ?_, ?_⟩
      · simp [VirtioModel.submit, update_of_ne hne.1, update_of_ne hne.2.1]
      · simp [VirtioModel.submit, update_of_ne hne.2.2]
      all_goals simp [VirtioModel.submit]
    · obtain ⟨hdis, -⟩ := hother q d hqp hq
      have hd0 : d.i0 ≠ c.i0 := fun e => hdis d.i0 (List.mem_cons_self ..) (e ▸ h0)
      refine (h.chain q d hq).congr (fun i hi => update_idx (hdis i hi)) ?_ ?_ ?_
      all_goals simp only [VirtioModel.submit, update_of_ne hd0]
  · rcases (hw q d).mp hq with ⟨rfl, rfl⟩ | ⟨hqp, hq⟩ <;>
      rcases (hw r d').mp hr with ⟨e, e'⟩ | ⟨hrp, hr⟩
    · exact absurd e.symm hqr
    · exact fun i hi hi' => (hother r d' hrp hr).1 i hi' hi
    · exact fun i hi hi' => (hother q d hqp hq).1 i hi (e' ▸ hi')
    · exact h.apart q r d d' hq hr hqr
  · have hfr : mark s.free c.i0 c.i1 c.i2 false i = false ↔ i ∈ c.idx ∨ s.free i = false := by
      rw [mark_eq, mem_idx]
      split_ifs with hi <;> simp [hi]
    show mark s.free c.i0 c.i1 c.i2 false i = false ↔
      ∃ q d, update s.pc p (.waiting c) q = .waiting d ∧ i ∈ d.idx
    rw [hfr, h.used]
    constructor
    · rintro (hi | ⟨q, d, hq, hi⟩)
      · exact ⟨p, c, update_self _ _ _, hi⟩
      · have hqp : q ≠ p := by
          rintro rfl
          exact hp d hq
        exact ⟨q, d, (hw q d).mpr (Or.inr ⟨hqp, hq⟩), hi⟩
    · rintro ⟨q, d, hq, hi⟩
      rcases (hw q d).mp hq with ⟨rfl, rfl⟩ | ⟨-, hq⟩
      · exact Or.inl hi
      · exact Or.inr ⟨q, d, hq, hi⟩
  · rintro b ⟨⟩
    exact hb
  · have hperm : (flight (VirtioModel.submit blockno
        { s with free := mark s.free c.i0 c.i1 c.i2 false } p c)).Perm (c.i0 :: flight s) := by
      simp only [flight, VirtioModel.submit, hav, List.append_assoc, List.singleton_append]
      exact List.perm_middle
    exact hperm.nodup_iff.mpr (List.nodup_cons.mpr ⟨hfl, h.nodup⟩)
  · rcases (hmem i).mp hi with rfl | hi
    · exact ⟨p, c, update_self _ _ _, rfl, update_self _ _ _⟩
    · obtain ⟨q, d, hq, hd, hdisk⟩ := h.heads i hi
      have hqp : q ≠ p := by
        rintro rfl
        exact hp d hq
      refine ⟨q, d, (hw q d).mpr (Or.inr ⟨hqp, hq⟩), hd, ?_⟩
      simpa only [VirtioModel.submit, update_of_ne (hother q d hqp hq).2] using hdisk
  · refine (hmem d.i0).mpr ?_
    rcases (hw q d).mp hq with ⟨rfl, rfl⟩ | ⟨hqp, hq⟩
    · exact Or.inl rfl
    · simp only [VirtioModel.submit, update_of_ne (hother q d hqp hq).2] at hd
      exact Or.inr (h.pending q d hq hd)
  · have hi0 : i ≠ c.i0 := by
      rintro rfl
      exact hfl (mem_flight.mpr (Or.inr (Or.inr hi)))
    simpa only [VirtioModel.submit, update_of_ne hi0] using h.status i hi
  · rcases (hw q d).mp hq with ⟨rfl, rfl⟩ | ⟨hqp, hq⟩
    · rcases hd with hd | hd
      · simp [VirtioModel.submit] at hd
      · exact absurd (mem_flight.mpr (Or.inr (Or.inr hd)) : _ ∈ flight s) hfl
    · refine h.done q d hq (hd.imp (fun hd => ?_) id)
      simpa only [VirtioModel.submit, update_of_ne (hother q d hqp hq).2] using hd

lemma Inv.rw (h : Inv blockno s) {b : B} {write : Bool} (hp : ∀ d, s.pc p ≠ .waiting d)
    (hb : ∀ q, q ≠ p → (s.pc q).buf ≠ some b) : Inv blockno (virtioDiskRw blockno s p b write) := by
  unfold virtioDiskRw
  split
  · rename_i u hu
    obtain ⟨ds, rfl, hd⟩ := alloc3_none hu
    exact h.starve hd hp hb
  · rename_i i0 i1 i2 u hu
    obtain ⟨hf, hne, rfl⟩ := alloc3_some hu
    exact h.submit (c := ⟨i0, i1, i2, b, write, s.serial⟩) hf hne hp hb

/-! ### Returning -/

section Freed

omit [DecidableEq B]

lemma freeChain_more {k l j : ℕ} {a : Addr B} {w : Bool} (hf : s.free i = false)
    (hd : s.desc i = ⟨a, l, w, true, j⟩) : freeChain (k + 1) s i = freeChain k { s with
      desc := update s.desc i .zero,
      free := update s.free i true } j := by
  rw [freeChain, cast_self, freeDesc_used hf, hd]
  rfl

lemma freeChain_last {k l j : ℕ} {a : Addr B} {w : Bool} (hf : s.free i = false)
    (hd : s.desc i = ⟨a, l, w, false, j⟩) : freeChain (k + 1) s i = { s with
      desc := update s.desc i .zero,
      free := update s.free i true } := by
  rw [freeChain, cast_self, freeDesc_used hf, hd]
  rfl

lemma freeChain_chain (hc : ChainOk blockno s c) (hfree : ∀ i ∈ c.idx, s.free i = false)
    {f : Idx → Info B} : freeChain NUM { s with info := f } c.i0 = { s with
      info := f,
      desc := update (update (update s.desc c.i0 .zero) c.i1 .zero)
        c.i2 .zero,
      free := mark s.free c.i0 c.i1 c.i2 true } := by
  obtain ⟨n01, n02, n12⟩ := hc.apart
  have f0 := hfree c.i0 (by simp [Chain.idx])
  have f1 := hfree c.i1 (by simp [Chain.idx])
  have f2 := hfree c.i2 (by simp [Chain.idx])
  show freeChain (5 + 1 + 1 + 1) _ _ = _
  rw [freeChain_more (s := { s with info := f }) f0 hc.d0,
    freeChain_more (a := .data c.b) (l := BSIZE)
    (w := !c.write) (j := c.i2.val), freeChain_last (a := .status c.i0) (l := 1)
      (w := true) (j := 0)]
  · rfl
  · simpa [update_of_ne n02.symm, update_of_ne n12.symm] using f2
  · simpa [update_of_ne n02.symm, update_of_ne n12.symm] using hc.d2
  · simpa [update_of_ne n01.symm] using f1
  · simpa [update_of_ne n01.symm] using hc.d1

lemma Inv.finish (h : Inv blockno s) (hp : s.pc p = .waiting c) : Inv blockno (finish s p c) := by
  unfold VirtioModel.finish
  split_ifs with hdisk
  · exact h
  have hdisk' : s.disk c.b = false := by simpa using hdisk
  have hc := h.chain p c hp
  have hfree : ∀ i ∈ c.idx, s.free i = false := fun i hi => (h.used i).mpr ⟨p, c, hp, hi⟩
  dsimp only
  rw [freeChain_chain hc hfree]
  have hw : ∀ q d, update s.pc p .idle q = .waiting d ↔ q ≠ p ∧ s.pc q = .waiting d := by
    intro q d
    by_cases e : q = p
    · subst e
      simp
    · rw [update_of_ne e]
      simp [e]
  simp only [State.setPc]
  refine ⟨fun q d hq => ?_, fun q r d d' hq hr => ?_, fun i => ?_,
    h.bufs_update fun b hb => (nomatch hb), h.nodup,
    fun i hi => ?_, fun q d hq => ?_, fun i hi => ?_, fun q d hq => ?_, h.calm⟩
  · obtain ⟨hqp, hq⟩ := (hw q d).mp hq
    have hdis := h.apart q p d c hq hp hqp
    refine (h.chain q d hq).congr (fun i hi => update_idx (hdis hi)) ?_ rfl rfl
    have hd0 : d.i0 ≠ c.i0 := fun e => hdis (List.mem_cons_self ..) (mem_idx.mpr (.inl e))
    simp only [update_of_ne hd0]
  · exact h.apart q r d d' ((hw q d).mp hq).2 ((hw r d').mp hr).2
  · have hfr : mark s.free c.i0 c.i1 c.i2 true i = false ↔ i ∉ c.idx ∧ s.free i = false := by
      rw [mark_eq, mem_idx]
      split_ifs with hi <;> simp [hi]
    show mark s.free c.i0 c.i1 c.i2 true i = false ↔
      ∃ q d, update s.pc p .idle q = .waiting d ∧ i ∈ d.idx
    rw [hfr, h.used]
    constructor
    · rintro ⟨hi, q, d, hq, hid⟩
      have hqp : q ≠ p := by
        rintro rfl
        rw [hp] at hq
        cases hq
        exact hi hid
      exact ⟨q, d, (hw q d).mpr ⟨hqp, hq⟩, hid⟩
    · rintro ⟨q, d, hq, hid⟩
      obtain ⟨hqp, hq⟩ := (hw q d).mp hq
      exact ⟨h.apart q p d c hq hp hqp hid, q, d, hq, hid⟩
  · obtain ⟨q, d, hq, hd, hdb⟩ := h.heads i hi
    have hqp : q ≠ p := by
      rintro rfl
      rw [hp] at hq
      cases hq
      rw [hdisk'] at hdb
      cases hdb
    exact ⟨q, d, (hw q d).mpr ⟨hqp, hq⟩, hd, hdb⟩
  · exact h.pending q d ((hw q d).mp hq).2
  · dsimp only
    by_cases e : i = c.i0
    · subst e
      rw [update_self]
      exact h.status _ hi
    · rw [update_of_ne e]
      exact h.status i hi
  · exact h.done q d ((hw q d).mp hq).2

end Freed

/-! ### The device and its interrupts -/

lemma Inv.intr_eq (h : Inv blockno s) (hne : s.used.nread ≠ s.used.nwrite) :
    ∃ p c, s.pc p = .waiting c ∧ c.i0 = front s.used ∧ virtioDiskIntr s =
      { s with disk := update s.disk c.b false, used := pop s.used } := by
  have hmem : front s.used ∈ contents s.used := by
    rw [contents_pop NUM_dvd (mt used_eq_zero.mp hne)]
    exact List.mem_cons_self ..
  obtain ⟨p, c, hp, hi0, -⟩ := h.heads _ (mem_flight.mpr (Or.inr (Or.inr hmem)))
  have hinfo := (h.chain p c hp).info
  rw [hi0] at hinfo
  refine ⟨p, c, hp, hi0, ?_⟩
  unfold virtioDiskIntr
  dsimp only
  rw [if_neg (by rw [h.status _ hmem]; simp), hinfo]

lemma Inv.intr (h : Inv blockno s) (hne : s.used.nread ≠ s.used.nwrite) :
    Inv blockno (virtioDiskIntr s) := by
  have hcont := contents_pop NUM_dvd (mt used_eq_zero.mp hne)
  obtain ⟨p, c, hp, hi0, heq⟩ := h.intr_eq hne
  have hnd := h.nodup
  rw [flight, hcont] at hnd
  have hid : front s.used ∉ contents s.avail ++ s.taken ++ contents (pop s.used) :=
    (List.nodup_cons.mp (List.perm_middle.nodup_iff.mp hnd)).1
  -- the other calls are about other buffers
  have hother : ∀ q d, s.pc q = .waiting d → d.i0 ≠ front s.used → d.b ≠ c.b := by
    intro q d hq hdi hdb
    have hqp : q ≠ p := by
      rintro rfl
      rw [hp] at hq
      cases hq
      exact hdi hi0
    exact h.buf_ne hqp hq hp hdb
  rw [heq]
  refine ⟨fun q d hq => { h.chain q d hq with }, h.apart, h.used, h.bufs, ?_, fun i hi => ?_,
    fun q d hq hd => ?_, fun i hi => ?_, fun q d hq hd => ?_, h.calm⟩
  · exact (List.nodup_cons.mp (List.perm_middle.nodup_iff.mp hnd)).2
  · have hi' : i ∈ flight s := by
      rw [flight, hcont]
      exact List.perm_middle.mem_iff.mpr (List.mem_cons_of_mem _ hi)
    obtain ⟨q, d, hq, hd, hdb⟩ := h.heads i hi'
    have hdi : d.i0 ≠ front s.used := by
      rw [hd]
      rintro rfl
      exact hid hi
    refine ⟨q, d, hq, hd, ?_⟩
    simpa only [update_of_ne (hother q d hq hdi)] using hdb
  · have hdb : d.b ≠ c.b := by
      intro he
      simp [he] at hd
    simp only [update_of_ne hdb] at hd
    have hm := h.pending q d hq hd
    rw [flight, hcont] at hm
    rcases List.mem_cons.mp (List.perm_middle.mem_iff.mp hm) with h1 | h1
    · exact absurd (by rw [(h.same hq hp (h1.trans hi0.symm)).2]) hdb
    · exact h1
  · exact h.status i (by rw [hcont]; exact List.mem_cons_of_mem _ hi)
  · by_cases hdi : d.i0 = front s.used
    · refine h.done q d hq (Or.inr ?_)
      rw [hdi, hcont]
      exact List.mem_cons_self ..
    · refine h.done q d hq (hd.imp (fun hd => ?_) fun hd => ?_)
      · simpa only [update_of_ne (hother q d hq hdi)] using hd
      · rw [hcont]
        exact List.mem_cons_of_mem _ hd

omit [DecidableEq B] in
lemma Inv.take (h : Inv blockno s) (hne : s.avail.nread ≠ s.avail.nwrite) :
    Inv blockno { s with taken := s.taken ++ [front s.avail], avail := pop s.avail } := by
  have hcont := contents_pop NUM_dvd (mt used_eq_zero.mp hne)
  have hperm : (flight { s with taken := s.taken ++ [front s.avail], avail := pop s.avail }).Perm
      (flight s) := by
    simp only [flight, hcont, List.append_assoc, List.cons_append, List.nil_append]
    exact (List.Perm.append_left _ List.perm_middle).trans List.perm_middle
  exact ⟨fun q d hq => { h.chain q d hq with }, h.apart, h.used, h.bufs,
    hperm.nodup_iff.mpr h.nodup, fun i hi => h.heads i (hperm.mem_iff.mp hi),
    fun q d hq hd => hperm.mem_iff.mpr (h.pending q d hq hd), h.status, h.done, h.calm⟩

omit [DecidableEq B] in
lemma Inv.complete (h : Inv blockno s) (hi : i ∈ s.taken) :
    ∃ t, complete s i = some t ∧ Inv blockno t ∧ t.avail = s.avail ∧ t.pc = s.pc ∧
      t.serial = s.serial ∧ ∃ p c, s.pc p = .waiting c ∧
        t.completed = s.completed ++ [doneOf blockno c] := by
  obtain ⟨p, c, hp, rfl, hdisk⟩ := h.heads i (mem_flight.mpr (Or.inr (Or.inl hi)))
  have hc := h.chain p c hp
  have hnu : c.i0 ∉ contents s.used := by
    have hd := (List.nodup_append.mp h.nodup).2.2
    exact fun hm => hd c.i0 (List.mem_append_right _ hi) c.i0 hm rfl
  have hus : contents (push s.used c.i0) = contents s.used ++ [c.i0] :=
    contents_push NUM_dvd NUM_lt (room h.nodup_used hnu) _
  have hcomp : VirtioModel.complete s c.i0 = some { s with
      info := update s.info c.i0 { s.info c.i0 with status := 0 },
      taken := s.taken.erase c.i0,
      used := push s.used c.i0,
      completed := s.completed ++ [doneOf blockno c] } := by
    simp only [VirtioModel.complete, hc.d0, cast_self, hc.d1, hc.d2, hc.tag, hc.op, doneOf]
  refine ⟨_, hcomp, ?_, rfl, rfl, rfl, p, c, hp, rfl⟩
  set t : State n B := { s with
    info := update s.info c.i0 { s.info c.i0 with status := 0 },
    taken := s.taken.erase c.i0,
    used := push s.used c.i0,
    completed := s.completed ++ [doneOf blockno c] } with ht
  have hperm : (flight t).Perm (flight s) := by
    simp only [flight, ht, hus]
    have h1 : (s.taken.erase c.i0 ++ (contents s.used ++ [c.i0])).Perm
        (s.taken ++ contents s.used) := by
      rw [← List.append_assoc]
      exact List.perm_append_singleton _ _ |>.trans
        ((List.perm_cons_erase hi).symm.append_right (contents s.used))
    rw [List.append_assoc, List.append_assoc]
    exact h1.append_left _
  refine ⟨fun q d hq => ?_, h.apart, h.used, h.bufs, hperm.nodup_iff.mpr h.nodup,
    fun j hj => h.heads j (hperm.mem_iff.mp hj), fun q d hq hd => hperm.mem_iff.mpr
      (h.pending q d hq hd), fun j hj => ?_, fun q d hq hd => ?_, h.calm⟩
  · have hd := h.chain q d hq
    refine { hd with info := ?_ }
    by_cases e : d.i0 = c.i0
    · simp only [ht, e, update_self]
      rw [← e]
      exact hd.info
    · simpa only [ht, update_of_ne e] using hd.info
  · by_cases e : j = c.i0
    · simp only [ht, e, update_self]
    · simp only [ht, update_of_ne e]
      simp only [ht, hus, List.mem_append, List.mem_singleton, e, or_false] at hj
      exact h.status j hj
  · by_cases e : d.i0 = c.i0
    · rw [(h.same hq hp e).2]
      simp [ht]
    · refine List.mem_append_left _ (h.done q d hq (hd.imp id fun hd => ?_))
      simpa only [ht, hus, List.mem_append, List.mem_singleton, e, or_false] using hd

/-! ### Runs -/

lemma step_cases {a : Act n B} (hs : step blockno s a = some t) :
    (∃ p b write, (∀ d, s.pc p ≠ .waiting d) ∧ (s.pc p = .allocating b write ∨
      ∀ q, (s.pc q).buf ≠ some b) ∧ t = virtioDiskRw blockno s p b write) ∨
    (∃ p c, s.pc p = .waiting c ∧ t = finish s p c) ∨
    (s.used.nread ≠ s.used.nwrite ∧ t = virtioDiskIntr s) ∨
    (a = .take ∧ s.avail.nread ≠ s.avail.nwrite ∧
      t = { s with taken := s.taken ++ [front s.avail], avail := pop s.avail }) ∨
    ∃ i ∈ s.taken, complete s i = some t := by
  cases a with
  | rw p b write =>
    simp only [step] at hs
    split at hs
    · rename_i hpc
      split_ifs at hs with hb
      cases hs
      exact Or.inl ⟨p, b, write, by simp [hpc], Or.inr hb, rfl⟩
    · cases hs
  | retry p =>
    simp only [step] at hs
    split at hs
    · rename_i b write hpc
      cases hs
      exact Or.inl ⟨p, b, write, by simp [hpc], Or.inl hpc, rfl⟩
    · cases hs
  | resume p =>
    simp only [step] at hs
    split at hs
    · rename_i c hpc
      cases hs
      exact Or.inr (Or.inl ⟨p, c, hpc, rfl⟩)
    · cases hs
  | intr =>
    simp only [step] at hs
    split_ifs at hs with hne
    cases hs
    exact Or.inr (Or.inr (Or.inl ⟨hne, rfl⟩))
  | take =>
    simp only [step] at hs
    split_ifs at hs with hne
    cases hs
    exact Or.inr (Or.inr (Or.inr (Or.inl ⟨rfl, hne, rfl⟩)))
  | complete i =>
    simp only [step] at hs
    split_ifs at hs with hi
    exact Or.inr (Or.inr (Or.inr (Or.inr ⟨i, hi, hs⟩)))

omit [DecidableEq B] in
lemma Inv.buf_free (h : Inv blockno s) {b : B} {write : Bool}
    (hb : s.pc p = .allocating b write ∨ ∀ q, (s.pc q).buf ≠ some b) :
    ∀ q, q ≠ p → (s.pc q).buf ≠ some b := by
  rcases hb with hb | hb
  · intro q hq
    refine h.bufs p q b (Ne.symm hq) ?_
    rw [hb]
    rfl
  · exact fun q _ => hb q

lemma Inv.step (h : Inv blockno s) {a : Act n B} (hs : step blockno s a = some t) :
    Inv blockno t := by
  rcases step_cases hs with ⟨p, b, write, hp, hb, rfl⟩ | ⟨p, c, hp, rfl⟩ | ⟨hne, rfl⟩ |
    ⟨-, hne, rfl⟩ | ⟨i, hi, hs⟩
  · exact h.rw hp (h.buf_free hb)
  · exact h.finish hp
  · exact h.intr hne
  · exact h.take hne
  · obtain ⟨u, hu, hinv, -⟩ := h.complete hi
    rw [hs] at hu
    cases hu
    exact hinv

omit [DecidableEq B] in
lemma finish_eq (h : Inv blockno s) (hp : s.pc p = .waiting c) :
    finish s p c = s ∨ s.disk c.b = false ∧ (finish s p c).pc = update s.pc p .idle ∧
      (finish s p c).avail = s.avail ∧ (finish s p c).completed = s.completed ∧
      (finish s p c).serial = s.serial := by
  unfold finish
  split_ifs with hdisk
  · exact Or.inl rfl
  · dsimp only
    rw [freeChain_chain (h.chain p c hp) fun i hi => (h.used i).mpr ⟨p, c, hp, hi⟩]
    exact Or.inr ⟨by simpa using hdisk, rfl, rfl, rfl, rfl⟩

lemma Inv.rw_eq (h : Inv blockno s) (p : Fin n) (b : B) (write : Bool) :
    (virtioDiskRw blockno s p b write).completed = s.completed ∧
    ((virtioDiskRw blockno s p b write).pc = update s.pc p (.allocating b write) ∧
      (virtioDiskRw blockno s p b write).avail = s.avail ∧
      (virtioDiskRw blockno s p b write).serial = s.serial ∨
    ∃ c, c.b = b ∧ c.write = write ∧ c.serial = s.serial ∧
      (virtioDiskRw blockno s p b write).pc = update s.pc p (.waiting c) ∧
      contents (virtioDiskRw blockno s p b write).avail = contents s.avail ++ [c.i0] ∧
      (virtioDiskRw blockno s p b write).serial = s.serial + 1) := by
  unfold virtioDiskRw
  split
  · rename_i u hu
    obtain ⟨ds, rfl, -⟩ := alloc3_none hu
    exact ⟨rfl, Or.inl ⟨rfl, rfl, rfl⟩⟩
  · rename_i i0 i1 i2 u hu
    obtain ⟨hf, -, rfl⟩ := alloc3_some hu
    exact ⟨rfl, Or.inr ⟨⟨i0, i1, i2, b, write, s.serial⟩, rfl, rfl, rfl, rfl,
      h.push_avail hf.1, rfl⟩⟩

/-- Serial numbers given out so far are below the next one. -/
structure Numbered (s : State n B) : Prop where
  waiting : ∀ p c, s.pc p = .waiting c → c.serial < s.serial
  completed : ∀ e ∈ s.completed, e.serial < s.serial

/-- What a step does to the calls: one of them sleeps for descriptors, submits its request or
returns, or none moves and the device may complete one. -/
lemma Inv.calls (h : Inv blockno s) {a : Act n B} (hs : VirtioModel.step blockno s a = some t) :
    (∃ q x, t.pc = update s.pc q x ∧ t.completed = s.completed ∧
      ((∀ d, x ≠ .waiting d) ∧ t.serial = s.serial ∧
        (∀ d, s.pc q = .waiting d → x = .idle ∧ s.disk d.b = false) ∨
      ∃ c, x = .waiting c ∧ c.serial = s.serial ∧ t.serial = s.serial + 1 ∧
        ∀ d, s.pc q ≠ .waiting d)) ∨
    t.pc = s.pc ∧ t.serial = s.serial ∧
      ∀ e ∈ t.completed, e ∈ s.completed ∨ ∃ p c, s.pc p = .waiting c ∧ e.serial = c.serial := by
  rcases step_cases hs with ⟨p, b, write, hp, -, rfl⟩ | ⟨p, c, hp, rfl⟩ | ⟨hne, rfl⟩ |
    ⟨-, hne, rfl⟩ | ⟨i, hi, hs⟩
  · left
    obtain ⟨hc, ⟨hpc, -, hser⟩ | ⟨c, -, -, hcs, hpc, -, hser⟩⟩ := h.rw_eq p b write
    · exact ⟨p, _, hpc, hc, Or.inl ⟨by simp, hser, fun d hd => absurd hd (hp d)⟩⟩
    · exact ⟨p, _, hpc, hc, Or.inr ⟨c, rfl, hcs, hser, hp⟩⟩
  · rcases finish_eq h hp with he | ⟨hdisk, hpc, -, hcomp, hser⟩
    · rw [he]
      exact Or.inr ⟨rfl, rfl, fun _ => Or.inl⟩
    · refine Or.inl ⟨p, _, hpc, hcomp, Or.inl ⟨by simp, hser, fun d hd => ⟨rfl, ?_⟩⟩⟩
      rw [hp] at hd
      cases hd
      exact hdisk
  · obtain ⟨p, c, -, -, heq⟩ := h.intr_eq hne
    rw [heq]
    exact Or.inr ⟨rfl, rfl, fun _ => Or.inl⟩
  · exact Or.inr ⟨rfl, rfl, fun _ => Or.inl⟩
  · obtain ⟨u, hu, -, -, hpc, hser, p, c, hp, hcomp⟩ := h.complete hi
    rw [hs] at hu
    cases hu
    refine Or.inr ⟨hpc, hser, fun e he => ?_⟩
    rw [hcomp, List.mem_append, List.mem_singleton] at he
    exact he.imp_right fun he => ⟨p, c, hp, by rw [he]; rfl⟩

lemma Numbered.step (h : Inv blockno s) (hn : Numbered s) {a : Act n B}
    (hs : step blockno s a = some t) : Numbered t := by
  rcases h.calls hs with ⟨q, x, hpc, hcomp, hx⟩ | ⟨hpc, hser, hcomp⟩
  · have hle : s.serial ≤ t.serial := by
      rcases hx with ⟨-, hser, -⟩ | ⟨c, -, -, hser, -⟩ <;> omega
    refine ⟨fun p d hd => ?_, fun e he => (hn.completed e (hcomp ▸ he)).trans_le hle⟩
    rw [hpc, update_apply] at hd
    split_ifs at hd
    · rcases hx with ⟨hx, -⟩ | ⟨c, rfl, hc, hser, -⟩
      · exact absurd hd (hx d)
      · cases hd
        omega
    · exact (hn.waiting p d hd).trans_le hle
  · refine ⟨fun p d hd => ?_, fun e he => ?_⟩
    · rw [hser]
      exact hn.waiting p d (hpc ▸ hd)
    · rw [hser]
      rcases hcomp e he with he | ⟨p, c, hp, he⟩
      · exact hn.completed e he
      · rw [he]
        exact hn.waiting p c hp

lemma reach_inv (h : Reach (step blockno) Always (· = start) s) : Inv blockno s ∧ Numbered s := by
  refine h.invariant (I := fun s => Inv blockno s ∧ Numbered s) ?_ ?_
  · rintro s rfl
    refine ⟨start_inv, fun p c hp => ?_, fun e he => ?_⟩
    · cases hp
    · cases he
  · intro s a t hi _ hs
    exact ⟨hi.1.step hs, hi.2.step hi.1 hs⟩

/-- What a step does to the available ring: an entry goes when the device takes it. -/
lemma Inv.avail_step (h : Inv blockno s) {a : Act n B}
    (hs : VirtioModel.step blockno s a = some t) : contents s.avail <+: contents t.avail ∨
      a = .take ∧ contents s.avail = front s.avail :: contents t.avail := by
  rcases step_cases hs with ⟨p, b, write, -, -, rfl⟩ | ⟨p, c, hp, rfl⟩ | ⟨hne, rfl⟩ |
    ⟨ha, hne, rfl⟩ | ⟨i, hi, hs⟩
  · left
    obtain ⟨-, ⟨-, hav, -⟩ | ⟨c, -, -, -, -, hav, -⟩⟩ := h.rw_eq p b write
    · rw [hav]
    · rw [hav]
      exact List.prefix_append _ _
  · left
    rcases finish_eq h hp with he | ⟨-, -, hav, -, -⟩
    · rw [he]
    · rw [hav]
  · left
    obtain ⟨p, c, -, -, heq⟩ := h.intr_eq hne
    rw [heq]
  · exact Or.inr ⟨ha, contents_pop NUM_dvd (mt used_eq_zero.mp hne)⟩
  · left
    obtain ⟨u, hu, -, hav, -⟩ := h.complete hi
    rw [hs] at hu
    cases hu
    rw [hav]

lemma Inv.pc_step (h : Inv blockno s) {a : Act n B} (hs : VirtioModel.step blockno s a = some t)
    (hp : s.pc p = .waiting c) :
    t.pc p = .waiting c ∨ t.pc p = .idle ∧ doneOf blockno c ∈ s.completed := by
  rcases h.calls hs with ⟨q, x, hpc, -, hx⟩ | ⟨hpc, -⟩
  · rw [hpc, update_apply]
    split_ifs with e
    · subst e
      rcases hx with ⟨-, -, hx⟩ | ⟨d, -, -, -, hx⟩
      · obtain ⟨hidle, hdisk⟩ := hx c hp
        exact Or.inr ⟨hidle, h.done p c hp (Or.inl hdisk)⟩
      · exact absurd hp (hx c)
    · exact Or.inl hp
  · rw [hpc]
    exact Or.inl hp

lemma Inv.serial_step (h : Inv blockno s) (hn : Numbered s) {a : Act n B}
    (hs : VirtioModel.step blockno s a = some t) (hp : ∀ d, s.pc p ≠ .waiting d)
    (ht : t.pc p = .waiting c) : c.serial = s.serial ∧ ∀ e ∈ s.completed, e.serial ≠ c.serial := by
  have hser : c.serial = s.serial := by
    rcases h.calls hs with ⟨q, x, hpc, -, hx⟩ | ⟨hpc, -⟩
    · rw [hpc, update_apply] at ht
      split_ifs at ht
      · rcases hx with ⟨hx, -⟩ | ⟨d, rfl, hd, -⟩
        · exact absurd ht (hx c)
        · cases ht
          exact hd
      · exact absurd ht (hp c)
    · exact absurd (hpc ▸ ht) (hp c)
  refine ⟨hser, fun e he => ?_⟩
  have := hn.completed e he
  omega

/-! ### Counting descriptors -/

def held : Pc B → Finset Idx
  | .waiting c => {c.i0, c.i1, c.i2}
  | _ => ∅

omit [DecidableEq B] in
lemma mem_held {x : Pc B} : i ∈ held x ↔ ∃ c, x = .waiting c ∧ i ∈ c.idx := by
  cases x <;> simp [held, mem_idx]

def submitted : Pc B → Bool
  | .waiting _ => true
  | _ => false

omit [DecidableEq B] in
lemma Inv.count (h : Inv blockno s) :
    (Finset.univ.filter fun i => s.free i = true).card +
      3 * (Finset.univ.filter fun p => submitted (s.pc p) = true).card = NUM := by
  have hused : (Finset.univ.filter fun i => ¬ s.free i = true) =
      (Finset.univ.filter fun p => submitted (s.pc p) = true).biUnion fun p => held (s.pc p) := by
    ext i
    simp only [Finset.mem_filter, Finset.mem_univ, true_and, Bool.not_eq_true, Finset.mem_biUnion,
      h.used, mem_held]
    constructor
    · rintro ⟨p, c, hp, hi⟩
      exact ⟨p, by rw [hp]; rfl, c, hp, hi⟩
    · rintro ⟨p, -, c, hp, hi⟩
      exact ⟨p, c, hp, hi⟩
  have hcard : (Finset.univ.filter fun i => ¬ s.free i = true).card =
      3 * (Finset.univ.filter fun p => submitted (s.pc p) = true).card := by
    rw [hused, Finset.card_biUnion, Finset.sum_const_nat (m := 3), Nat.mul_comm]
    · intro p hp
      obtain ⟨c, hc⟩ : ∃ c, s.pc p = .waiting c := by
        simp only [Finset.mem_filter, Finset.mem_univ, true_and] at hp
        cases hpc : s.pc p with
        | waiting c => exact ⟨c, rfl⟩
        | idle | allocating b w => rw [hpc] at hp; cases hp
      obtain ⟨n01, n02, n12⟩ := (h.chain p c hc).apart
      rw [hc, held, Finset.card_eq_three]
      exact ⟨c.i0, c.i1, c.i2, n01, n02, n12, rfl⟩
    · intro p _ q _ hpq
      refine Finset.disjoint_left.mpr fun i hi hj => ?_
      obtain ⟨c, hc, hic⟩ := mem_held.mp hi
      obtain ⟨d, hd, hid⟩ := mem_held.mp hj
      exact h.apart p q c d hc hd hpq hic hid
  rw [← hcard, Finset.card_filter_add_card_filter_not, Finset.card_univ, Fintype.card_fin]

/-- **The disk request protocol.** For any number of calls of `virtio_disk_rw`, and whatever the
order in which the device takes and completes requests and the handler runs: the chains of requests
in flight are disjoint; each descriptor is free or one of the three of such a chain; an entry of the
available ring stays until the device takes it; a call returns only when the device has completed
the request it submitted, whose serial number no earlier request has; and the driver does not
panic. -/
theorem request_protocol (h : Reach (step blockno) Always (· = start) s) :
    (∀ p q c d, s.pc p = .waiting c → s.pc q = .waiting d → p ≠ q → c.idx.Disjoint d.idx) ∧
    (Finset.univ.filter fun i => s.free i = true).card +
      3 * (Finset.univ.filter fun p => submitted (s.pc p) = true).card = NUM ∧
    (∀ a t, step blockno s a = some t → contents s.avail <+: contents t.avail ∨
      a = .take ∧ contents s.avail = front s.avail :: contents t.avail) ∧
    (∀ a t p c, step blockno s a = some t → s.pc p = .waiting c →
      t.pc p = .waiting c ∨ t.pc p = .idle ∧ doneOf blockno c ∈ s.completed) ∧
    (∀ a t p c, step blockno s a = some t → (∀ d, s.pc p ≠ .waiting d) → t.pc p = .waiting c →
      c.serial = s.serial ∧ ∀ e ∈ s.completed, e.serial ≠ c.serial) ∧
    s.panicked = false := by
  obtain ⟨hinv, hn⟩ := reach_inv h
  exact ⟨hinv.apart, hinv.count, fun a t hs => hinv.avail_step hs,
    fun a t p c hs hp => hinv.pc_step hs hp, fun a t p c hs hp ht => hinv.serial_step hn hs hp ht,
    hinv.calm⟩

/-- Three processes submit; two chains fit beside the third's attempt, and the first completes. -/
def threeReads (p q r : Fin n) (b b' b'' : B) : List (Act n B) :=
  [.rw p b false, .rw q b' true, .rw r b'' false, .take, .complete 0, .intr, .resume p]

theorem request_protocol_threeReads : ∃ s : State 3 (Fin 3),
    run (step Fin.val) start (threeReads 0 1 2 0 1 2) = some s ∧ submitted (s.pc 1) = true ∧
    s.completed.map Done.serial = [0] ∧ (Finset.univ.filter fun i => s.free i = true).card = 5 ∧
    s.panicked = false := by
  have hrun : ∃ s : State 3 (Fin 3),
      run (step Fin.val) start (threeReads 0 1 2 0 1 2) = some s := ⟨_, rfl⟩
  obtain ⟨s, hs⟩ := hrun
  refine ⟨s, hs, ?_⟩
  obtain ⟨-, -, -, -, -, hcalm⟩ := request_protocol (Reach.of_run (.init rfl) hs)
  cases hs
  exact ⟨by decide +kernel, by decide +kernel, by decide +kernel, hcalm⟩

end Xv6.VirtioProtocol
