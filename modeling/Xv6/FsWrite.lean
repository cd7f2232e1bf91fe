import Mathlib.Order.Interval.Finset.Nat
import Xv6.FsContent

/-!
`writei` and `itrunc`: the bytes of an inode are written, and its blocks are given back.
-/

namespace Xv6.FsWrite

open Bytes Params FsLayout Threads Alone FsModel FsCode FsImage
open Function FsContent

variable {ip : Ent} {i : ℕ} {good : User → Prop} {c c₀ : Core} {α : Type} {Q : α → Core → Prop}
  {sb : Superblock} {a b off : ℕ}

/-! ### One block of data -/

lemma get_patch {n : ℕ} (v : Buf n) (pos : ℕ) (l : List UInt8) {x : ℕ} (hx : x < n) :
    (patch v pos l).get x =
      if pos ≤ x ∧ x < pos + l.length then l.getD (x - pos) 0 else v.get x := by
  rw [Buf.get_of_lt _ hx, patch]
  simp only [List.getD_eq_getElem?_getD]
  split_ifs
  · rfl
  · exact (Buf.get_of_lt v hx).symm

/-- What a write to a block of the inode changes. -/
structure Stored (sb : Superblock) (i pos : ℕ) (l : List UInt8) (c c' : Core) : Prop where
  wf : Wf sb (inodes sb i c') c'.blk
  lk : c'.lk = c.lk
  d : c'.d = c.d
  disk : ∀ j, j < sb.ninodes → inode sb c'.blk j = inode sb c.blk j
  refs : ∀ j k, Slot sb j k → ref (inodes sb i c') c'.blk j k = ref (inodes sb i c) c.blk j k
  marks : ∀ b < sb.size, used sb c'.blk b = used sb c.blk b
  bytes : ∀ j q, j < sb.ninodes → q < MAXFILE * BSIZE →
    byteAt (inodes sb i c') c'.blk j q =
      if j = i ∧ pos ≤ q ∧ q < pos + l.length then l.getD (q - pos) 0
      else byteAt (inodes sb i c) c.blk j q

lemma stored {bn : ℕ} (pos : ℕ) {l : List UInt8} {log : Finset ℕ} (hsb : sb.Ok)
    (h : Wf sb (inodes sb i c) c.blk) (hi : i < sb.ninodes) (hbn : bn < MAXFILE)
    (ha : addr (inodes sb i c) c.blk i bn = a)
    (h0 : a ≠ 0) (hpos : pos + l.length ≤ BSIZE) {c' : Core}
    (hc : c' = { c with blk := update c.blk a (patch (c.blk a) pos l), log := log }) :
    Stored sb i (bn * BSIZE + pos) l c c' := by
  have hr := h.addr_range hi hbn (by rw [ha]; exact h0)
  rw [ha] at hr
  have hle : sb.bmapstart ≤ a := by
    refine le_trans ?_ hr.1
    rw [Superblock.dataStart, add_assoc]
    exact Nat.le_add_right _ _
  have hd : c'.d = c.d := by rw [hc]
  have hne : ∀ b, b ≠ a → c'.blk b = c.blk b := by
    intro b hb
    rw [hc]
    exact update_of_ne hb _ _
  have hself : c'.blk a = patch (c.blk a) pos l := by
    rw [hc]
    exact update_self _ _ _
  have hdis : ∀ j, j < sb.ninodes → inode sb c'.blk j = inode sb c.blk j := by
    intro j hj
    rw [hc]
    exact inode_update hsb hle hj _
  have hino : ∀ j, j < sb.ninodes → inodes sb i c' j = inodes sb i c j := by
    intro j hj
    by_cases e : j = i
    · rw [e, inodes_self, inodes_self, hd]
    · rw [inodes_ne e, inodes_ne e, hdis j hj]
  have hrefs : ∀ j k, Slot sb j k →
      ref (inodes sb i c') c'.blk j k = ref (inodes sb i c) c.blk j k := by
    intro j k hs
    refine ref_congr (by rw [hino j hs.1]) (fun _ => hne _ ?_) k
    have := h.addr_ne_ind hi hs.1 hbn (by rw [ha]; exact h0)
    rw [ha] at this
    exact this.symm
  have hmarks : ∀ b < sb.size, used sb c'.blk b = used sb c.blk b := by
    intro b hb
    rw [hc]
    exact used_update hr.1 hb _
  refine ⟨h.congr hrefs (fun b hb hu => by rw [hmarks b hb]; exact hu) hsb.data
    (fun j hj => by rw [hino j hj]) (fun j hj => by rw [hino j hj]; exact h.fits j hj),
    by rw [hc], hd, hdis, hrefs, hmarks, fun j q hj hq => ?_⟩
  have haddr : addr (inodes sb i c') c'.blk j (q / BSIZE) =
      addr (inodes sb i c) c.blk j (q / BSIZE) := hrefs j _ (slot_addr hj (div_lt hq))
  have hdiv : q / BSIZE = bn ↔ bn * BSIZE ≤ q ∧ q < bn * BSIZE + BSIZE := by
    unfold BSIZE
    omega
  have hqm := Nat.div_add_mod q BSIZE
  have hmod : q % BSIZE < BSIZE := Nat.mod_lt _ (by decide)
  by_cases hx : j = i ∧ q / BSIZE = bn
  · obtain ⟨rfl, hq'⟩ := hx
    rw [byteAt, byteAt, haddr, hq', ha, if_neg h0, if_neg h0, hself, get_patch _ _ _ hmod]
    rw [hq', mul_comm] at hqm
    have hiff : (pos ≤ q % BSIZE ∧ q % BSIZE < pos + l.length) ↔
        (j = j ∧ bn * BSIZE + pos ≤ q ∧ q < bn * BSIZE + pos + l.length) := by
      omega
    by_cases hin : pos ≤ q % BSIZE ∧ q % BSIZE < pos + l.length
    · rw [if_pos hin, if_pos (hiff.mp hin), show q % BSIZE - pos = q - (bn * BSIZE + pos) by omega]
    · rw [if_neg hin, if_neg (fun h => hin (hiff.mpr h))]
  · have hout : ¬ (j = i ∧ bn * BSIZE + pos ≤ q ∧ q < bn * BSIZE + pos + l.length) := by
      rintro ⟨rfl, h1, h2⟩
      exact hx ⟨rfl, hdiv.mpr (by omega)⟩
    rw [if_neg hout, byteAt, byteAt, haddr]
    split_ifs with hz
    · rfl
    · rw [hne]
      rw [← ha]
      intro e
      obtain ⟨h1, h2⟩ := h.addr_inj hj hi (div_lt hq) hbn hz e
      exact hx ⟨h1, h2⟩

/-! ### `iupdate` -/

def save (sb : Superblock) (i : ℕ) (c : Core) : Core where
  blk := update c.blk (sb.IBLOCK i) (Dinode.put (c.blk (sb.IBLOCK i)) (slotOff i) c.d)
  lk := c.lk
  d := c.d
  log := insert (sb.IBLOCK i) c.log

lemma iupdate_runs {k : Kernel α} (hl : c.lk = fun _ => false)
    (hk : runs ip i good k (save sb i c) Q) : runs ip i good (do iupdate sb ip; k) c Q := by
  rw [iupdate]
  simp only [bind_assoc]
  refine do_inumOf ?_
  have h : c.lk (sb.IBLOCK i) = false := by rw [hl]
  exact do_bread h (do_getI (do_put h hk))

lemma iupdate_last {Q : Unit → Core → Prop} (hl : c.lk = fun _ => false)
    (hq : Q () (save sb i c)) : runs ip i good (iupdate sb ip) c Q := by
  have h : runs ip i good (do iupdate sb ip; pure ()) c Q := iupdate_runs hl (alone_pure.mpr hq)
  rwa [bind_pure_unit] at h

section Save

variable (hsb : sb.Ok) (hi : i < sb.ninodes)

include hsb hi

lemma save_data (hb : sb.bmapstart ≤ b) : (save sb i c).blk b = c.blk b := by
  have := iblock_lt hsb hi
  exact update_of_ne (by omega) _ _

omit hsb hi in
lemma save_self (h : c.d.Fits) : inode sb (save sb i c).blk i = c.d := by
  rw [inode, save]
  simp only [update_self]
  exact Dinode.get_put_self _ h (slotOff_le i)

omit hsb hi in
lemma save_ne {j : ℕ} (hj : j ≠ i) : inode sb (save sb i c).blk j = inode sb c.blk j := by
  rw [inode, inode, save]
  by_cases e : sb.IBLOCK j = sb.IBLOCK i
  · simp only [e, update_self]
    exact Dinode.get_put_ne _ (slotOff_disjoint hj.symm e.symm)
  · simp only [update_of_ne e]

lemma save_used : used sb (save sb i c).blk b = used sb c.blk b := by
  rw [used, save_data hsb hi (bmapstart_le b), used]

omit hsb hi in
lemma save_inodes (j : ℕ) : inodes sb i (save sb i c) j = inodes sb i c j := by
  by_cases e : j = i
  · rw [e, inodes_self, inodes_self, save]
  · rw [inodes_ne e, inodes_ne e, save_ne e]

lemma save_ref (h : Wf sb (inodes sb i c) c.blk) {j k : ℕ} (hs : Slot sb j k) :
    ref (inodes sb i (save sb i c)) (save sb i c).blk j k = ref (inodes sb i c) c.blk j k := by
  refine ref_congr (by rw [save_inodes]) (fun h0 => save_data hsb hi ?_) k
  refine le_trans ?_ (h.ind_range hs.1 h0).1
  rw [Superblock.dataStart, add_assoc]
  exact Nat.le_add_right _ _

lemma save_wf (h : Wf sb (inodes sb i c) c.blk) :
    Wf sb (inodes sb i (save sb i c)) (save sb i c).blk :=
  h.congr (fun _ _ hs => save_ref hsb hi h hs) (fun b _ hu => by rwa [save_used hsb hi]) hsb.data
    (fun j _ => by rw [save_inodes]) fun j hj => by rw [save_inodes]; exact h.fits j hj

lemma save_byteAt (h : Wf sb (inodes sb i c) c.blk) {j q : ℕ} (hj : j < sb.ninodes)
    (hq : q < MAXFILE * BSIZE) : byteAt (inodes sb i (save sb i c)) (save sb i c).blk j q =
      byteAt (inodes sb i c) c.blk j q := by
  have ha : addr (inodes sb i (save sb i c)) (save sb i c).blk j (q / BSIZE) =
      addr (inodes sb i c) c.blk j (q / BSIZE) := save_ref hsb hi h (slot_addr hj (div_lt hq))
  rw [byteAt, byteAt, ha]
  split_ifs with h0
  · rfl
  · rw [save_data hsb hi]
    refine le_trans ?_ (h.addr_range hj (div_lt hq) h0).1
    rw [Superblock.dataStart, add_assoc]
    exact Nat.le_add_right _ _

lemma save_logs {K : Finset ℕ} (h : Wf sb (inodes sb i c) c.blk) (hlog : Logs sb i K c₀ c) :
    Logs sb i K c₀ (save sb i c) := by
  refine hlog.trans (fun b hb => ?_) fun k _ hle _ => save_ref hsb hi h ⟨hi, hle⟩
  rcases Finset.mem_insert.mp hb with rfl | hb
  · exact .inr (.inl rfl)
  · exact .inl hb

end Save

/-! ### `writei` -/

/-- The inode after `src` was written from `off` on, its size apart. -/
structure Written (sb : Superblock) (i off : ℕ) (src : List UInt8) (c₀ c : Core) : Prop where
  wf : Wf sb (inodes sb i c) c.blk
  lk : c.lk = c₀.lk
  fields : c.d = { c₀.d with addrs := c.d.addrs }
  disk : ∀ j, j < sb.ninodes → inode sb c.blk j = inode sb c₀.blk j
  refs : ∀ j k, Slot sb j k → j ≠ i →
    ref (inodes sb i c) c.blk j k = ref (inodes sb i c₀) c₀.blk j k
  there : ∀ bn, bn * BSIZE < off + src.length → addr (inodes sb i c) c.blk i bn ≠ 0
  bytes : ∀ j q, j < sb.ninodes → q < MAXFILE * BSIZE →
    byteAt (inodes sb i c) c.blk j q =
      if j = i ∧ off ≤ q ∧ q < off + src.length then src.getD (q - off) 0
      else byteAt (inodes sb i c₀) c₀.blk j q

lemma Written.refl (h : Wf sb (inodes sb i c) c.blk) (hi : i < sb.ninodes)
    (hoff : off ≤ c.d.size) : Written sb i off [] c c := by
  refine ⟨h, rfl, rfl, fun _ _ => rfl, fun _ _ _ _ => rfl, fun bn hbn => ?_, fun j q _ _ => ?_⟩
  · refine h.dense i bn hi ?_
    rw [inodes_self]
    simp only [List.length_nil] at hbn
    omega
  · rw [if_neg]
    simp only [List.length_nil]
    omega

lemma Written.kept {c₁ : Core} {src : List UInt8} (h : Written sb i off src c₀ c)
    (hi : i < sb.ninodes) (hk : Kept sb i c c₁) (hmax : off + src.length ≤ MAXFILE * BSIZE) :
    Written sb i off src c₀ c₁ := by
  refine ⟨hk.wf, hk.lk.trans h.lk, ?_, fun j hj => ?_, fun j k hs hj => ?_, fun bn hbn => ?_,
    fun j q hj hq => ?_⟩
  · rw [hk.fields, h.fields]
  · rw [hk.disk j hj, h.disk j hj]
  · rw [hk.refs j k hs (.inl hj), h.refs j k hs hj]
  · have hlt : bn < MAXFILE := Nat.lt_of_mul_lt_mul_right (hbn.trans_le hmax)
    have h0 := h.there bn hbn
    have hr := hk.refs i _ (slot_addr hi hlt) (.inr h0)
    rw [addr, hr]
    exact h0
  · rw [hk.bytes j q hj hq, h.bytes j q hj hq]

lemma Written.store {c₂ : Core} {src l : List UInt8} (h : Written sb i off src c₀ c)
    (hi : i < sb.ninodes) (ha : addr (inodes sb i c) c.blk i ((off + src.length) / BSIZE) ≠ 0)
    (hs : Stored sb i (off + src.length) l c c₂)
    (hle : (off + src.length) % BSIZE + l.length ≤ BSIZE)
    (hmax : off + src.length + l.length ≤ MAXFILE * BSIZE) :
    Written sb i off (src ++ l) c₀ c₂ := by
  refine ⟨hs.wf, hs.lk.trans h.lk, ?_, fun j hj => ?_, fun j k hs' hj => ?_,
    fun bn hbn => ?_, fun j q hj hq => ?_⟩
  · rw [hs.d, h.fields]
  · rw [hs.disk j hj, h.disk j hj]
  · rw [hs.refs j k hs', h.refs j k hs' hj]
  · rw [List.length_append] at hbn
    have hlt : bn < MAXFILE := by
      refine Nat.lt_of_mul_lt_mul_right (a := BSIZE) ?_
      omega
    rw [addr, hs.refs i _ (slot_addr hi hlt)]
    by_cases e : bn * BSIZE < off + src.length
    · exact h.there bn e
    · rw [show bn = (off + src.length) / BSIZE by unfold BSIZE at *; omega]
      exact ha
  · rw [hs.bytes j q hj hq, h.bytes j q hj hq, List.length_append]
    by_cases hj' : j = i
    · subst hj'
      simp only [true_and, List.getD_eq_getElem?_getD]
      by_cases h1 : off + src.length ≤ q ∧ q < off + src.length + l.length
      · rw [if_pos h1, if_pos (by omega), List.getElem?_append_right (by omega), Nat.sub_sub]
      · rw [if_neg h1]
        by_cases h2 : off ≤ q ∧ q < off + src.length
        · rw [if_pos h2, if_pos (by omega), List.getElem?_append_left (by omega)]
        · rw [if_neg h2, if_neg (by omega)]
    · simp only [hj', false_and, if_false]

def Brings (s : Src) (src : List UInt8) : Prop := ∀ bs, s = .kernel bs → src = bs.take src.length

lemma copyin_runs {s : Src} {n tot m : ℕ} {src : List UInt8}
    (hs : ∀ bs, s = .kernel bs → n ≤ bs.length) (hgood : ∀ u, good u → u.2 = true)
    (hb : Brings s src) (hlen : src.length = tot) (hm : tot + m ≤ n) :
    runs ip i good (copyin tot m s) c fun r c' => c' = c ∧ r.2 = true ∧ r.1.length = m ∧
      Brings s (src ++ r.1) := by
  cases s with
  | kernel bs =>
    have hn := hs bs rfl
    have hl : ((bs.drop tot).take m).length = m := by
      rw [List.length_take, List.length_drop]
      omega
    refine alone_pure.mpr ⟨rfl, rfl, hl, ?_⟩
    rintro _ ⟨⟩
    rw [List.length_append, hl, List.take_add, hlen]
    have := hb bs rfl
    rw [hlen] at this
    rw [← this]
  | user =>
    refine alone_bind.mpr (alone_ask_iff.mpr fun u hu => ⟨u, _, rfl, ?_⟩)
    rw [if_pos (hgood u hu)]
    refine alone_pure.mpr ⟨rfl, rfl, ?_, by rintro _ ⟨⟩⟩
    rw [List.length_take, List.length_append, List.length_replicate]
    omega

/-- The slots of the inode that a write to some bytes can change. -/
def touched (off n : ℕ) : Finset ℕ :=
  insert NDIRECT ((Finset.Ico (off / BSIZE) ((off + n + (BSIZE - 1)) / BSIZE)).image slotOf)

def blocksIn (off n : ℕ) : ℕ := (off + n + (BSIZE - 1)) / BSIZE - off / BSIZE

lemma touched_card (off n : ℕ) : (touched off n).card ≤ blocksIn off n + 1 := by
  refine (Finset.card_insert_le _ _).trans (Nat.succ_le_succ ?_)
  exact Finset.card_image_le.trans (Nat.card_Ico _ _).le

lemma slotOf_touched {n m : ℕ} (h : m < n) : slotOf ((off + m) / BSIZE) ∈ touched off n := by
  refine Finset.mem_insert_of_mem (Finset.mem_image_of_mem _ (Finset.mem_Ico.mpr ?_))
  unfold BSIZE
  omega

lemma Stored.logs {K : Finset ℕ} {c₁ c₂ : Core} {pos bn : ℕ} {l : List UInt8}
    (hs : Stored sb i pos l c₁ c₂) (hi : i < sb.ninodes) (h : Logs sb i K c₀ c₁)
    (hlog : c₂.log = insert a c₁.log) (ha : addr (inodes sb i c₁) c₁.blk i bn = a) (h0 : a ≠ 0)
    (hbn : bn < MAXFILE) (hK : slotOf bn ∈ K) : Logs sb i K c₀ c₂ := by
  have hslot := slot_addr hi hbn
  refine h.trans (fun b hb => ?_) fun k _ hle _ => hs.refs i k ⟨hi, hle⟩
  rw [hlog, Finset.mem_insert] at hb
  rcases hb with rfl | hb
  · refine .inr (.inr (.inr ⟨h0, _, hK, hslot.2, ?_⟩))
    rw [hs.refs i _ hslot]
    exact ha.symm
  · exact .inl hb

lemma writeiLoop_runs {s : Src} {n : ℕ} (hsb : sb.Ok) (hi : i < sb.ninodes)
    (hl : c₀.lk = fun _ => false) (hs : ∀ bs, s = .kernel bs → n ≤ bs.length)
    (hgood : ∀ u, good u → u.2 = true) (hmax : off + n ≤ MAXFILE * BSIZE) (k : ℕ)
    (src : List UInt8) (hk : n ≤ src.length + k) (hn : src.length ≤ n) (hb : Brings s src)
    (h : Written sb i off src c₀ c) (hlog : Logs sb i (touched off n) c₀ c) :
    runs ip i good (writeiLoop sb ip s n k (off + src.length) src.length) c fun r c' =>
      ∃ src', r = (off + src'.length, src'.length) ∧ Written sb i off src' c₀ c' ∧
        src'.length ≤ n ∧ Brings s src' ∧ (src'.length < n → Full sb c'.blk) ∧
        Logs sb i (touched off n) c₀ c' := by
  have hdone : ∀ (src : List UInt8) (c : Core), src.length = n → Brings s src →
      Written sb i off src c₀ c → Logs sb i (touched off n) c₀ c →
      runs ip i good (pure (off + src.length, src.length)) c
        fun r c' => ∃ src', r = (off + src'.length, src'.length) ∧ Written sb i off src' c₀ c' ∧
          src'.length ≤ n ∧ Brings s src' ∧ (src'.length < n → Full sb c'.blk) ∧
          Logs sb i (touched off n) c₀ c' :=
    fun src c hlen hb h hlog =>
      alone_pure.mpr ⟨src, rfl, h, hlen.le, hb, fun hlt => by omega, hlog⟩
  induction k generalizing src c with
  | zero => exact hdone src c (by omega) hb h hlog
  | succ k ih =>
    rw [writeiLoop]
    by_cases hlt : src.length < n
    · rw [if_pos hlt]
      have hmod : (off + src.length) % BSIZE < BSIZE := Nat.mod_lt _ (by decide)
      have hbn : (off + src.length) / BSIZE < MAXFILE := div_lt (by omega)
      refine (bmap_runs hsb h.wf hi (h.lk.trans hl) hbn).seq ?_
      rintro a c₁ ⟨hk₁, hfull, haddr, -, hlog₁⟩
      have hin : slotOf ((off + src.length) / BSIZE) ∈ touched off n := slotOf_touched hlt
      replace hlog₁ : Logs sb i (touched off n) c₀ c₁ :=
        hk₁.logs hi hlog (hlog₁.mono (Finset.insert_subset (Finset.mem_insert_self _ _)
          (Finset.singleton_subset_iff.mpr hin)))
      by_cases h0 : a = 0
      · rw [if_pos h0]
        exact alone_pure.mpr ⟨src, rfl, h.kept hi hk₁ (by omega), hn, hb, fun _ => hfull h0, hlog₁⟩
      · rw [if_neg h0]
        have hla : c₁.lk a = false := by rw [hk₁.lk, h.lk, hl]
        refine do_bread hla ?_
        dsimp only
        generalize hm : min (n - src.length) (BSIZE - (off + src.length) % BSIZE) = m
        refine (copyin_runs hs hgood hb rfl (by omega)).seq ?_
        rintro ⟨l, ok⟩ c₂ ⟨rfl, rfl, hlen, hb'⟩
        simp only at hlen hb' ⊢
        refine do_bset (update_self _ _ _) ?_
        rw [if_pos trivial]
        refine do_logWrite (update_self _ _ _) (do_leave (c := { c₁ with
          blk := update c₁.blk a
            (patch (c₁.blk a) ((off + src.length) % BSIZE) l)
          log := insert a c₁.log }) hla ?_)
        have hst : Stored sb i _ l c₁ { c₁ with
            blk := update c₁.blk a (patch (c₁.blk a) ((off + src.length) % BSIZE) l)
            log := insert a c₁.log } :=
          stored ((off + src.length) % BSIZE) hsb hk₁.wf hi hbn (haddr h0) h0 (by omega) rfl
        rw [Nat.div_add_mod'] at hst
        have hw := (h.kept hi hk₁ (by omega)).store hi (by rw [haddr h0]; exact h0) hst (by omega)
          (by omega)
        have hlen' : (src ++ l).length = src.length + m := by rw [List.length_append, hlen]
        have := ih (src ++ l) (by omega) (by omega) hb' hw
          (hst.logs hi hlog₁ rfl (haddr h0) h0 hbn hin)
        rwa [hlen', ← add_assoc] at this
    · rw [if_neg hlt]
      exact hdone src c (by omega) hb h hlog

def resize (c : Core) (sz : ℕ) : Core := { c with d := { c.d with size := sz } }

lemma resize_inodes_addrs (c : Core) (sz j : ℕ) :
    (inodes sb i (resize c sz) j).addrs = (inodes sb i c j).addrs := by
  by_cases e : j = i
  · rw [e, inodes_self, inodes_self, resize]
  · rw [inodes_ne e, inodes_ne e, resize]

lemma resize_ref (c : Core) (sz j k : ℕ) :
    ref (inodes sb i (resize c sz)) (resize c sz).blk j k = ref (inodes sb i c) c.blk j k :=
  ref_congr (resize_inodes_addrs c sz j) (fun _ => rfl) k

lemma resize_byteAt (c : Core) (sz j q : ℕ) :
    byteAt (inodes sb i (resize c sz)) (resize c sz).blk j q =
      byteAt (inodes sb i c) c.blk j q := by
  rw [byteAt, byteAt, addr, addr, resize_ref]
  rfl

lemma resize_wf {sz : ℕ} (h : Wf sb (inodes sb i c) c.blk) (hsz : sz ≤ MAXFILE * BSIZE)
    (hd : ∀ bn, bn * BSIZE < sz → addr (inodes sb i c) c.blk i bn ≠ 0) :
    Wf sb (inodes sb i (resize c sz)) (resize c sz).blk := by
  refine ⟨fun j k hs => ?_, fun j k j' l hs hs' => ?_, h.low, fun j bn hj hbn => ?_,
    fun j hj => ?_, fun j hj => ?_⟩
  · rw [resize_ref]
    exact h.range j k hs
  · rw [resize_ref, resize_ref]
    exact h.once j k j' l hs hs'
  · rw [addr, resize_ref]
    by_cases e : j = i
    · subst e
      rw [inodes_self] at hbn
      exact hd bn hbn
    · rw [inodes_ne e] at hbn
      refine h.dense j bn hj ?_
      rw [inodes_ne e]
      exact hbn
  · by_cases e : j = i
    · rw [e, inodes_self]
      exact hsz
    · have := h.small j hj
      rw [inodes_ne e] at this ⊢
      exact this
  · by_cases e : j = i
    · subst e
      have hf := h.fits j hj
      rw [inodes_self] at hf ⊢
      refine ⟨hf.type, hf.major, hf.minor, hf.nlink, ?_, hf.addrs, hf.rest⟩
      have : MAXFILE * BSIZE < 2 ^ 32 := by decide
      change sz < 2 ^ 32
      omega
    · rw [inodes_ne e]
      exact Dinode.get_fits _ _

/-- What a `writei` that is not refused leaves: the bytes are those of the source, and nothing
else has changed. -/
structure Wrote (sb : Superblock) (i off : ℕ) (src : List UInt8) (c c' : Core) : Prop where
  wf : Wf sb (inodes sb i c') c'.blk
  lk : c'.lk = c.lk
  fields : c'.d = { c.d with addrs := c'.d.addrs, size := max c.d.size (off + src.length) }
  saved : inode sb c'.blk i = c'.d
  others : ∀ j, j < sb.ninodes → j ≠ i → inode sb c'.blk j = inode sb c.blk j
  refs : ∀ j k, Slot sb j k → j ≠ i →
    ref (inodes sb i c') c'.blk j k = ref (inodes sb i c) c.blk j k
  bytes : ∀ j q, j < sb.ninodes → q < MAXFILE * BSIZE →
    byteAt (inodes sb i c') c'.blk j q =
      if j = i ∧ off ≤ q ∧ q < off + src.length then src.getD (q - off) 0
      else byteAt (inodes sb i c) c.blk j q

lemma Wrote.forget {l : List UInt8} {off : ℕ} {c' : Core} (h : Wrote sb i off l c c') :
    Wrote sb i off l c { c' with log := ∅ } :=
  ⟨h.wf, h.lk, h.fields, h.saved, h.others, h.refs, h.bytes⟩

def Refused (size off n : ℕ) : Prop := size < off ∨ 2 ^ 32 ≤ off + n ∨ MAXFILE * BSIZE < off + n

/-- What `writei` of `n` bytes at `off` can return and leave. -/
abbrev Writes (sb : Superblock) (i : ℕ) (s : Src) (off n : ℕ) (c : Core) (r : ℤ) (c' : Core) :
    Prop :=
  Refused c.d.size off n ∧ r = -1 ∧ c' = c ∨
  ¬ Refused c.d.size off n ∧ ∃ src, r = src.length ∧ src.length ≤ n ∧ Brings s src ∧
    (src.length < n → Full sb c'.blk) ∧ Wrote sb i off src c c' ∧ Logs sb i (touched off n) c c'

theorem writei_runs {s : Src} {n : ℕ} (hsb : sb.Ok) (h : Wf sb (inodes sb i c) c.blk)
    (hi : i < sb.ninodes) (hl : c.lk = fun _ => false)
    (hs : ∀ bs, s = .kernel bs → n ≤ bs.length) (hgood : ∀ u, good u → u.2 = true) :
    runs ip i good (writei sb ip s off n) c (Writes sb i s off n c) := by
  rw [writei]
  refine do_getI ?_
  by_cases hbad : c.d.size < off ∨ 2 ^ 32 ≤ off + n ∨ MAXFILE * BSIZE < off + n
  · rw [if_pos hbad]
    exact alone_pure.mpr (.inl ⟨hbad, rfl, rfl⟩)
  · rw [if_neg hbad]
    have hw : Written sb i off [] c c := Written.refl h hi (by omega)
    refine (writeiLoop_runs hsb hi hl hs hgood (by omega) n [] (by simp) (by simp)
      (by rintro bs -; rfl) hw (Logs.refl _ _)).seq ?_
    rintro _ c₁ ⟨src, rfl, hw₁, hle, hb, hfull, hlog⟩
    refine do_getI ?_
    have hsize : c₁.d.size = c.d.size := by rw [hw₁.fields]
    have hcore : runs ip i good (do iupdate sb ip; pure (src.length : ℤ))
        (resize c₁ (max c.d.size (off + src.length))) (Writes sb i s off n c) := by
      have hsmall := h.small i hi
      rw [inodes_self] at hsmall
      have hwf : Wf sb (inodes sb i (resize c₁ (max c.d.size (off + src.length))))
          (resize c₁ (max c.d.size (off + src.length))).blk := by
        refine resize_wf hw₁.wf (by omega) fun bn hbn => ?_
        by_cases hlt : bn * BSIZE < off + src.length
        · exact hw₁.there bn hlt
        · refine hw₁.wf.dense i bn hi ?_
          rw [inodes_self, hsize]
          omega
      refine iupdate_runs (hw₁.lk.trans hl)
        (alone_pure.mpr (.inr ⟨hbad, src, rfl, hle, hb, ?_, ?_, ?_⟩))
      · intro hlt b hb'
        rw [save_used hsb hi]
        exact hfull hlt b hb'
      · refine ⟨save_wf hsb hi hwf, hw₁.lk, ?_, ?_, fun j hj hne => ?_, fun j k hs' hne => ?_,
          fun j q hj hq => ?_⟩
        · simp only [save, resize]
          rw [hw₁.fields]
        · have := hwf.fits i hi
          rw [inodes_self] at this
          exact save_self this
        · rw [save_ne hne]
          exact hw₁.disk j hj
        · rw [save_ref hsb hi hwf hs', resize_ref, hw₁.refs j k hs' hne]
        · rw [save_byteAt hsb hi hwf hj hq, resize_byteAt, hw₁.bytes j q hj hq]
      · refine save_logs hsb hi hwf (hlog.trans (fun b hb => .inl hb) fun k _ _ _ => ?_)
        exact resize_ref _ _ _ _
    by_cases hlt : c₁.d.size < off + src.length
    · rw [if_pos hlt]
      refine do_setI ?_
      rw [hsize] at hlt
      rwa [max_eq_right hlt.le] at hcore
    · rw [if_neg hlt]
      rw [hsize] at hlt
      have hself : resize c₁ c.d.size = c₁ := by
        rw [← hsize]
        rfl
      rw [max_eq_left (by omega), hself] at hcore
      exact hcore

/-! ### `itrunc` -/

/-- The references of the inode in the slots `T` are marked as free, and no other block. -/
structure Freed (sb : Superblock) (i : ℕ) (T : ℕ → Prop) (c₀ c : Core) : Prop where
  blk : ∀ b, b < sb.bmapstart ∨ sb.dataStart ≤ b → c.blk b = c₀.blk b
  marks : ∀ b < sb.size, used sb c.blk b = true ↔ used sb c₀.blk b = true ∧
    ¬ (b ≠ 0 ∧ ∃ k, T k ∧ b = ref (inodes sb i c₀) c₀.blk i k)
  log : Logs sb i ∅ c₀ c

lemma Freed.skip {T : ℕ → Prop} {k : ℕ} (h : Freed sb i T c₀ c)
    (h0 : ref (inodes sb i c₀) c₀.blk i k = 0) : Freed sb i (fun l => T l ∨ l = k) c₀ c := by
  refine ⟨h.blk, fun b hb => (h.marks b hb).trans ?_, h.log⟩
  refine and_congr_right fun _ => not_congr (and_congr_right fun hb0 => ?_)
  constructor
  · rintro ⟨l, hl, e⟩
    exact ⟨l, .inl hl, e⟩
  · rintro ⟨l, hl | rfl, e⟩
    · exact ⟨l, hl, e⟩
    · exact absurd (e.trans h0) hb0

lemma Freed.used {T : ℕ → Prop} {k : ℕ} (h : Freed sb i T c₀ c)
    (h₀ : Wf sb (inodes sb i c₀) c₀.blk) (hs : Slot sb i k) (hT : ∀ l, T l → l ≤ MAXFILE)
    (hk : ¬ T k) (h0 : ref (inodes sb i c₀) c₀.blk i k ≠ 0) :
    used sb c.blk (ref (inodes sb i c₀) c₀.blk i k) = true := by
  obtain ⟨-, h2, h3⟩ := h₀.range i k hs h0
  refine (h.marks _ h2).mpr ⟨h3, ?_⟩
  rintro ⟨-, l, hl, e⟩
  exact hk ((h₀.once i k i l hs ⟨hs.1, hT l hl⟩ h0 e).2 ▸ hl)

lemma Freed.free {T : ℕ → Prop} {k : ℕ} (h : Freed sb i T c₀ c)
    (h₀ : Wf sb (inodes sb i c₀) c₀.blk) (hs : Slot sb i k)
    (h0 : ref (inodes sb i c₀) c₀.blk i k ≠ 0) {d : Dinode} {f : ℕ → Bool} :
    Freed sb i (fun l => T l ∨ l = k) c₀
      ⟨unmark sb c.blk (ref (inodes sb i c₀) c₀.blk i k), f, d,
        insert (sb.BBLOCK (ref (inodes sb i c₀) c₀.blk i k)) c.log⟩ := by
  obtain ⟨-, h2, -⟩ := h₀.range i k hs h0
  refine ⟨fun b hb => ?_, fun b hb => ?_, h.log.quiet fun b hb => ?_⟩
  · have h3 := bblock_lt h2
    have h4 : sb.bmapstart ≤ sb.BBLOCK (ref (inodes sb i c₀) c₀.blk i k) := bmapstart_le _
    rw [← h.blk b hb]
    exact update_of_ne (by omega) _ _
  · refine used_unmark.trans (Iff.trans (and_congr_right fun _ => h.marks b hb) ?_)
    constructor
    · rintro ⟨h5, h6, h7⟩
      refine ⟨h6, ?_⟩
      rintro ⟨hb0, l, hl | rfl, e⟩
      · exact h7 ⟨hb0, l, hl, e⟩
      · exact h5 e
    · rintro ⟨h5, h6⟩
      refine ⟨?_, h5, ?_⟩
      · rintro rfl
        exact h6 ⟨h0, k, .inr rfl, rfl⟩
      · rintro ⟨hb0, l, hl, e⟩
        exact h6 ⟨hb0, l, .inl hl, e⟩
  · rcases Finset.mem_insert.mp hb with rfl | hb
    · exact .inr (bblock_mem h2)
    · exact .inl hb

lemma Freed.congr {T T' : ℕ → Prop} (h : Freed sb i T c₀ c) (hT : ∀ k, T k ↔ T' k)
    {d : Dinode} {f : ℕ → Bool} : Freed sb i T' c₀ ⟨c.blk, f, d, c.log⟩ := by
  obtain rfl : T = T' := funext fun k => propext (hT k)
  exact ⟨h.blk, h.marks, h.log.quiet fun _ hb => .inl hb⟩

def clearTo (m : ℕ) (d : Dinode) : Dinode :=
  { d with addrs := fun k => if k < m then 0 else d.addrs k }

lemma clearTo_succ (m : ℕ) (d : Dinode) : clearTo (m + 1) d =
    { clearTo m d with addrs := update (clearTo m d).addrs m 0 } := by
  have h : (clearTo (m + 1) d).addrs = update (clearTo m d).addrs m 0 := by
    funext k
    by_cases e : k = m
    · subst e
      rw [update_self]
      exact if_pos (Nat.lt_succ_self k)
    · rw [update_of_ne e]
      simp only [clearTo]
      split_ifs <;> first | rfl | omega
  rw [← h]
  rfl

lemma clearTo_skip {m : ℕ} {d : Dinode} (h : d.addrs m = 0) : clearTo (m + 1) d = clearTo m d := by
  have h0 : (clearTo m d).addrs m = 0 := (if_neg (lt_irrefl m)).trans h
  have hupd : update (clearTo m d).addrs m 0 = (clearTo m d).addrs :=
    Function.update_eq_self_iff.mpr h0.symm
  rw [clearTo_succ, hupd]

lemma truncDirect_runs {k : ℕ} (h₀ : Wf sb (inodes sb i c₀) c₀.blk) (hi : i < sb.ninodes)
    (hl : c.lk = fun _ => false) (hk : k ≤ NDIRECT)
    (hd : c.d = clearTo (NDIRECT - k) c₀.d) (h : Freed sb i (· < NDIRECT - k) c₀ c) :
    runs ip i good (truncDirect sb ip k) c fun _ c' => c'.lk = c.lk ∧
      c'.d = clearTo NDIRECT c₀.d ∧ Freed sb i (· < NDIRECT) c₀ c' := by
  induction k generalizing c with
  | zero => exact alone_pure.mpr ⟨rfl, hd, h⟩
  | succ k ih =>
    generalize hm : NDIRECT - (k + 1) = m at hd h
    have hmlt : m < NDIRECT := by omega
    have hnext : NDIRECT - k = m + 1 := by omega
    have hslot : Slot sb i m := ⟨hi, hmlt.le.trans (by decide)⟩
    have href : ref (inodes sb i c₀) c₀.blk i m = c₀.d.addrs m := by
      rw [ref, if_pos hmlt.le, inodes_self]
    have haddr : c.d.addrs m = c₀.d.addrs m := by
      rw [hd]
      exact if_neg (lt_irrefl m)
    have hT : ∀ l, l < m ∨ l = m ↔ l < NDIRECT - k := by omega
    rw [truncDirect, hm]
    refine do_getI ?_
    rw [haddr]
    split_ifs with h0
    · refine ih hl (by omega) ?_ ((h.skip (href.trans h0)).congr hT)
      rw [hnext, hd, clearTo_skip h0]
    · have hr0 : ref (inodes sb i c₀) c₀.blk i m ≠ 0 := href ▸ h0
      have hus := h.used h₀ hslot (fun l hl => by unfold MAXFILE; omega) (lt_irrefl m) hr0
      rw [href] at hus
      refine bfree_runs (by rw [hl]) hus (do_setI (ih hl (by omega) ?_ ?_))
      · rw [hnext, hd, clearTo_succ]
      · have := (h.free h₀ hslot hr0 (f := c.lk) (d := c.d)).congr hT (f := c.lk)
          (d := { c.d with addrs := update c.d.addrs m 0 })
        rwa [href] at this

lemma truncIndirect_runs {k : ℕ} {v : Block} (h₀ : Wf sb (inodes sb i c₀) c₀.blk)
    (hi : i < sb.ninodes) (hx : c₀.d.addrs NDIRECT ≠ 0) (hv : v = c₀.blk (c₀.d.addrs NDIRECT))
    (hl : ∀ b < sb.dataStart, c.lk b = false) (hk : k ≤ NINDIRECT)
    (h : Freed sb i (fun l => l < NDIRECT ∨ NDIRECT < l ∧ l < NDIRECT + 1 + (NINDIRECT - k)) c₀ c) :
    runs ip i good (truncIndirect sb v k) c fun _ c' => c'.lk = c.lk ∧ c'.d = c.d ∧
      Freed sb i (fun l => l < NDIRECT ∨ NDIRECT < l ∧ l < NDIRECT + 1 + NINDIRECT) c₀ c' := by
  induction k generalizing c with
  | zero => exact alone_pure.mpr ⟨rfl, rfl, h⟩
  | succ k ih =>
    generalize hm : NINDIRECT - (k + 1) = m at h
    have hslot : Slot sb i (NDIRECT + 1 + m) := ⟨hi, by unfold MAXFILE; omega⟩
    have href : ref (inodes sb i c₀) c₀.blk i (NDIRECT + 1 + m) = v.getLE (4 * m) 4 := by
      rw [ref, if_neg (by omega), inodes_self, if_neg hx, Nat.add_sub_cancel_left, hv]
    have hT : ∀ l, (l < NDIRECT ∨ NDIRECT < l ∧ l < NDIRECT + 1 + m) ∨ l = NDIRECT + 1 + m ↔
        l < NDIRECT ∨ NDIRECT < l ∧ l < NDIRECT + 1 + (NINDIRECT - k) := by omega
    rw [truncIndirect, hm]
    split_ifs with h0
    · exact ih hl (by omega) ((h.skip (href.trans h0)).congr hT)
    · have hr0 : ref (inodes sb i c₀) c₀.blk i (NDIRECT + 1 + m) ≠ 0 := href ▸ h0
      have hus := h.used h₀ hslot (fun l hl => by unfold MAXFILE; omega) (by omega) hr0
      have hlt := (h₀.range i _ hslot hr0).2.1
      rw [href] at hus hlt
      refine bfree_runs (hl _ (bblock_lt hlt)) hus (ih hl (by omega) ?_)
      have := (h.free h₀ hslot hr0 (f := c.lk) (d := c.d)).congr hT (f := c.lk) (d := c.d)
      rwa [href] at this

/-- What `itrunc` leaves: the inode has no blocks, those it had are free, and nothing else has
changed. -/
structure Truncated (sb : Superblock) (i : ℕ) (c c' : Core) : Prop where
  wf : Wf sb (inodes sb i c') c'.blk
  lk : c'.lk = c.lk
  fields : c'.d = { c.d with addrs := fun _ => 0, size := 0 }
  saved : inode sb c'.blk i = c'.d
  others : ∀ j, j < sb.ninodes → j ≠ i → inode sb c'.blk j = inode sb c.blk j
  data : ∀ b, sb.dataStart ≤ b → c'.blk b = c.blk b
  refs : ∀ j k, Slot sb j k → j ≠ i →
    ref (inodes sb i c') c'.blk j k = ref (inodes sb i c) c.blk j k
  bytes : ∀ j q, j < sb.ninodes → q < MAXFILE * BSIZE → j ≠ i →
    byteAt (inodes sb i c') c'.blk j q = byteAt (inodes sb i c) c.blk j q
  marks : ∀ b < sb.size, used sb c'.blk b = true ↔ used sb c.blk b = true ∧
    ¬ (b ≠ 0 ∧ ∃ k ≤ MAXFILE, b = ref (inodes sb i c) c.blk i k)
  log : Logs sb i ∅ c c'

lemma Truncated.forget {c' : Core} (h : Truncated sb i c c') :
    Truncated sb i c { c' with log := ∅ } :=
  ⟨h.wf, h.lk, h.fields, h.saved, h.others, h.data, h.refs, h.bytes, h.marks,
    fun b hb => absurd hb (Finset.notMem_empty b)⟩

lemma truncated_of {x : Core} (hsb : sb.Ok) (h : Wf sb (inodes sb i c) c.blk)
    (hi : i < sb.ninodes) (hl : x.lk = c.lk)
    (hd : x.d = { c.d with addrs := fun _ => 0, size := 0 })
    (hf : Freed sb i (· ≤ MAXFILE) c x) : Truncated sb i c (save sb i x) := by
  have hle : sb.bmapstart ≤ sb.dataStart := by
    rw [Superblock.dataStart, add_assoc]
    exact Nat.le_add_right _ _
  have hother : ∀ j, j < sb.ninodes → j ≠ i → inode sb x.blk j = inode sb c.blk j := by
    intro j hj hne
    rw [inode, hf.blk _ (.inl (iblock_lt hsb hj)), inode]
  have hzero : ∀ k, ref (inodes sb i x) x.blk i k = 0 := by
    intro k
    rw [ref, inodes_self, hd]
    split_ifs with h1 h2
    · rfl
    · rfl
    · exact absurd rfl h2
  have hrefs : ∀ j k, Slot sb j k → j ≠ i →
      ref (inodes sb i x) x.blk j k = ref (inodes sb i c) c.blk j k := by
    intro j k hs hj
    refine ref_congr ?_ (fun h0 => hf.blk _ (.inr (h.ind_range hs.1 h0).1)) k
    rw [inodes_ne hj, inodes_ne hj, hother j hs.1 hj]
  have hfits : (x.d).Fits := by
    have hc := h.fits i hi
    rw [inodes_self] at hc
    rw [hd]
    exact ⟨hc.type, hc.major, hc.minor, hc.nlink, by norm_num, fun _ => by norm_num,
      fun _ _ => rfl⟩
  have hwf : Wf sb (inodes sb i x) x.blk := by
    refine ⟨fun j k hs h0 => ?_, fun j k j' l hs hs' h0 he => ?_, fun b hb => ?_,
      fun j bn hj hbn => ?_, fun j hj => ?_, fun j hj => ?_⟩
    · have hj : j ≠ i := fun e => h0 (e ▸ hzero k)
      rw [hrefs j k hs hj] at h0 ⊢
      obtain ⟨h1, h2, h3⟩ := h.range j k hs h0
      refine ⟨h1, h2, (hf.marks _ h2).mpr ⟨h3, ?_⟩⟩
      rintro ⟨-, l, hl', e⟩
      exact hj (h.once j k i l hs ⟨hi, hl'⟩ h0 e).1
    · have hj : j ≠ i := fun e => h0 (e ▸ hzero k)
      have hj' : j' ≠ i := fun e => h0 (he.trans (e ▸ hzero l))
      rw [hrefs j k hs hj] at h0 he
      rw [hrefs j' l hs' hj'] at he
      exact h.once j k j' l hs hs' h0 he
    · refine (hf.marks b (hb.trans_le hsb.data)).mpr ⟨h.low b hb, ?_⟩
      rintro ⟨hb0, l, hl', rfl⟩
      have := (h.range i l ⟨hi, hl'⟩ hb0).1
      omega
    · by_cases e : j = i
      · rw [e, inodes_self, hd] at hbn
        exact absurd hbn (Nat.not_lt_zero _)
      · have hd' := h.dense j bn hj
        have hsm := h.small j hj
        rw [inodes_ne e] at hbn hd' hsm
        rw [hother j hj e] at hbn
        have hmax : bn < MAXFILE := Nat.lt_of_mul_lt_mul_right (hbn.trans_le hsm)
        rw [addr, hrefs j _ (slot_addr hj hmax) e]
        exact hd' hbn
    · by_cases e : j = i
      · rw [e, inodes_self, hd]
        exact Nat.zero_le _
      · have hsm := h.small j hj
        rw [inodes_ne e] at hsm ⊢
        rwa [hother j hj e]
    · by_cases e : j = i
      · rw [e, inodes_self]
        exact hfits
      · rw [inodes_ne e]
        exact Dinode.get_fits _ _
  refine ⟨save_wf hsb hi hwf, hl, hd, save_self hfits, fun j hj hne => ?_, fun b hb => ?_,
    fun j k hs hne => ?_, fun j q hj hq hne => ?_, fun b hb => ?_, save_logs hsb hi hwf hf.log⟩
  · rw [save_ne hne, hother j hj hne]
  · rw [save_data hsb hi (hle.trans hb), hf.blk b (.inr hb)]
  · rw [save_ref hsb hi hwf hs, hrefs j k hs hne]
  · have ha : addr (inodes sb i x) x.blk j (q / BSIZE) = addr (inodes sb i c) c.blk j (q / BSIZE) :=
      hrefs j _ (slot_addr hj (div_lt hq)) hne
    rw [save_byteAt hsb hi hwf hj hq, byteAt, byteAt, ha]
    split_ifs with h0
    · rfl
    · rw [hf.blk _ (.inr (h.addr_range hj (div_lt hq) h0).1)]
  · rw [save_used hsb hi]
    exact hf.marks b hb

lemma clearTo_all {d : Dinode} (h : d.Fits) (h0 : d.addrs NDIRECT = 0) :
    (clearTo NDIRECT d).addrs = fun _ => 0 := by
  funext k
  simp only [clearTo]
  split_ifs with hk
  · rfl
  · by_cases e : k = NDIRECT
    · rw [e, h0]
    · exact h.rest k (by omega)

theorem itrunc_runs (hsb : sb.Ok) (h : Wf sb (inodes sb i c) c.blk) (hi : i < sb.ninodes)
    (hl : c.lk = fun _ => false) :
    runs ip i good (itrunc sb ip) c fun _ c' => Truncated sb i c c' := by
  have hfits := h.fits i hi
  rw [inodes_self] at hfits
  have hmax : MAXFILE = NDIRECT + NINDIRECT := rfl
  have hstart : Freed sb i (· < NDIRECT - NDIRECT) c c :=
    ⟨fun _ _ => rfl, fun b _ => ⟨fun hu => ⟨hu, by rintro ⟨-, k, hk, -⟩; omega⟩, And.left⟩,
      Logs.refl _ _⟩
  rw [itrunc]
  refine (truncDirect_runs h hi hl le_rfl rfl hstart).seq ?_
  rintro _ c₁ ⟨hl₁, hd₁, hf₁⟩
  refine do_getI ?_
  have h12 : c₁.d.addrs NDIRECT = c.d.addrs NDIRECT := by
    rw [hd₁]
    simp only [clearTo, lt_irrefl, if_false]
  rw [h12]
  split_ifs with h0
  · refine do_setI (iupdate_last (hl₁.trans hl) (truncated_of hsb h hi hl₁ ?_ ?_))
    · simp only [hd₁]
      rw [clearTo_all hfits h0]
      rfl
    · refine ⟨hf₁.blk, fun b hb => (hf₁.marks b hb).trans ?_, hf₁.log.quiet fun _ hb => .inl hb⟩
      refine and_congr_right fun _ => not_congr (and_congr_right fun hb0 => ?_)
      constructor
      · rintro ⟨k, hk, e⟩
        exact ⟨k, by omega, e⟩
      · rintro ⟨k, -, e⟩
        refine ⟨k, ?_, e⟩
        by_contra hk
        rw [ref, inodes_self] at e
        split_ifs at e with h1
        · exact hb0 (e.trans (by rw [show k = NDIRECT by omega, h0]))
        · exact hb0 e
  · have hxr := h.ind_range hi (by rw [inodes_self]; exact h0)
    rw [inodes_self] at hxr
    have hlx : c₁.lk (c.d.addrs NDIRECT) = false := by rw [hl₁, hl]
    refine do_bread hlx ((truncIndirect_runs h hi h0 (hf₁.blk _ (.inr hxr.1)) ?_ le_rfl ?_).seq ?_)
    · intro b hb
      have hne : b ≠ c.d.addrs NDIRECT := by omega
      simp only [update_of_ne hne, hl₁, hl]
    · exact hf₁.congr fun l => by omega
    · rintro _ ⟨blk₂, lk₂, d₂, log₂⟩ ⟨hl₂, hd₂, hf₂⟩
      obtain rfl : lk₂ = update c₁.lk (c.d.addrs NDIRECT) true := hl₂
      obtain rfl : d₂ = c₁.d := hd₂
      have href : ref (inodes sb i c) c.blk i NDIRECT = c.d.addrs NDIRECT := by
        rw [ref_ind, inodes_self]
      have hus := hf₂.used h (slot_ind hi) (fun l hl => by omega) (by omega)
        (by rw [href]; exact h0)
      have hfree := hf₂.free h (slot_ind hi) (by rw [href]; exact h0) (f := c₁.lk) (d := c₁.d)
      rw [href] at hus hfree
      refine do_leave (c := ⟨blk₂, c₁.lk, c₁.d, log₂⟩) hlx (bfree_runs (by simp only [hl₁, hl]) hus
        (do_setI (iupdate_last (hl₁.trans hl) (truncated_of hsb h hi hl₁ ?_
          (hfree.congr fun l => by omega)))))
      have hall : update c₁.d.addrs NDIRECT 0 = fun _ => 0 := by
        rw [hd₁]
        exact (congrArg Dinode.addrs (clearTo_succ NDIRECT c.d)).symm.trans (by
          funext k
          simp only [clearTo]
          split_ifs with hk
          · rfl
          · exact hfits.rest k (by omega))
      simp only [hall]
      rw [hd₁]
      rfl

end Xv6.FsWrite
