import Xv6.Hoare
import Xv6.MkfsImage

/-!
What `iappend` does to an image.
-/

namespace Xv6.MkfsAppend

open Function Bytes FsLayout Params MkfsModel MkfsImage Hoare

variable {fb i j k q bn fbn x : ℕ} {ino : ℕ → Dinode} {d : Disk} {din : Dinode} {s : St}
variable {E : Err → Prop}

lemma wpOr_rsect {sec : ℕ} {Q : Block → St → Prop} (h : sec < s.sectors → Q (s.disk sec) s)
    (hE : s.sectors ≤ sec → E .die) : wpOr E (rsect sec) s Q := by
  simp only [rsect, wpOr_bind, wpOr_get]
  split_ifs with hs
  · exact wpOr_pure.mpr (h hs)
  · exact wpOr_throw_iff.mpr (hE (by omega))

/-! ### A new reference -/

lemma word_zeroes (m : ℕ) : word zeroes m = 0 := Buf.getLE_fill_zero _ _

lemma ref_setAddr {f : ℕ → Dinode} (hk : k ≤ NDIRECT) (h0 : din.addrs k = 0) (hz : d x = zeroes)
    (j l : ℕ) :
    ref (update f i { din with addrs := update din.addrs k x }) d j l =
      if j = i ∧ l = k then x else ref (update f i din) d j l := by
  by_cases hj : j = i
  · subst hj
    simp only [ref, update_self, true_and]
    by_cases hl : l ≤ NDIRECT
    · rw [if_pos hl, if_pos hl, update_apply]
    · have hlk : l ≠ k := by omega
      rw [if_neg hl, if_neg hl, if_neg hlk]
      by_cases hN : k = NDIRECT
      · subst hN
        rw [update_self, h0, if_pos rfl, hz, word_zeroes]
        simp
      · rw [update_of_ne (Ne.symm hN)]
  · rw [if_neg (fun h => hj h.1)]
    simp only [ref, update_of_ne hj]

lemma ref_setWord {m : ℕ} (h : Refs (ref ino d) fb) (hi : i < NINODES)
    (hib : (ino i).addrs NDIRECT ≠ 0) (hx : x < 2 ^ 32) (hj : j < NINODES) (l : ℕ)
    (hl : l ≤ MAXFILE) :
    ref ino (update d ((ino i).addrs NDIRECT)
      ((d ((ino i).addrs NDIRECT)).setLE (4 * m) 4 x)) j l =
      if j = i ∧ l = NDIRECT + 1 + m then x else ref ino d j l := by
  unfold ref
  by_cases h1 : l ≤ NDIRECT
  · rw [if_pos h1, if_pos h1, if_neg (by omega)]
  · rw [if_neg h1, if_neg h1]
    by_cases h2 : (ino j).addrs NDIRECT = 0
    · rw [if_pos h2, if_pos h2, if_neg]
      rintro ⟨rfl, -⟩
      exact hib h2
    · rw [if_neg h2, if_neg h2]
      by_cases hji : j = i
      · subst hji
        have hb : 4 * (l - (NDIRECT + 1)) + 4 ≤ BSIZE := by
          simp only [MAXFILE, NDIRECT, NINDIRECT, BSIZE] at *
          omega
        rw [update_self, word]
        by_cases hlm : l = NDIRECT + 1 + m
        · subst hlm
          rw [if_pos ⟨rfl, rfl⟩, Nat.add_sub_cancel_left,
            Buf.getLE_setLE_of_lt _ (by rw [Nat.add_sub_cancel_left] at hb; exact hb)
              (by norm_num at hx ⊢; exact hx)]
        · rw [if_neg (fun h => hlm h.2), Buf.getLE_setLE_disjoint _ (by omega)]
          rfl
      · rw [update_of_ne, if_neg (fun h => hji h.1)]
        intro he
        have := h.once j _ i _ (slot_ind hj) (slot_ind hi) (by rw [ref_ind]; exact h2)
          (by rw [ref_ind, ref_ind]; exact he)
        exact hji this.1

/-! ### The block of a file -/

structure Found (ino : ℕ → Dinode) (d : Disk) (fb i fbn : ℕ) (ino' : ℕ → Dinode) (d' : Disk)
    (fb' x : ℕ) : Prop where
  refs : Refs (ref ino' d') fb'
  zero : ∀ b, fb' ≤ b → d' b = zeroes
  here : addr ino' d' i fbn = x
  nonzero : x ≠ 0
  other : ∀ j bn, j < NINODES → bn < MAXFILE → ¬(j = i ∧ bn = fbn) →
    addr ino' d' j bn = addr ino d j bn
  ind : (ino' i).addrs NDIRECT ≠ 0 ↔ (ino i).addrs NDIRECT ≠ 0 ∨ NDIRECT ≤ fbn
  data : ∀ j bn, j < NINODES → bn < MAXFILE → addr ino d j bn ≠ 0 →
    d' (addr ino d j bn) = d (addr ino d j bn)
  fresh : addr ino d i fbn = 0 → d' x = zeroes
  keep : addr ino d i fbn ≠ 0 → x = addr ino d i fbn
  low : ∀ b, b < nmeta → d' b = d b
  mono : fb ≤ fb' ∧ fb' ≤ fb + 2 ∧ x < fb'
  last : fb' = fb ∧ addr ino d i fbn ≠ 0 ∨ fb' = x + 1

def taken (s : St) : St := { s with freeblock := s.freeblock + 1 }

lemma wpOr_takeBlock {Q : ℕ → St → Prop} : wpOr E takeBlock s Q ↔ Q s.freeblock (taken s) := by
  simp only [takeBlock, wpOr_bind, wpOr_get, wpOr_modify, wpOr_pure, taken]

lemma fits_setAddr (h : din.Fits) (hk : k ≤ NDIRECT) (hx : x < 2 ^ 32) :
    ({ din with addrs := update din.addrs k x } : Dinode).Fits := by
  refine { h with addrs := fun l => ?_, rest := fun l hl => ?_ }
  · change update din.addrs k x l < 2 ^ 32
    rw [update_apply]
    split_ifs
    · exact hx
    · exact h.addrs l
  · change update din.addrs k x l = 0
    rw [update_of_ne (by omega)]
    exact h.rest l hl

lemma slotOf_direct (h : fbn < NDIRECT) : slotOf fbn = fbn := if_pos h

lemma slotOf_indirect (h : NDIRECT ≤ fbn) : slotOf fbn = NDIRECT + 1 + (fbn - NDIRECT) := by
  rw [slotOf, if_neg (by omega)]
  omega

/-- What holds of the image when `fileBlock` is called. -/
structure Ready (ino : ℕ → Dinode) (s : St) : Prop where
  refs : Refs (ref ino s.disk) s.freeblock
  zero : ∀ b, s.freeblock ≤ b → s.disk b = zeroes
  low : nmeta ≤ s.freeblock
  room : s.freeblock ≤ FSSIZE + 1
  sectors : s.sectors = FSSIZE

lemma Found.refl {ino : ℕ → Dinode} (h : Ready ino s) (hi : i < NINODES) (hfbn : fbn < MAXFILE)
    (h0 : addr ino s.disk i fbn ≠ 0)
    (hind : NDIRECT ≤ fbn → (ino i).addrs NDIRECT ≠ 0) :
    Found ino s.disk s.freeblock i fbn ino s.disk s.freeblock (addr ino s.disk i fbn) :=
  ⟨h.refs, h.zero, rfl, h0, fun _ _ _ _ _ => rfl,
    ⟨Or.inl, fun hx => hx.elim id hind⟩, fun _ _ _ _ _ => rfl, fun hx => absurd hx h0, fun _ => rfl,
    fun _ _ => rfl, ⟨le_rfl, Nat.le_add_right _ _, (h.refs.addr_range hi hfbn h0).2⟩,
    .inl ⟨rfl, h0⟩⟩

lemma lt_two_pow (h : x ≤ FSSIZE + 1) : x < 2 ^ 32 := by
  have : FSSIZE = 2000 := rfl
  omega

lemma Found.direct (h : Ready (update ino i din) s) (hi : i < NINODES)
    (hfbn : fbn < NDIRECT) (h0 : din.addrs fbn = 0) :
    Found (update ino i din) s.disk s.freeblock i fbn
      (update ino i { din with addrs := update din.addrs fbn s.freeblock }) s.disk
      (s.freeblock + 1) s.freeblock := by
  have hpos : s.freeblock ≠ 0 := by
    have := h.low
    have := nmeta_eq
    omega
  have href := ref_setAddr (f := ino) (i := i) hfbn.le h0 (h.zero s.freeblock le_rfl)
  have hmax : fbn < MAXFILE := hfbn.trans_le (by decide)
  have hself : ref (update ino i din) s.disk i fbn = 0 := by
    rw [ref, if_pos hfbn.le, update_self, h0]
  refine ⟨h.refs.add (i := i) (k := fbn) ⟨hi, by omega⟩ hself h.low ?_ fun j l hs hx => ?_,
    fun b hb => h.zero b (by omega), ?_, hpos, fun j bn hj hbn hx => ?_, ?_, fun _ _ _ _ _ => rfl,
    fun _ => h.zero _ le_rfl, fun hx => ?_, fun _ _ => rfl, by omega, .inr rfl⟩
  · rw [href, if_pos ⟨rfl, rfl⟩]
  · rw [href, if_neg hx]
  · rw [addr, slotOf_direct hfbn, href, if_pos ⟨rfl, rfl⟩]
  · rw [addr, href, if_neg]
    · rfl
    · rintro ⟨rfl, hl⟩
      rw [← slotOf_direct hfbn] at hl
      exact hx ⟨rfl, slotOf_inj hl⟩
  · simp only [update_self]
    rw [update_of_ne (by omega : NDIRECT ≠ fbn)]
    refine ⟨Or.inl, fun hx => hx.elim id fun hle => absurd hfbn (by omega)⟩
  · refine absurd ?_ hx
    rw [addr, slotOf_direct hfbn]
    exact hself

/-- The indirect block is taken: no file has a new block yet. -/
lemma Ready.takeInd (h : Ready (update ino i din) s) (hi : i < NINODES)
    (h0 : din.addrs NDIRECT = 0) :
    Refs (ref (update ino i
      { din with addrs := update din.addrs NDIRECT s.freeblock }) s.disk)
      (s.freeblock + 1) ∧ ∀ j bn, addr (update ino i
        { din with addrs := update din.addrs NDIRECT s.freeblock }) s.disk j bn =
        addr (update ino i din) s.disk j bn := by
  have href := ref_setAddr (f := ino) (i := i) le_rfl h0 (h.zero s.freeblock le_rfl)
  refine ⟨h.refs.add (slot_ind hi) ?_ h.low ?_ fun j l hs hx => ?_, fun j bn => ?_⟩
  · rw [ref_ind, update_self, h0]
  · rw [href, if_pos ⟨rfl, rfl⟩]
  · rw [href, if_neg hx]
  · rw [addr, href, if_neg fun hx => slotOf_ne bn hx.2]
    rfl

lemma Found.indirect {ino : ℕ → Dinode} (h : Ready ino s) (hi : i < NINODES)
    (hfbn : NDIRECT ≤ fbn) (hmax : fbn < MAXFILE) (hib : (ino i).addrs NDIRECT ≠ 0)
    (h0 : addr ino s.disk i fbn = 0) :
    Found ino s.disk s.freeblock i fbn ino (update s.disk ((ino i).addrs NDIRECT)
      ((s.disk ((ino i).addrs NDIRECT)).setLE (4 * (fbn - NDIRECT)) 4 s.freeblock))
      (s.freeblock + 1) s.freeblock := by
  have hpos : s.freeblock ≠ 0 := by
    have := h.low
    have := nmeta_eq
    omega
  have href : ∀ j l, Slot j l → _ := fun j l hs =>
    ref_setWord (m := fbn - NDIRECT) (x := s.freeblock) h.refs hi hib
      (lt_two_pow h.room) hs.1 l hs.2
  have hslot := slotOf_indirect hfbn
  have hrange := h.refs.range i _ (slot_ind hi) (by rw [ref_ind]; exact hib)
  rw [ref_ind] at hrange
  have hne : ∀ b, b ≠ (ino i).addrs NDIRECT → update s.disk ((ino i).addrs NDIRECT)
      ((s.disk ((ino i).addrs NDIRECT)).setLE (4 * (fbn - NDIRECT)) 4 s.freeblock) b = s.disk b :=
    fun b hb => update_of_ne hb ..
  refine ⟨h.refs.add (slot_addr hi hmax) h0 h.low ?_ fun j l hs hx => ?_, fun b hb => ?_, ?_, hpos,
    fun j bn hj hbn hx => ?_, ⟨Or.inl, fun _ => hib⟩, fun j bn hj hbn hx => ?_, fun _ => ?_,
    fun hx => absurd h0 hx, fun b hb => hne b (by omega), by omega, .inr rfl⟩
  · rw [href _ _ (slot_addr hi hmax), if_pos ⟨rfl, hslot⟩]
  · rw [href _ _ hs, if_neg]
    rw [← hslot]
    exact hx
  · rw [hne b (by omega)]
    exact h.zero b (by omega)
  · rw [addr, href _ _ (slot_addr hi hmax), if_pos ⟨rfl, hslot⟩]
  · rw [addr, href _ _ (slot_addr hj hbn), if_neg]
    · rfl
    · rintro ⟨rfl, hl⟩
      rw [← hslot] at hl
      exact hx ⟨rfl, slotOf_inj hl⟩
  · exact hne _ (h.refs.addr_ne_ind hj hi hbn hx)
  · rw [hne _ (by omega)]
    exact h.zero _ le_rfl

lemma Found.after {ino ino₁ ino' : ℕ → Dinode} {d' : Disk} {fb' : ℕ}
    (haddr : ∀ j bn, addr ino₁ d j bn = addr ino d j bn) (h0 : addr ino d i fbn = 0)
    (hind : NDIRECT ≤ fbn) (hib : (ino₁ i).addrs NDIRECT ≠ 0)
    (h : Found ino₁ d (fb + 1) i fbn ino' d' fb' x) (hle : fb' ≤ fb + 2) :
    Found ino d fb i fbn ino' d' fb' x := by
  obtain ⟨h1, h2, h3, h4, h5, h6, h7, h8, h9, h10, h11, h12⟩ := h
  simp only [haddr] at h5 h7 h8 h9 h12
  refine ⟨h1, h2, h3, h4, h5, ⟨fun _ => .inr hind, fun _ => h6.mpr (.inl hib)⟩, h7, h8, h9, h10,
    ⟨by omega, hle, h11.2.2⟩, .inr ?_⟩
  rcases h12 with ⟨-, h12⟩ | h12
  · exact absurd h0 h12
  · exact h12

def Result (ino : ℕ → Dinode) (s : St) (i fbn : ℕ) (din : Dinode) (r : Dinode × ℕ) (t : St) :
    Prop :=
  Found (update ino i din) s.disk s.freeblock i fbn (update ino i r.1) t.disk
    t.freeblock r.2 ∧ r.1.Fits ∧ t.sectors = s.sectors ∧ t.freeinode = s.freeinode

lemma addr_indirect {ino : ℕ → Dinode} (hfbn : NDIRECT ≤ fbn) (hib : (ino i).addrs NDIRECT ≠ 0) :
    addr ino d i fbn = word (d ((ino i).addrs NDIRECT)) (fbn - NDIRECT) := by
  rw [addr, slotOf_indirect hfbn, ref, if_neg (by omega), if_neg hib, Nat.add_sub_cancel_left]

lemma wp_indirect (h : Ready (update ino i din) s) (hi : i < NINODES)
    (hfbn : NDIRECT ≤ fbn) (hmax : fbn < MAXFILE) (hfits : din.Fits)
    (hib : din.addrs NDIRECT ≠ 0) (hE : FSSIZE < s.freeblock + 1 → E .die)
    (hlt : din.addrs NDIRECT < s.freeblock) :
    wpOr E (do
      let indirect ← rsect (din.addrs NDIRECT)
      if word indirect (fbn - NDIRECT) = 0 then do
        let x ← takeBlock
        wsect (din.addrs NDIRECT) (indirect.setLE (4 * (fbn - NDIRECT)) 4 x)
        pure (din, x)
      else pure (din, word indirect (fbn - NDIRECT))) s fun r t =>
      Result ino s i fbn din r t ∧ t.freeblock ≤ s.freeblock + 1 := by
  rw [wpOr_bind]
  have hself : (update ino i din i).addrs NDIRECT = din.addrs NDIRECT := by
    rw [update_self]
  have haddr := addr_indirect (d := s.disk) hfbn (by rw [hself]; exact hib)
  rw [hself] at haddr
  refine wpOr_rsect (fun hs => ?_) fun hs => ?_
  · by_cases h0 : word (s.disk (din.addrs NDIRECT)) (fbn - NDIRECT) = 0
    · rw [if_pos h0, wpOr_bind, wpOr_takeBlock, wpOr_bind, wsect, wpOr_modify, wpOr_pure]
      have hfound := Found.indirect h hi hfbn hmax (by rw [hself]; exact hib) (by rw [haddr, h0])
      rw [hself] at hfound
      refine ⟨⟨hfound, hfits, ?_, rfl⟩, le_rfl⟩
      exact max_eq_left hs
    · rw [if_neg h0, wpOr_pure]
      rw [← haddr] at h0 ⊢
      exact ⟨⟨Found.refl h hi hmax h0 fun _ => by rw [hself]; exact hib, hfits, rfl, rfl⟩,
        Nat.le_succ _⟩
  · rw [h.sectors] at hs
    exact hE (by omega)

/-- **The block of a file.** `fileBlock` finds or takes the block, unless the disk is full. -/
lemma wp_fileBlock (h : Ready (update ino i din) s) (hi : i < NINODES)
    (hmax : fbn < MAXFILE) (hfits : din.Fits) (hE : FSSIZE < s.freeblock + 2 → E .die) :
    wpOr E (fileBlock din fbn) s (Result ino s i fbn din) := by
  have hself : (update ino i din i).addrs NDIRECT = din.addrs NDIRECT := by
    rw [update_self]
  unfold fileBlock
  by_cases hlt : fbn < NDIRECT
  · rw [if_pos hlt]
    by_cases h0 : din.addrs fbn = 0
    · rw [if_pos h0, wpOr_bind, wpOr_takeBlock, wpOr_pure]
      exact ⟨Found.direct h hi hlt h0, fits_setAddr hfits hlt.le (lt_two_pow h.room), rfl, rfl⟩
    · rw [if_neg h0, wpOr_pure]
      have haddr : addr (update ino i din) s.disk i fbn = din.addrs fbn := by
        rw [addr, slotOf_direct hlt, ref, if_pos hlt.le, update_self]
      rw [← haddr] at h0 ⊢
      exact ⟨Found.refl h hi hmax h0 fun hx => absurd hlt (by omega), hfits, rfl, rfl⟩
  · rw [if_neg hlt]
    dsimp only
    by_cases h0 : din.addrs NDIRECT = 0
    · rw [if_pos h0, wpOr_bind, wpOr_takeBlock, wpOr_bind, wpOr_pure]
      obtain ⟨hrefs, haddr⟩ := h.takeInd hi h0
      have hpos : s.freeblock ≠ 0 := by
        have := h.low
        have := nmeta_eq
        omega
      have hnone : addr (update ino i din) s.disk i fbn = 0 := by
        rw [addr, slotOf_indirect (by omega), ref, if_neg (by omega), hself, if_pos h0]
      have hibs : ({ din with addrs := update din.addrs NDIRECT s.freeblock } :
          Dinode).addrs NDIRECT = s.freeblock := by simp
      by_cases hroom : FSSIZE < s.freeblock + 1
      · -- no room for the indirect block
        rw [wpOr_bind]
        refine wpOr_rsect (fun hs => ?_) fun _ => hE (by omega)
        rw [hibs] at hs
        change s.freeblock < s.sectors at hs
        rw [h.sectors] at hs
        omega
      · have hready : Ready (update ino i
            { din with addrs := update din.addrs NDIRECT s.freeblock }) (taken s) :=
          ⟨hrefs, fun b hb => h.zero b (by change s.freeblock + 1 ≤ b at hb; omega),
            h.low.trans (Nat.le_succ _), by change s.freeblock + 1 ≤ _; omega, h.sectors⟩
        have hlow : s.freeblock < (taken s).freeblock := Nat.lt_succ_self _
        refine (wp_indirect hready hi (by omega) hmax
          (fits_setAddr hfits le_rfl (lt_two_pow h.room)) (by rw [hibs]; exact hpos)
          (fun hx => hE hx) (by rw [hibs]; exact hlow)).mono fun r t ht => ?_
        obtain ⟨⟨hf, h1, h2, h3⟩, h4⟩ := ht
        refine ⟨Found.after haddr hnone (by omega) ?_ hf h4, h1, h2, h3⟩
        rw [update_self, hibs]
        exact hpos
    · rw [if_neg h0, wpOr_bind, wpOr_pure]
      have hlt' : din.addrs NDIRECT < s.freeblock := by
        have := (h.refs.range i _ (slot_ind hi) (by rw [ref_ind, hself]; exact h0)).2
        rwa [ref_ind, hself] at this
      exact (wp_indirect h hi (by omega) hmax hfits h0 (fun hx => hE (by omega)) hlt').mono
        fun r t ht => ht.1

/-! ### One round -/

lemma get_patch (b : Block) {off k : ℕ} (l : List UInt8) (hk : k < BSIZE) :
    (patch b off l).get k = if off ≤ k ∧ k < off + l.length then l.getD
      (k - off) 0 else b.get k := by
  rw [Buf.get_of_lt _ hk, Buf.get_of_lt _ hk, patch]
  split_ifs <;> simp

/-- The inode with its size, as the loop of `iappend` will leave it. -/
def sized (ino : ℕ → Dinode) (i : ℕ) (din : Dinode) (off : ℕ) : ℕ → Dinode :=
  update ino i { din with size := off }

lemma ref_sized (ino : ℕ → Dinode) (din : Dinode) (off : ℕ) (d : Disk) (i j k : ℕ) :
    ref (sized ino i din off) d j k = ref (update ino i din) d j k := by
  refine ref_congr (fun l => ?_) (fun _ => rfl) k
  by_cases e : j = i
  · subst e
    rw [sized, update_self, update_self]
  · rw [sized, update_of_ne e, update_of_ne e]

lemma ready_of_img {off : ℕ} (h : Img (sized ino i din off) s.disk s.freeblock)
    (hs : s.sectors = FSSIZE) : Ready (update ino i din) s :=
  ⟨h.refs.congr fun j k _ => (ref_sized ino din off s.disk i j k).symm, h.zero, h.room.1,
    h.room.2.trans (Nat.le_succ _), hs⟩

/-- What is in the files after bytes have been appended to file `i`. -/
structure Grown (ino : ℕ → Dinode) (d : Disk) (i : ℕ) (l : List UInt8) (ino' : ℕ → Dinode)
    (d' : Disk) : Prop where
  same : ∀ j q, j < NINODES → j ≠ i → q < (ino j).size → byteAt ino' d' j q = byteAt ino d j q
  sizes : ∀ j, j < NINODES → j ≠ i → ino' j = ino j
  size : (ino' i).size = (ino i).size + l.length
  old : ∀ q, q < (ino i).size → byteAt ino' d' i q = byteAt ino d i q
  new : ∀ q, q < l.length → byteAt ino' d' i ((ino i).size + q) = l.getD q 0

lemma Grown.trans {ino ino₁ ino₂ : ℕ → Dinode} {d d₁ d₂ : Disk} {l l' : List UInt8}
    (h : Grown ino d i l ino₁ d₁) (h' : Grown ino₁ d₁ i l' ino₂ d₂) :
    Grown ino d i (l ++ l') ino₂ d₂ := by
  refine ⟨fun j q hj hne hq => ?_, fun j hj hne => ?_, ?_, fun q hq => ?_, fun q hq => ?_⟩
  · rw [h'.same j q hj hne (by rw [h.sizes j hj hne]; exact hq), h.same j q hj hne hq]
  · rw [h'.sizes j hj hne, h.sizes j hj hne]
  · rw [h'.size, h.size, List.length_append]
    omega
  · rw [h'.old q (by rw [h.size]; omega), h.old q hq]
  · by_cases hlt : q < l.length
    · rw [h'.old _ (by rw [h.size]; omega), h.new q hlt, List.getD_append _ _ _ _ hlt]
    · rw [List.length_append] at hq
      have := h'.new (q - l.length) (by omega)
      rw [h.size] at this
      rw [List.getD_append_right _ _ _ _ (by omega), ← this]
      congr 1
      omega

section Round

variable {off n1 : ℕ} {p : List UInt8} {r : Dinode × ℕ} {t : St}

def written (t : St) (x off : ℕ) (l : List UInt8) : Disk :=
  update t.disk x (patch (t.disk x) (off - off / BSIZE * BSIZE) l)

lemma round_addr (hf : Refs (ref (update ino i r.1) t.disk) fb) (hi : i < NINODES)
    (hmax : off / BSIZE < MAXFILE)
    (hx : addr (update ino i r.1) t.disk i (off / BSIZE) = r.2) (h0 : r.2 ≠ 0)
      {l : List UInt8}
    {sz : ℕ} (hj : j < NINODES) (k : ℕ) :
    ref (sized ino i r.1 sz) (written t r.2 off l) j k =
      ref (update ino i r.1) t.disk j k := by
  rw [ref_sized]
  refine ref_congr (fun _ => rfl) (fun _ => ?_) k
  rw [written, update_of_ne]
  rw [← hx] at h0 ⊢
  exact (hf.addr_ne_ind hi hj hmax h0).symm

lemma round_byte (h : Img (sized ino i din off) s.disk s.freeblock)
    (hf : Found (update ino i din) s.disk s.freeblock i (off / BSIZE)
      (update ino i r.1) t.disk t.freeblock r.2) (hi : i < NINODES)
    (hmax : off / BSIZE < MAXFILE) {l : List UInt8} {sz : ℕ} (hj : j < NINODES)
    (hq : q / BSIZE < MAXFILE) (hz : addr (sized ino i din off) s.disk j (q / BSIZE) ≠ 0 ∨
      j = i ∧ q / BSIZE = off / BSIZE ∧ off ≤ q) :
    byteAt (sized ino i r.1 sz) (written t r.2 off l) j q =
      if j = i ∧ off ≤ q ∧ q < off + l.length ∧ q / BSIZE = off / BSIZE then l.getD (q - off) 0
      else if addr (sized ino i din off) s.disk j (q / BSIZE) = 0 then 0
      else byteAt (sized ino i din off) s.disk j q := by
  have hB : 0 < BSIZE := by decide
  have haddr : ∀ bn, addr (sized ino i r.1 sz) (written t r.2 off l) j bn =
      addr (update ino i r.1) t.disk j bn :=
    fun bn => round_addr hf.refs hi hmax hf.here hf.nonzero hj _
  have hsame : addr (sized ino i din off) s.disk j (q / BSIZE) =
      addr (update ino i din) s.disk j (q / BSIZE) := ref_sized ino din off s.disk i j _
  have hmod : q % BSIZE < BSIZE := Nat.mod_lt _ hB
  have hqd := Nat.div_add_mod q BSIZE
  have hod := Nat.div_add_mod off BSIZE
  unfold byteAt
  rw [haddr]
  by_cases hhere : j = i ∧ q / BSIZE = off / BSIZE
  · obtain ⟨rfl, hb⟩ := hhere
    rw [hb, hf.here, written, update_self, get_patch _ _ hmod]
    have hm : off / BSIZE * BSIZE = BSIZE * (off / BSIZE) := mul_comm _ _
    rw [hb] at hqd hz hsame
    by_cases hin : off ≤ q ∧ q < off + l.length
    · rw [if_pos (by omega), if_pos ⟨rfl, hin.1, hin.2, rfl⟩]
      congr 1
      omega
    · rw [if_neg (by omega), if_neg (by tauto)]
      by_cases h0 : addr (sized ino j din off) s.disk j (off / BSIZE) = 0
      · rw [if_pos h0, hf.fresh (by rw [← hsame]; exact h0)]
        exact Buf.get_fill_zero _
      · rw [if_neg h0, hf.keep (by rw [← hsame]; exact h0),
          hf.data j _ hj hmax (by rw [← hsame]; exact h0), hsame]
  · have h0 : addr (sized ino i din off) s.disk j (q / BSIZE) ≠ 0 :=
      hz.resolve_right fun hx => hhere ⟨hx.1, hx.2.1⟩
    have hoth := hf.other j (q / BSIZE) hj hq hhere
    rw [if_neg (by tauto), if_neg h0, hoth, hsame, written, update_of_ne]
    · rw [hf.data j _ hj hq (by rw [← hsame]; exact h0)]
    · rw [← hoth, ← hf.here]
      intro hx
      refine hhere (hf.refs.addr_inj hj hi hq hmax ?_ hx)
      rw [hoth, ← hsame]
      exact h0

lemma round_img (h : Img (sized ino i din off) s.disk s.freeblock)
    (hf : Found (update ino i din) s.disk s.freeblock i (off / BSIZE)
      (update ino i r.1) t.disk t.freeblock r.2) (hfits : r.1.Fits) (hi : i < NINODES)
    (hmax : off / BSIZE < MAXFILE) {l : List UInt8} (hl : 0 < l.length)
    (hle : off + l.length ≤ (off / BSIZE + 1) * BSIZE) (hroom : t.freeblock ≤ FSSIZE) :
    Img (sized ino i r.1 (off + l.length)) (written t r.2 off l) t.freeblock ∧
      Grown (sized ino i din off) s.disk i l (sized ino i r.1 (off + l.length))
        (written t r.2 off l) ∧ ∀ b, b < nmeta → written t r.2 off l b = s.disk b := by
  have hB : 0 < BSIZE := by decide
  have hod := Nat.div_add_mod off BSIZE
  have hom := Nat.mod_lt off hB
  have hbase : off / BSIZE * BSIZE ≤ off := Nat.div_mul_le_self _ _
  have href : ∀ j k, j < NINODES → ref (sized ino i r.1 (off + l.length))
      (written t r.2 off l) j k = ref (update ino i r.1) t.disk j k :=
    fun j k hj => round_addr hf.refs hi hmax hf.here hf.nonzero hj k
  have hne : ∀ j, j ≠ i → sized ino i r.1 (off + l.length) j = sized ino i din off j := by
    intro j hj
    rw [sized, sized, update_of_ne hj, update_of_ne hj]
  have hold : (sized ino i din off i).size = off := by rw [sized, update_self]
  have hnew : (sized ino i r.1 (off + l.length) i).size = off + l.length := by
    rw [sized, update_self]
  have hsame : ∀ j bn, addr (sized ino i din off) s.disk j bn =
      addr (update ino i din) s.disk j bn := fun j bn => ref_sized ino din off s.disk i j _
  have hother : ∀ j bn, j < NINODES → bn < MAXFILE → ¬(j = i ∧ bn = off / BSIZE) →
      addr (sized ino i r.1 (off + l.length)) (written t r.2 off l) j bn =
        addr (sized ino i din off) s.disk j bn := by
    intro j bn hj hb hx
    rw [hsame, ← hf.other j bn hj hb hx]
    exact href j _ hj
  have hhere : addr (sized ino i r.1 (off + l.length)) (written t r.2 off l) i
    (off / BSIZE) = r.2 := by
    exact (href i _ hi).trans hf.here
  have hmul : ∀ b, b < off / BSIZE → b * BSIZE < off := by
    intro b hb
    exact lt_of_lt_of_le (Nat.mul_lt_mul_of_pos_right hb hB) hbase
  have hmul' : ∀ b, off / BSIZE < b → off + l.length ≤ b * BSIZE := by
    intro b hb
    exact hle.trans (Nat.mul_le_mul_right _ hb)
  have hlast : (off / BSIZE + 1) * BSIZE ≤ MAXFILE * BSIZE := Nat.mul_le_mul_right _ hmax
  refine ⟨?_, ?_, fun b hb => ?_⟩
  · refine ⟨hf.refs.congr fun j k hs => href j k hs.1, fun b hb => ?_, fun j bn hj hb => ?_,
      fun j hj => ?_, fun j q hj hq hqm h0 => ?_, fun j hj => ?_, fun j hj => ?_,
      h.room.1.trans hf.mono.1, hroom⟩
    · rw [written, update_of_ne (by have := hf.mono; omega)]
      exact hf.zero b hb
    · by_cases hx : j = i ∧ bn = off / BSIZE
      · obtain ⟨rfl, rfl⟩ := hx
        rw [hhere, hnew]
        exact ⟨fun _ => by omega, fun _ => hf.nonzero⟩
      · rw [hother j bn hj hb hx, h.alloc j bn hj hb]
        by_cases hji : j = i
        · subst hji
          rw [hold, hnew]
          rcases Nat.lt_or_gt_of_ne fun e => hx ⟨rfl, e⟩ with h1 | h1
          · have := hmul bn h1
            omega
          · have := hmul' bn h1
            omega
        · rw [hne j hji]
    · by_cases hji : j = i
      · subst hji
        have h1 := hf.ind
        have h2 := h.ind j hj
        rw [hold] at h2
        rw [hnew]
        simp only [sized, update_self] at h1 h2 ⊢
        rw [h1, h2]
        constructor
        · rintro (h3 | h3)
          · omega
          · have := Nat.mul_le_mul_right BSIZE h3
            omega
        · intro h3
          by_contra h4
          rw [not_or, not_le] at h4
          have := hmul' NDIRECT h4.2
          omega
      · rw [hne j hji]
        exact h.ind j hj
    · have hqd := div_lt hqm
      by_cases hji : j = i
      · subst hji
        rw [hnew] at hq
        by_cases hb : q / BSIZE = off / BSIZE
        · rw [round_byte h hf hi hmax hj hqd (.inr ⟨rfl, hb, by omega⟩), if_neg (by omega)]
          split_ifs with h1
          · rfl
          · exact h.clear j q hj (by rw [hold]; omega) hqm h1
        · rw [hother j _ hj hqd (fun hx => hb hx.2)] at h0
          rw [round_byte h hf hi hmax hj hqd (.inl h0), if_neg (by omega), if_neg h0]
          exact h.clear j q hj (by rw [hold]; omega) hqm h0
      · rw [hother j _ hj hqd (fun hx => hji hx.1)] at h0
        rw [round_byte h hf hi hmax hj hqd (.inl h0), if_neg (fun hx => hji hx.1), if_neg h0]
        rw [hne j hji] at hq
        exact h.clear j q hj hq hqm h0
    · by_cases hji : j = i
      · rw [hji, hnew]
        omega
      · rw [hne j hji]
        exact h.small j hj
    · by_cases hji : j = i
      · rw [hji, sized, update_self]
        refine { hfits with size := ?_ }
        change off + l.length < 2 ^ 32
        simp only [MAXFILE, NDIRECT, NINDIRECT, BSIZE] at hle hlast ⊢
        omega
      · rw [hne j hji]
        exact h.fits j hj
  · have hbyte : ∀ j q, j < NINODES → q < (sized ino i din off j).size →
        addr (sized ino i din off) s.disk j (q / BSIZE) ≠ 0 ∧ q / BSIZE < MAXFILE := by
      intro j q hj hq
      have hqm := div_lt (lt_of_lt_of_le hq (h.small j hj))
      refine ⟨(h.alloc j _ hj hqm).mpr ?_, hqm⟩
      exact lt_of_le_of_lt (Nat.div_mul_le_self _ _) hq
    refine ⟨fun j q hj hji hq => ?_, fun j _ =>
      hne j, by rw [hnew, hold], fun q hq => ?_, fun q hq => ?_⟩
    · obtain ⟨h0, hqm⟩ := hbyte j q hj hq
      rw [round_byte h hf hi hmax hj hqm (.inl h0), if_neg (fun hx => hji hx.1), if_neg h0]
    · obtain ⟨h0, hqm⟩ := hbyte i q hi hq
      rw [hold] at hq
      rw [round_byte h hf hi hmax hi hqm (.inl h0), if_neg (by omega), if_neg h0]
    · rw [hold]
      have hb : (off + q) / BSIZE = off / BSIZE := by
        refine Nat.div_eq_of_lt_le ?_ ?_
        · omega
        · omega
      rw [round_byte h hf hi hmax hi (by rw [hb]; exact hmax) (.inr ⟨rfl, hb, by omega⟩),
        if_pos ⟨rfl, by omega, by omega, hb⟩, Nat.add_sub_cancel_left]
  · have hrange := hf.refs.addr_range hi hmax (by rw [hf.here]; exact hf.nonzero)
    rw [hf.here] at hrange
    rw [written, update_of_ne (by omega), hf.low b hb]

end Round

/-! ### The loop, and `iappend` -/

lemma wpOr_assert {P : Prop} [Decidable P] {Q : Unit → St → Prop} (h : P → Q () s)
    (hE : ¬P → E .assert) : wpOr E (assert P) s Q := by
  unfold assert
  split_ifs with hp
  · exact wpOr_pure.mpr (h hp)
  · exact wpOr_throw_iff.mpr (hE hp)

lemma Grown.refl (ino : ℕ → Dinode) (d : Disk) (i : ℕ) : Grown ino d i [] ino d :=
  ⟨fun _ _ _ _ _ => rfl, fun _ _ _ => rfl, rfl, fun _ _ => rfl,
    fun _ hq => absurd hq (Nat.not_lt_zero _)⟩

/-- There is no room for the bytes on the disk, or in the file. -/
def Full (fb off len : ℕ) : Prop := FSSIZE < fb + 2 * len ∨ MAXFILE * BSIZE < off + len

/-- **The loop of `iappend`.** It appends all bytes, unless there is no room. -/
lemma wp_loop (hi : i < NINODES) : ∀ (k : ℕ) (p : List UInt8) (din : Dinode) (off : ℕ) (s : St),
    p.length ≤ k → Img (sized ino i din off) s.disk s.freeblock → din.Fits → s.sectors = FSSIZE →
    (Full s.freeblock off p.length → ∀ e, E e) →
    wpOr E (iappendLoop k din off p) s fun r t =>
      Img (sized ino i r.1 r.2) t.disk t.freeblock ∧
        Grown (sized ino i din off) s.disk i p (sized ino i r.1 r.2) t.disk ∧
        (∀ b, b < nmeta → t.disk b = s.disk b) ∧
        t.sectors = FSSIZE ∧ t.freeinode = s.freeinode ∧
        t.freeblock ≤ s.freeblock + 2 * p.length := by
  have hnil : ∀ {p : List UInt8} {din : Dinode} {off : ℕ} {s : St}, p.length = 0 →
      Img (sized ino i din off) s.disk s.freeblock → s.sectors = FSSIZE →
      Img (sized ino i din off) s.disk s.freeblock ∧
        Grown (sized ino i din off) s.disk i p (sized ino i din off) s.disk ∧
        (∀ b, b < nmeta → s.disk b = s.disk b) ∧
        s.sectors = FSSIZE ∧ s.freeinode = s.freeinode ∧
        s.freeblock ≤ s.freeblock + 2 * p.length := by
    intro p din off s hp h hs
    rw [List.length_eq_zero_iff] at hp
    subst hp
    exact ⟨h, Grown.refl _ _ _, fun _ _ => rfl, hs, rfl, Nat.le_add_right _ _⟩
  intro k
  induction k with
  | zero =>
    intro p din off s hp h hfits hs hE
    rw [iappendLoop, wpOr_pure]
    exact hnil (by omega) h hs
  | succ k ih =>
    intro p din off s hp h hfits hs hE
    rw [iappendLoop]
    by_cases h0 : p.length = 0
    · rw [if_pos h0, wpOr_pure]
      exact hnil h0 h hs
    · have hB : 0 < BSIZE := by decide
      have hod := Nat.div_add_mod off BSIZE
      have hom := Nat.mod_lt off hB
      have hcomm : BSIZE * (off / BSIZE) = off / BSIZE * BSIZE := mul_comm _ _
      have hsucc : (off / BSIZE + 1) * BSIZE = off / BSIZE * BSIZE + BSIZE := Nat.succ_mul _ _
      rw [if_neg h0]
      dsimp only
      rw [wpOr_bind]
      refine wpOr_assert (fun hmax => ?_) fun hmax => hE (.inr ?_) _
      swap
      · have := Nat.mul_le_mul_right BSIZE (not_lt.mp hmax)
        omega
      rw [wpOr_bind]
      refine (wp_fileBlock (ready_of_img h hs) hi hmax hfits fun hx => hE (.inl (by omega)) _).mono
        ?_
      rintro ⟨din', x⟩ t ⟨hf, hfits', hsec, hfi⟩
      have hmono := hf.mono
      simp only at hmono hfi hsec ⊢
      rw [wpOr_bind]
      refine wpOr_rsect (fun hx => ?_) fun hx => hE (.inl ?_) _
      swap
      · rw [hsec, hs] at hx
        omega
      rw [wpOr_bind, wsect, wpOr_modify]
      -- as many bytes as the block has room for
      obtain ⟨l, hl⟩ : ∃ l, p.take (min p.length ((off / BSIZE + 1) * BSIZE - off)) = l := ⟨_, rfl⟩
      have hlen : l.length = min p.length ((off / BSIZE + 1) * BSIZE - off) := by
        rw [← hl, List.length_take]
        omega
      have hpos : 0 < l.length := by omega
      have hroom : t.freeblock ≤ FSSIZE := by
        have := h.room.2
        rcases hf.last with h1 | h1
        · omega
        · simp only at h1
          rw [hsec, hs] at hx
          omega
      obtain ⟨himg, hgrown, hlow⟩ := round_img h hf hfits' hi hmax hpos (by omega) hroom
      rw [hl, ← hlen]
      have hsplit : l ++ p.drop l.length = p := by
        rw [hlen, ← hl]
        exact List.take_append_drop _ _
      have hdrop : (p.drop l.length).length = p.length - l.length := List.length_drop
      have hlp : l.length ≤ p.length := by omega
      refine (ih (p.drop l.length) din' (off + l.length) _ (by omega) himg hfits' ?_
        fun hx => hE ?_).mono fun r u hu => ?_
      · exact (max_eq_left hx).trans (hsec.trans hs)
      · rcases hx with hx | hx
        · left
          simp only at hx
          omega
        · right
          omega
      · obtain ⟨h1, h2, hb, h3, h4, h5⟩ := hu
        refine ⟨h1, ?_, fun b hlt => (hb b hlt).trans (hlow b hlt), h3, h4.trans hfi, ?_⟩
        · have := hgrown.trans h2
          rwa [hsplit] at this
        · simp only at h5
          omega

end Xv6.MkfsAppend
