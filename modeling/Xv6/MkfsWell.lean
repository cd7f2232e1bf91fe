import Mathlib.Data.List.Nodup
import Xv6.MkfsRun

/-!
The image that `mkfs` leaves: when it is a well-formed file system, and when not.
-/

namespace Xv6.MkfsWell

open Bytes FsLayout Params MkfsModel MkfsImage MkfsAppend MkfsRun
open Function Hoare

variable {i k b : ℕ} {d : Disk} {s t : St} {E : Err → Prop}

/-! ### Well-formed images -/

def entry (d : Disk) (k : ℕ) : Dirent :=
  Dirent.get (d (addr (inode d) d ROOTINO (DESIZE * k / BSIZE))) (DESIZE * k % BSIZE)

/-- What the kernel relies on. The inodes in use are those below `freeinode`. -/
structure WellFormed (s : St) : Prop where
  inums : ∀ i, i < s.freeinode → i < sb.ninodes
  blocks : ∀ i k, Slot i k → ref (inode s.disk) s.disk i k < sb.size
  inodeBlocks : ∀ i, i < s.freeinode → sb.IBLOCK i < sb.bmapstart
  bitmap : ∀ b, b < sb.size → (bit (s.disk (sb.BBLOCK b)) (b % BPB) = true ↔
    b < nmeta ∨ ∃ i k, Slot i k ∧ ref (inode s.disk) s.disk i k = b)
  once : ∀ i k j l, Slot i k → Slot j l → ref (inode s.disk) s.disk i k ≠ 0 →
    ref (inode s.disk) s.disk i k = ref (inode s.disk) s.disk j l → i = j ∧ k = l
  names : ∀ k l, DESIZE * k < (inode s.disk ROOTINO).size →
    DESIZE * l < (inode s.disk ROOTINO).size → (entry s.disk k).inum ≠ 0 →
    (entry s.disk l).inum ≠ 0 → (entry s.disk k).name = (entry s.disk l).name → k = l
  alloc : ∀ i bn, i < NINODES → bn * BSIZE < (inode s.disk i).size →
    bn < MAXFILE ∧ addr (inode s.disk) s.disk i bn ≠ 0

/-! ### The start -/

lemma inode_zero {j : ℕ} (hd : d (sb.IBLOCK j) = zeroes) : (inode d j).size = 0 ∧
    ∀ k, (inode d j).addrs k = 0 := by
  have hz : ∀ off n, zeroes.getLE off n = 0 := fun off n => Buf.getLE_fill_zero off n
  refine ⟨?_, fun k => ?_⟩
  · rw [inode, hd]
    exact hz _ _
  · rw [inode, hd]
    change (if k ≤ NDIRECT then zeroes.getLE _ 4 else 0) = 0
    rw [hz, ite_self]

def labelled : St := { start with disk := update start.disk 1 sbBlock }

lemma labelled_zero (hb : b ≠ 1) : labelled.disk b = zeroes := update_of_ne hb ..

lemma labelled_inode (j : ℕ) : (inode labelled.disk j).size = 0 ∧
    ∀ k, (inode labelled.disk j).addrs k = 0 :=
  inode_zero (labelled_zero (by rw [iblock_eq]; omega))

lemma labelled_whole : Whole labelled := by
  have href : ∀ i k, ref (inode labelled.disk) labelled.disk i k = 0 := by
    intro i k
    rw [ref, (labelled_inode i).2, (labelled_inode i).2]
    simp
  have hN := nmeta_eq
  refine ⟨⟨⟨fun i k _ h0 => absurd (href i k) h0, fun i k j l _ _ h0 => absurd (href i k) h0,
    fun b h1 h2 => ?_⟩, fun b hb => labelled_zero ?_, fun i bn _ _ => ?_, fun i _ => ?_,
    fun i q _ _ _ h0 => absurd (href i _) h0, fun i _ => ?_, fun i _ => Dinode.get_fits _ _,
    le_rfl, by decide⟩, rfl⟩
  · change b < nmeta at h2
    omega
  · change nmeta ≤ b at hb
    omega
  · rw [(labelled_inode i).1]
    exact ⟨fun h0 => absurd (href i _) h0, fun hx => absurd hx (Nat.not_lt_zero _)⟩
  · rw [(labelled_inode i).1, (labelled_inode i).2]
    simp
  · rw [(labelled_inode i).1]
    exact Nat.zero_le _

def rootEntries (files : List HostFile) : List Dirent :=
  [⟨1, [46]⟩, ⟨1, [46, 46]⟩] ++ entries 2 files

def rounded (ip : Dinode) : Dinode := { ip with size := (ip.size / BSIZE + 1) * BSIZE }

def finished (t : St) : Disk :=
  update (putInode t.disk ROOTINO (rounded (inode t.disk ROOTINO))) sb.bmapstart
    (firstBits t.freeblock)

lemma Run.first {t : St} (hw : Whole t) (hfi : t.freeinode = 2)
    (h0 : (inode t.disk ROOTINO).size = 0)
    (hsame : ∀ j, j < NINODES → j ≠ 1 → inode t.disk j = inode labelled.disk j) : Run t [] := by
  have hR : ROOTINO = 1 := rfl
  have hN : NINODES = 200 := rfl
  refine ⟨hw, by omega, by omega, fun j hj hlt => ?_, h0,
    fun k b hk => absurd hk (Nat.not_lt_zero _)⟩
  rw [hsame j hlt (by omega)]
  exact (labelled_inode j).1

lemma not_full {fb off : ℕ} (h : fb ≤ nmeta + 2 * DESIZE) (ho : off ≤ DESIZE) :
    ¬ Full fb off DESIZE := by
  have hD : DESIZE = 16 := rfl
  have hN := nmeta_eq
  have hF : FSSIZE = 2000 := rfl
  have hM : MAXFILE * BSIZE = 274432 := rfl
  unfold Full
  omega

/-- **`main`.** It fails, or the image is as `Run` says, but for the last steps. -/
lemma wp_main (files : List HostFile) (hn : files.length + 2 ≤ NINODES)
    (hE : ¬ Easy (nmeta + 4 * DESIZE) 2 files → ∀ e, E e) :
    wpOr E (main files) start fun _ u => ∃ t, Run t (rootEntries files) ∧
      u = { t with disk := finished t } ∧ t.freeinode = files.length + 2 ∧
      ∀ f ∈ files, f.shortname.length ≤ DIRSIZ := by
  have hN : NINODES = 200 := rfl
  have hD : DESIZE = 16 := rfl
  unfold main
  rw [wpOr_bind, wsect, wpOr_modify]
  change wpOr E _ labelled _
  rw [wpOr_bind]
  refine (wp_ialloc labelled_whole (by decide) (by decide) (labelled_inode 1).1).mono ?_
  rintro rootino t ⟨hroot, hw, hfi, hfb, h0, hsame⟩
  change rootino = ROOTINO at hroot
  subst hroot
  rw [wpOr_bind]
  refine wpOr_assert (fun _ => ?_) fun hx => absurd rfl hx
  have hrun := Run.first hw hfi h0 fun j hj hne => (hsame j hj hne).1
  change t.freeblock = nmeta at hfb
  rw [wpOr_bind]
  refine (wp_dirent hrun ⟨1, [46]⟩ fun hx => absurd hx (not_full (by omega) (Nat.zero_le _))).mono
    ?_
  rintro _ u ⟨hu, hfu, hbu⟩
  rw [wpOr_bind]
  refine (wp_dirent hu ⟨1, [46, 46]⟩ fun hx => absurd hx (not_full (by omega) le_rfl)).mono ?_
  rintro _ v ⟨hv, hfv, hbv⟩
  rw [wpOr_bind]
  have hfi2 : v.freeinode = 2 := hfv.trans (hfu.trans hfi)
  refine (wp_files files v _ hv (by omega) fun hx => hE fun hy => hx ⟨hy.1, ?_, hy.2.2⟩).mono ?_
  · have := hy.2.1
    omega
  rintro _ w ⟨hwr, hfw, hlens⟩
  rw [hfi2] at hwr hfw
  rw [wpOr_bind]
  refine wp_rinode root_lt hwr.whole.sectors ?_
  rw [wpOr_bind]
  refine wp_winode root_lt hwr.whole.sectors ?_
  rw [wpOr_bind, wpOr_get, balloc, wpOr_bind]
  have hroom := hwr.whole.img.room.2
  refine wpOr_assert (fun _ => ?_) fun hx => absurd ?_ hx
  · rw [wsect, wpOr_modify]
    refine ⟨w, hwr, ?_, by omega, hlens⟩
    have : max w.sectors (sb.bmapstart + 1) = w.sectors := by
      rw [hwr.whole.sectors]
      rfl
    rw [this]
    rfl
  · change w.freeblock < BPB
    exact lt_of_le_of_lt hroom (by decide)

/-! ### The end -/

lemma finished_inode {j : ℕ} (hj : j < NINODES)
    (hf : (rounded (inode t.disk ROOTINO)).Fits) : inode (finished t) j =
      if j = ROOTINO then rounded (inode t.disk ROOTINO) else inode t.disk j := by
  have hlt := iblock_lt hj
  rw [← inode_put hf, inode, inode, finished, update_of_ne]
  have hb : sb.bmapstart = 46 := rfl
  have hN : NINODES = 200 := rfl
  rw [iblock_eq, hb]
  omega

lemma finished_high {b : ℕ} (hb : nmeta ≤ b) : finished t b = t.disk b := by
  have hlt := iblock_lt root_lt
  have hN := nmeta_eq
  have hb' : sb.bmapstart = 46 := rfl
  rw [finished, update_of_ne (by omega), putInode, update_of_ne (by omega)]

lemma firstBits_bit (n b : ℕ) (hn : n ≤ BPB) :
    bit (firstBits n) b = true ↔ b < n := by
  induction n with
  | zero =>
    simp only [firstBits, Nat.not_lt_zero, iff_false]
    simp [bit, zeroes, Buf.get_fill_zero]
  | succ n ih =>
    have hB : BPB = 8192 := rfl
    have hS : BSIZE = 1024 := rfl
    rw [firstBits, bit_setBit _ (by omega), ih (by omega)]
    omega

section Final

variable {es : List Dirent} (h : Run t es) (hlen : es.length ≤ NINODES)
include h hlen

lemma Run.size_le : (inode t.disk ROOTINO).size ≤ 3200 := by
  have hN : NINODES = 200 := rfl
  have hD : DESIZE = 16 := rfl
  rw [h.size, hD]
  omega

lemma rounded_fits : (rounded (inode t.disk ROOTINO)).Fits := by
  obtain ⟨h1, h2, h3, h4, h5, h6, h7⟩ := h.whole.img.fits ROOTINO root_lt
  refine ⟨h1, h2, h3, h4, ?_, h6, h7⟩
  have := Run.size_le h hlen
  have hB : BSIZE = 1024 := rfl
  change ((inode t.disk ROOTINO).size / BSIZE + 1) * BSIZE < 2 ^ 32
  rw [hB]
  omega

lemma finished_ref (hi : i < NINODES) (k : ℕ) :
    ref (inode (finished t)) (finished t) i k = ref (inode t.disk) t.disk i k := by
  refine ref_congr (fun l => ?_) (fun hx => finished_high ?_) k
  · rw [finished_inode hi (rounded_fits h hlen)]
    split_ifs with e
    · rw [e]
      rfl
    · rfl
  · rw [← ref_ind (f := inode t.disk) (d := t.disk)] at hx ⊢
    exact (h.whole.img.refs.range i _ (slot_ind hi) hx).1

lemma root_alloc (hm : es.length % 64 ≠ 0) {bn : ℕ}
    (hb : bn * BSIZE < (rounded (inode t.disk ROOTINO)).size) :
    bn < MAXFILE ∧ addr (inode t.disk) t.disk ROOTINO bn ≠ 0 := by
  have hsz := h.size
  have hle := Run.size_le h hlen
  have hB : BSIZE = 1024 := rfl
  have hD : DESIZE = 16 := rfl
  have hM : MAXFILE = 268 := rfl
  change bn * BSIZE < ((inode t.disk ROOTINO).size / BSIZE + 1) * BSIZE at hb
  rw [hB] at hb
  rw [hD] at hsz
  have hmax : bn < MAXFILE := by omega
  refine ⟨hmax, (h.whole.img.alloc ROOTINO bn root_lt hmax).mpr ?_⟩
  rw [hB]
  omega

lemma entry_finished (hm : es.length % 64 ≠ 0)
    (hfits : ∀ de ∈ es, de.Fits) (hk : DESIZE * k < (rounded (inode t.disk ROOTINO)).size) :
    (k < es.length → entry (finished t) k = es.getD k Dirent.zero) ∧
      (es.length ≤ k → (entry (finished t) k).inum = 0) := by
  have hB : BSIZE = 1024 := rfl
  have hD : DESIZE = 16 := rfl
  have hM : MAXFILE = 268 := rfl
  have hdiv : DESIZE * k / BSIZE * BSIZE < (rounded (inode t.disk ROOTINO)).size :=
    lt_of_le_of_lt (Nat.div_mul_le_self _ _) hk
  obtain ⟨hmax, h0⟩ := root_alloc h hlen hm hdiv
  have haddr : addr (inode (finished t)) (finished t) ROOTINO (DESIZE * k / BSIZE) =
      addr (inode t.disk) t.disk ROOTINO (DESIZE * k / BSIZE) := finished_ref h hlen root_lt _
  have hblock := finished_high (t := t) (h.whole.img.refs.addr_range root_lt hmax h0).1
  have hbyte : ∀ b, b < DESIZE →
      (t.disk (addr (inode t.disk) t.disk ROOTINO (DESIZE * k / BSIZE))).get
        (DESIZE * k % BSIZE + b) = byteAt (inode t.disk) t.disk ROOTINO (DESIZE * k + b) := by
    intro b hb
    have h1 : (DESIZE * k + b) / BSIZE = DESIZE * k / BSIZE := by
      rw [hB, hD] at *
      omega
    have h2 : (DESIZE * k + b) % BSIZE = DESIZE * k % BSIZE + b := by
      rw [hB, hD] at *
      omega
    rw [byteAt, h1, h2]
  rw [entry, haddr, hblock]
  constructor
  · intro hlt
    have hmem : es.getD k Dirent.zero ∈ es := by
      rw [List.getD_eq_getElem _ _ hlt]
      exact List.getElem_mem hlt
    rw [← Dirent.get_bytes (hfits _ hmem)]
    refine Dirent.get_congr fun b hb => ?_
    rw [hbyte b hb, h.bytes k b hlt hb, Nat.zero_add]
  · intro hle
    have hzero : Dirent.get (t.disk (addr (inode t.disk) t.disk ROOTINO (DESIZE * k / BSIZE)))
        (DESIZE * k % BSIZE) = Dirent.get zeroes 0 := by
      refine Dirent.get_congr fun b hb => ?_
      rw [hbyte b hb, Nat.zero_add, zeroes, Buf.get_fill_zero]
      have h1 : (DESIZE * k + b) / BSIZE = DESIZE * k / BSIZE := by
        rw [hB, hD] at *
        omega
      refine h.whole.img.clear ROOTINO _ root_lt ?_ ?_ (by rw [h1]; exact h0)
      · rw [h.size, hD]
        omega
      · have := Nat.div_add_mod (DESIZE * k + b) BSIZE
        rw [h1] at this
        rw [hB, hM] at *
        omega
    rw [hzero]
    exact Buf.getLE_fill_zero _ _

/-- The image is well formed but for the names. -/
lemma finished_wellFormed (hm : es.length % 64 ≠ 0)
    (hfits : ∀ de ∈ es, de.Fits) (hnd : (es.map Dirent.name).Nodup) :
    WellFormed { t with disk := finished t } := by
  have hN := nmeta_eq
  have hI : NINODES = 200 := rfl
  have hF : FSSIZE = 2000 := rfl
  have hroom := h.whole.img.room
  have href := fun i k (hi : i < NINODES) => finished_ref h hlen hi k
  have hin := fun j (hj : j < NINODES) => finished_inode hj (rounded_fits h hlen)
  have hinums := h.inums
  refine ⟨fun i hi => ?_, fun i k hs => ?_, fun i hi => ?_, fun b hb => ?_,
    fun i k j l hs hs' h0 he => ?_, fun k l hk hl hk0 hl0 he => ?_, fun i bn hi hb => ?_⟩
  · exact lt_of_lt_of_le hi h.inums
  · change ref (inode (finished t)) (finished t) i k < FSSIZE
    rw [href i k hs.1]
    by_cases h0 : ref (inode t.disk) t.disk i k = 0
    · omega
    · exact lt_of_lt_of_le (h.whole.img.refs.range i k hs h0).2 hroom.2
  · change i < t.freeinode at hi
    have hb : sb.bmapstart = 46 := rfl
    rw [iblock_eq, hb]
    omega
  · change b < FSSIZE at hb
    change bit (finished t (sb.BBLOCK b)) (b % BPB) = true ↔
      b < nmeta ∨ ∃ i k, Slot i k ∧ ref (inode (finished t)) (finished t) i k = b
    have hP : BPB = 8192 := rfl
    have hblock : sb.BBLOCK b = sb.bmapstart := by
      change b / BPB + sb.bmapstart = sb.bmapstart
      rw [hP]
      omega
    have hmod : b % BPB = b := Nat.mod_eq_of_lt (by omega)
    rw [hblock, hmod, finished, update_self, firstBits_bit _ _ (by omega)]
    constructor
    · intro hlt
      by_cases hmeta : b < nmeta
      · exact .inl hmeta
      · obtain ⟨i, k, hs, he⟩ := h.whole.img.refs.onto b (by omega) hlt
        exact .inr ⟨i, k, hs, (href i k hs.1).trans he⟩
    · rintro (hlt | ⟨i, k, hs, he⟩)
      · omega
      · by_cases h0 : b = 0
        · omega
        · have he' := (href i k hs.1).symm.trans he
          rw [← he'] at h0 ⊢
          exact (h.whole.img.refs.range i k hs h0).2
  · change ref (inode (finished t)) (finished t) i k ≠ 0 at h0
    change ref (inode (finished t)) (finished t) i k = ref (inode (finished t))
      (finished t) j l at he
    rw [href i k hs.1] at h0 he
    rw [href j l hs'.1] at he
    exact h.whole.img.refs.once i k j l hs hs' h0 he
  · change DESIZE * k < (inode (finished t) ROOTINO).size at hk
    change DESIZE * l < (inode (finished t) ROOTINO).size at hl
    rw [hin _ root_lt, if_pos rfl] at hk hl
    obtain ⟨h1, h2⟩ := entry_finished h hlen hm hfits hk
    obtain ⟨h3, h4⟩ := entry_finished h hlen hm hfits hl
    have hklt : k < es.length := by
      by_contra hx
      exact hk0 (h2 (by omega))
    have hllt : l < es.length := by
      by_contra hx
      exact hl0 (h4 (by omega))
    change (entry (finished t) k).name = (entry (finished t) l).name at he
    rw [h1 hklt, h3 hllt, List.getD_eq_getElem _ _ hklt, List.getD_eq_getElem _ _ hllt] at he
    have hk' : k < (es.map Dirent.name).length := by rwa [List.length_map]
    have hl' : l < (es.map Dirent.name).length := by rwa [List.length_map]
    have heq : (es.map Dirent.name)[k] = (es.map Dirent.name)[l] := by
      rw [List.getElem_map, List.getElem_map]
      exact he
    exact hnd.getElem_inj_iff.mp heq
  · change bn * BSIZE < (inode (finished t) i).size at hb
    change bn < MAXFILE ∧ ref (inode (finished t)) (finished t) i _ ≠ 0
    rw [href i _ hi]
    rw [hin i hi] at hb
    split_ifs at hb with e
    · subst e
      exact root_alloc h hlen hm hb
    · have hB : BSIZE = 1024 := rfl
      have hsm := h.whole.img.small i hi
      have hmax : bn < MAXFILE := by
        rw [hB] at hb hsm
        omega
      exact ⟨hmax, (h.whole.img.alloc i bn hi hmax).mpr hb⟩

lemma root_unallocated (hwf : WellFormed { t with disk := finished t }) : es.length % 64 ≠ 0 := by
  intro hm
  have hB : BSIZE = 1024 := rfl
  have hsz := h.size
  rw [show DESIZE = 16 from rfl] at hsz
  have hroot : (inode (finished t) ROOTINO).size =
      ((inode t.disk ROOTINO).size / BSIZE + 1) * BSIZE := by
    rw [finished_inode root_lt (rounded_fits h hlen), if_pos rfl]
    rfl
  obtain ⟨hmax, h0⟩ := hwf.alloc ROOTINO (es.length / 64) root_lt (by
    change es.length / 64 * BSIZE < (inode (finished t) ROOTINO).size
    rw [hroot, hB]
    omega)
  change ref (inode (finished t)) (finished t) ROOTINO _ ≠ 0 at h0
  rw [finished_ref h hlen root_lt] at h0
  have := (h.whole.img.alloc ROOTINO (es.length / 64) root_lt hmax).mp h0
  rw [hB] at this
  omega

lemma names_nodup (hm : es.length % 64 ≠ 0)
    (hfits : ∀ de ∈ es, de.Fits) (hlive : ∀ de ∈ es, de.inum ≠ 0)
    (hwf : WellFormed { t with disk := finished t }) : (es.map Dirent.name).Nodup := by
  have hroot : ∀ k < es.length, DESIZE * k < (rounded (inode t.disk ROOTINO)).size := by
    intro k hk
    change _ < ((inode t.disk ROOTINO).size / BSIZE + 1) * BSIZE
    rw [h.size, show BSIZE = 1024 from rfl, show DESIZE = 16 from rfl]
    omega
  have hent : ∀ k (hk : k < es.length), entry (finished t) k = es[k] := by
    intro k hk
    rw [(entry_finished h hlen hm hfits (hroot k hk)).1 hk, List.getD_eq_getElem _ _ hk]
  have hsize : (inode (finished t) ROOTINO).size = (rounded (inode t.disk ROOTINO)).size := by
    rw [finished_inode root_lt (rounded_fits h hlen), if_pos rfl]
  rw [List.nodup_iff_injective_getElem]
  rintro ⟨k, hk⟩ ⟨l, hl⟩ he
  rw [List.length_map] at hk hl
  simp only [List.getElem_map] at he
  refine Fin.ext (hwf.names k l ?_ ?_ ?_ ?_ ?_)
  · exact hsize ▸ hroot k hk
  · exact hsize ▸ hroot l hl
  · change (entry (finished t) k).inum ≠ 0
    rw [hent k hk]
    exact hlive _ (List.getElem_mem hk)
  · change (entry (finished t) l).inum ≠ 0
    rw [hent l hl]
    exact hlive _ (List.getElem_mem hl)
  · change (entry (finished t) k).name = (entry (finished t) l).name
    rw [hent k hk, hent l hl, he]

end Final

/-! ### Names -/

lemma entries_names (n : ℕ) (fs : List HostFile) :
    (entries n fs).map Dirent.name = fs.map HostFile.shortname := by
  induction fs generalizing n with
  | nil => rfl
  | cons f fs ih =>
    rw [entries, List.map_cons, List.map_cons, ih]
    rfl

lemma entries_length (n : ℕ) (fs : List HostFile) : (entries n fs).length = fs.length := by
  rw [← List.length_map Dirent.name, entries_names, List.length_map]

lemma shortname_noNul (f : HostFile) : 0 ∉ f.shortname := by
  have hbase : ∀ x, x ∈ f.base → x ∈ f.path := by
    intro x hx
    unfold HostFile.base at hx
    split_ifs at hx
    · exact List.mem_of_mem_drop hx
    · exact hx
  intro hx
  refine f.noNul (hbase 0 ?_)
  unfold HostFile.shortname at hx
  split_ifs at hx
  · exact List.mem_of_mem_tail hx
  · exact hx

lemma entries_fits {fs : List HostFile} (h : ∀ f ∈ fs, f.shortname.length ≤ DIRSIZ) (n : ℕ) :
    ∀ de ∈ entries n fs, de.Fits := by
  induction fs generalizing n with
  | nil =>
    intro de hde
    cases hde
  | cons f fs ih =>
    intro de hde
    rcases List.mem_cons.mp hde with rfl | hde
    · exact ⟨Nat.mod_lt _ (by norm_num), h f (by simp), shortname_noNul f⟩
    · exact ih (fun g hg => h g (by simp [hg])) (n + 1) de hde

lemma rootEntries_fits {files : List HostFile} (h : ∀ f ∈ files, f.shortname.length ≤ DIRSIZ) :
    ∀ de ∈ rootEntries files, de.Fits := by
  intro de hde
  rcases List.mem_append.mp hde with hde | hde
  · rcases List.mem_cons.mp hde with rfl | hde
    · exact ⟨by norm_num, by decide, by decide⟩
    · rcases List.mem_cons.mp hde with rfl | hde
      · exact ⟨by norm_num, by decide, by decide⟩
      · cases hde
  · exact entries_fits h 2 de hde

lemma rootEntries_length (files : List HostFile) :
    (rootEntries files).length = files.length + 2 := by
  rw [rootEntries, List.length_append, entries_length]
  exact Nat.add_comm _ _

lemma entries_getElem {fs : List HostFile} {n k : ℕ} (hk : k < (entries n fs).length) :
    (entries n fs)[k].inum = (n + k) % 2 ^ 16 := by
  induction fs generalizing n k with
  | nil => cases hk
  | cons f fs ih =>
    cases k with
    | zero => rfl
    | succ k =>
      have hadd : n + (k + 1) = n + 1 + k := by omega
      rw [hadd]
      exact ih (Nat.lt_of_succ_lt_succ hk)

lemma rootEntries_live {files : List HostFile} (hn : files.length + 2 ≤ NINODES) :
    ∀ de ∈ rootEntries files, de.inum ≠ 0 := by
  intro de hde
  rcases List.mem_append.mp hde with hde | hde
  · rcases List.mem_cons.mp hde with rfl | hde
    · decide
    · rw [List.mem_singleton.mp hde]
      decide
  · obtain ⟨k, hk, rfl⟩ := List.mem_iff_getElem.mp hde
    have hN : NINODES = 200 := rfl
    rw [entries_getElem hk]
    rw [entries_length] at hk
    omega

/-! ### What a well-formed image tells -/

/-- Parts of `mkfs` that take no inode. -/
def Keeps {α : Type} (m : M α) : Prop :=
  ∀ s, wpOr (fun _ => True) m s fun _ t => t.freeinode = s.freeinode

lemma Keeps.pure {α : Type} (a : α) : Keeps (pure a : M α) := fun _ => wpOr_pure.mpr rfl

lemma Keeps.bind {α β : Type} {m : M α} {f : α → M β} (hm : Keeps m) (hf : ∀ a, Keeps (f a)) :
    Keeps (m >>= f) := fun s =>
  wpOr_bind.mpr ((hm s).mono fun a t ht => (hf a t).mono fun _ _ hu => hu.trans ht)

lemma keeps_rsect (sec : ℕ) : Keeps (rsect sec) := by
  intro s
  rw [rsect, wpOr_bind, wpOr_get]
  split_ifs
  · exact wpOr_pure.mpr rfl
  · exact wpOr_throw trivial

lemma keeps_wsect (sec : ℕ) (buf : Block) : Keeps (wsect sec buf) := fun _ => wpOr_modify.mpr rfl

lemma keeps_assert (p : Prop) [Decidable p] : Keeps (MkfsModel.assert p) := by
  intro s
  rw [MkfsModel.assert]
  split_ifs
  · exact wpOr_pure.mpr rfl
  · exact wpOr_throw trivial

lemma keeps_winode (inum : ℕ) (ip : Dinode) : Keeps (winode inum ip) :=
  (keeps_rsect _).bind fun _ => keeps_wsect _ _

lemma keeps_rinode (inum : ℕ) : Keeps (rinode inum) := (keeps_rsect _).bind fun _ => .pure _

lemma keeps_takeBlock : Keeps takeBlock := by
  intro s
  rw [takeBlock, wpOr_bind, wpOr_get, wpOr_bind, wpOr_modify]
  exact wpOr_pure.mpr rfl

lemma keeps_fileBlock (din : Dinode) (fbn : ℕ) : Keeps (fileBlock din fbn) := by
  unfold fileBlock
  split_ifs
  · exact keeps_takeBlock.bind fun _ => .pure _
  · exact .pure _
  · refine keeps_takeBlock.bind fun _ => (Keeps.pure _).bind fun _ =>
      (keeps_rsect _).bind fun _ => ?_
    split_ifs
    · exact keeps_takeBlock.bind fun _ => (keeps_wsect _ _).bind fun _ => .pure _
    · exact .pure _
  · refine (Keeps.pure _).bind fun _ => (keeps_rsect _).bind fun _ => ?_
    split_ifs
    · exact keeps_takeBlock.bind fun _ => (keeps_wsect _ _).bind fun _ => .pure _
    · exact .pure _

lemma keeps_iappendLoop (k : ℕ) (din : Dinode) (off : ℕ) (p : List UInt8) :
    Keeps (iappendLoop k din off p) := by
  induction k generalizing din off p with
  | zero => exact .pure _
  | succ k ih =>
    rw [iappendLoop]
    split_ifs
    · exact .pure _
    · exact (keeps_assert _).bind fun _ => (keeps_fileBlock _ _).bind fun _ =>
        (keeps_rsect _).bind fun _ => (keeps_wsect _ _).bind fun _ => ih _ _ _

lemma keeps_iappend (inum : ℕ) (p : List UInt8) : Keeps (iappend inum p) :=
  (keeps_rinode _).bind fun _ => (keeps_iappendLoop _ _ _ _).bind fun _ => keeps_winode _ _

lemma keeps_forM (inum : ℕ) (l : List (List UInt8)) : Keeps (l.forM (iappend inum)) := by
  induction l with
  | nil => exact .pure _
  | cons p l ih => exact (keeps_iappend inum p).bind fun _ => ih

lemma wp_addFile_freeinode (f : HostFile) (s : St) :
    wpOr (fun _ => True) (addFile f) s fun _ t => t.freeinode = s.freeinode + 1 := by
  unfold addFile
  refine wpOr_bind.mpr ((keeps_assert _ s).mono fun _ t ht => ?_)
  rw [← ht]
  cases f.content with
  | none => exact wpOr_throw trivial
  | some pieces =>
    refine wpOr_bind.mpr ((keeps_assert _ t).mono fun _ u hu => ?_)
    rw [← hu, wpOr_bind, ialloc, wpOr_bind, wpOr_get, wpOr_bind, wpOr_modify]
    refine ((keeps_winode _ _).bind fun _ => .pure _ : Keeps _) _ |>.mono fun inum v hv => ?_
    refine ((keeps_iappend _ _).bind fun _ => keeps_forM _ _ : Keeps _) v |>.mono fun _ w hw => ?_
    rw [hw, hv]

lemma wp_files_freeinode (fs : List HostFile) (s : St) :
    wpOr (fun _ => True) (fs.forM addFile) s fun _ t => t.freeinode = s.freeinode + fs.length := by
  induction fs generalizing s with
  | nil => exact wpOr_pure.mpr rfl
  | cons f fs ih =>
    refine wpOr_bind.mpr ((wp_addFile_freeinode f s).mono fun _ t ht =>
      (ih t).mono fun _ u hu => ?_)
    rw [hu, ht, List.length_cons]
    omega

lemma main_freeinode {files : List HostFile} {u : St} (hok : main files start = .ok ((), u)) :
    u.freeinode = files.length + 2 := by
  have hwp : wpOr (fun _ => True) (main files) start fun _ t =>
      t.freeinode = files.length + 2 := by
    unfold main
    refine wpOr_bind.mpr ((keeps_wsect _ _ start).mono fun _ a ha => ?_)
    rw [wpOr_bind, ialloc, wpOr_bind, wpOr_get, wpOr_bind, wpOr_modify]
    refine ((keeps_winode _ _).bind fun _ => .pure _ : Keeps _) _ |>.mono fun root b hb => ?_
    refine wpOr_bind.mpr ((keeps_assert _ b).mono fun _ c hc => ?_)
    refine wpOr_bind.mpr ((keeps_iappend _ _ c).mono fun _ d hd => ?_)
    refine wpOr_bind.mpr ((keeps_iappend _ _ d).mono fun _ e he => ?_)
    refine wpOr_bind.mpr ((wp_files_freeinode files e).mono fun _ f hf => ?_)
    have hrest : Keeps (do
        let din ← rinode root
        winode root { din with size := (din.size / BSIZE + 1) * BSIZE }
        let s ← get
        balloc s.freeblock) := by
      refine (keeps_rinode _).bind fun din => (keeps_winode _ _).bind fun _ s => ?_
      rw [wpOr_bind, wpOr_get]
      exact ((keeps_assert _).bind fun _ => keeps_wsect _ _ : Keeps _) s
    refine (hrest f).mono fun _ g hg => ?_
    have h1 : a.freeinode = 1 := ha
    change b.freeinode = a.freeinode + 1 at hb
    omega
  obtain ⟨e, he, -⟩ | ⟨_, v, hv, hfi⟩ := hwp
  · rw [hok] at he
    cases he
  · rw [hok] at hv
    cases hv
    exact hfi

/-- **When `mkfs` makes a well-formed file system.** An image on which it exits with status 0
satisfies everything the kernel relies on exactly if there are inodes for all files, the entries of
the root directory do not fill their blocks to the end, and the names are different and none is `.`
or `..`. -/
theorem well_formed {files : List HostFile} {u : St} (hok : main files start = .ok ((), u)) :
    WellFormed u ↔ files.length + 2 ≤ NINODES ∧ (files.length + 2) % 64 ≠ 0 ∧
      ([46] :: [46, 46] :: files.map HostFile.shortname).Nodup := by
  have hnames : (rootEntries files).map Dirent.name =
      [46] :: [46, 46] :: files.map HostFile.shortname := by
    rw [rootEntries, List.map_append, entries_names]
    rfl
  have hlen := rootEntries_length files
  have hreach : files.length + 2 ≤ NINODES → ∃ t, Run t (rootEntries files) ∧
      u = { t with disk := finished t } ∧ ∀ f ∈ files, f.shortname.length ≤ DIRSIZ := by
    intro hn
    obtain ⟨e, he, -⟩ | ⟨a, v, hv, t, hrun, hvt, -, hlens⟩ :=
      wp_main (E := fun _ => True) files hn fun _ _ => trivial
    · rw [hok] at he
      cases he
    · rw [hok] at hv
      cases hv
      exact ⟨t, hrun, hvt, hlens⟩
  constructor
  · intro hwf
    have hn : files.length + 2 ≤ NINODES := by
      have hlast : files.length + 1 < NINODES :=
        hwf.inums (files.length + 1) (by rw [main_freeinode hok]; omega)
      exact hlast
    obtain ⟨t, hrun, rfl, hlens⟩ := hreach hn
    have hm := root_unallocated hrun (by rw [hlen]; exact hn) hwf
    have hnd := names_nodup hrun (by rw [hlen]; exact hn) hm (rootEntries_fits hlens)
      (rootEntries_live hn) hwf
    rw [hlen] at hm
    rw [hnames] at hnd
    exact ⟨hn, hm, hnd⟩
  · rintro ⟨hn, hm, hnd⟩
    obtain ⟨t, hrun, rfl, hlens⟩ := hreach hn
    exact finished_wellFormed hrun (by rw [hlen]; exact hn) (by rw [hlen]; exact hm)
      (rootEntries_fits hlens) (by rw [hnames]; exact hnd)

def fileA : HostFile := ⟨[97], by decide, some [], fun l hl x hx => by cases hl; cases hx⟩

lemma fileA_plain : Plain fileA := ⟨by decide, rfl, by decide⟩

def fileB : HostFile where
  path := [117, 115, 101, 114, 47, 95, 98]
  noNul := by decide
  content := some [List.replicate 1024 7, [1, 2, 3]]
  pieces := by
    intro l hl x hx
    rw [← Option.some.inj hl, List.mem_cons, List.mem_singleton] at hx
    rcases hx with rfl | rfl
    · rw [List.length_replicate]
      decide
    · decide

set_option maxRecDepth 100000 in
lemma main_fileB : (match main [fileB] start with
    | .ok (_, u) => (inode u.disk 2).size == 1027
    | .error _ => false) = true := by decide +kernel

theorem well_formed_fileB : ∃ u, main [fileB] start = .ok ((), u) ∧ (inode u.disk 2).size = 1027 ∧
    WellFormed u := by
  have h := main_fileB
  split at h
  · rename_i x u hu
    exact ⟨u, hu, beq_iff_eq.mp h, (well_formed hu).mpr (by decide)⟩
  · cases h

/-- **One name, two entries.** `mkfs fs.img a a` exits with status 0, and the root directory of the
image has two live entries with the name `a`. -/
theorem not_well_formed : ∃ u, main [fileA, fileA] start = .ok ((), u) ∧
    (entry u.disk 2).inum ≠ 0 ∧ (entry u.disk 3).inum ≠ 0 ∧
    (entry u.disk 2).name = (entry u.disk 3).name ∧ ¬ WellFormed u := by
  have hmain := wp_main (E := fun _ => False) [fileA, fileA] (by decide) fun hx => absurd
    ⟨fun f hf => by
      have : f = fileA := by simpa using hf
      rw [this]
      exact fileA_plain, by decide, by decide⟩ hx
  rcases hmain with ⟨e, -, he⟩ | ⟨a, v, hv, t, hrun, hvt, -, hlens⟩
  · exact he.elim
  · have hlen : (rootEntries [fileA, fileA]).length = 4 := rfl
    have hsz : (rounded (inode t.disk ROOTINO)).size = 1024 := by
      change ((inode t.disk ROOTINO).size / BSIZE + 1) * BSIZE = 1024
      rw [hrun.size]
      rfl
    have hent := fun k hk => entry_finished (k := k) hrun (by decide) (by decide)
      (rootEntries_fits hlens) hk
    have h2 := (hent 2 (by rw [hsz]; decide)).1 (by decide)
    have h3 := (hent 3 (by rw [hsz]; decide)).1 (by decide)
    have hroot : (inode (finished t) ROOTINO).size = 1024 := by
      rw [finished_inode root_lt (rounded_fits hrun (by decide)), if_pos rfl, hsz]
    rw [hvt] at hv
    refine ⟨_, hv, ?_, ?_, ?_, fun hwf => ?_⟩
    · change (entry (finished t) 2).inum ≠ 0
      rw [h2]
      decide
    · change (entry (finished t) 3).inum ≠ 0
      rw [h3]
      decide
    · change (entry (finished t) 2).name = (entry (finished t) 3).name
      rw [h2, h3]
      rfl
    · have := hwf.names 2 3
        (by change DESIZE * 2 < (inode (finished t) ROOTINO).size; rw [hroot]; decide)
        (by change DESIZE * 3 < (inode (finished t) ROOTINO).size; rw [hroot]; decide)
        (by change (entry (finished t) 2).inum ≠ 0; rw [h2]; decide)
        (by change (entry (finished t) 3).inum ≠ 0; rw [h3]; decide)
        (by change (entry (finished t) 2).name = (entry (finished t) 3).name; rw [h2, h3]; rfl)
      omega

end Xv6.MkfsWell
