import Xv6.MkfsAppend

/-!
Whole runs of `mkfs`, and the image they leave.
-/

namespace Xv6.MkfsRun

open Function Bytes FsLayout Params MkfsModel MkfsImage MkfsAppend Hoare

variable {fb i j k q : ℕ} {d : Disk} {s : St} {E : Err → Prop}

/-! ### Inodes in the image -/

def putInode (d : Disk) (i : ℕ) (ip : Dinode) : Disk :=
  update d (sb.IBLOCK i) (Dinode.put (d (sb.IBLOCK i)) (i % IPB * DISIZE) ip)

lemma iblock_eq (i : ℕ) : sb.IBLOCK i = i / 16 + 33 := rfl

lemma iblock_lt (hi : i < NINODES) : sb.IBLOCK i < nmeta := by
  have : NINODES = 200 := rfl
  rw [iblock_eq, nmeta_eq]
  omega

lemma inode_put {ip : Dinode} (hf : ip.Fits) (j : ℕ) :
    inode (putInode d i ip) j = if j = i then ip else inode d j := by
  have hI : IPB = 16 := rfl
  have hD : DISIZE = 64 := rfl
  have hB : BSIZE = 1024 := rfl
  unfold inode putInode
  by_cases hb : sb.IBLOCK j = sb.IBLOCK i
  · rw [hb, update_self]
    rw [iblock_eq, iblock_eq] at hb
    split_ifs with e
    · subst e
      refine Dinode.get_put_self _ hf ?_
      rw [hI, hD, hB]
      omega
    · refine Dinode.get_put_ne _ ?_
      rw [hI, hD]
      omega
  · rw [update_of_ne hb, if_neg]
    rintro rfl
    exact hb rfl

lemma byteAt_congr {ino ino' : ℕ → Dinode} {d' : Disk} (h : Img ino d fb)
    (ha : ino' j = ino j) (hd : ∀ b, nmeta ≤ b → d' b = d b) (hj : j < NINODES)
    (hq : q < (ino j).size) : byteAt ino' d' j q = byteAt ino d j q := by
  have hqm := div_lt (lt_of_lt_of_le hq (h.small j hj))
  have h0 := (h.alloc j _ hj hqm).mpr (lt_of_le_of_lt (Nat.div_mul_le_self _ _) hq)
  have haddr : addr ino' d' j (q / BSIZE) = addr ino d j (q / BSIZE) := by
    refine ref_congr (fun k => by rw [ha]) (fun hx => hd _ ?_) _
    rw [← ref_ind (f := ino) (d := d)] at hx ⊢
    exact (h.refs.range j _ (slot_ind hj) hx).1
  rw [byteAt, byteAt, haddr, hd _ (h.refs.addr_range hj hqm h0).1]

structure Whole (s : St) : Prop where
  img : Img (inode s.disk) s.disk s.freeblock
  sectors : s.sectors = FSSIZE

lemma wp_winode {ip : Dinode} {Q : Unit → St → Prop} (hi : i < NINODES) (hs : s.sectors = FSSIZE)
    (hq : Q () { s with disk := putInode s.disk i ip }) : wpOr E (winode i ip) s Q := by
  have hlt := iblock_lt hi
  have hF : FSSIZE = 2000 := rfl
  have hN := nmeta_eq
  unfold winode
  rw [wpOr_bind]
  refine wpOr_rsect (fun hx => ?_) fun hx => by omega
  rw [wsect, wpOr_modify]
  have : max s.sectors (sb.IBLOCK i + 1) = s.sectors := max_eq_left (by omega)
  rw [this]
  exact hq

lemma wp_rinode {Q : Dinode → St → Prop} (hi : i < NINODES) (hs : s.sectors = FSSIZE)
    (hq : Q (inode s.disk i) s) : wpOr E (rinode i) s Q := by
  have hlt := iblock_lt hi
  have hF : FSSIZE = 2000 := rfl
  have hN := nmeta_eq
  unfold rinode
  rw [wpOr_bind]
  refine wpOr_rsect (fun hx => ?_) fun hx => by omega
  exact wpOr_pure.mpr hq

lemma put_img {ino : ℕ → Dinode} {ip : Dinode} (h : Img ino d fb) (hi : i < NINODES)
    (hself : ino i = ip) (hne : ∀ j, j < NINODES → j ≠ i → ino j = inode d j) :
    (∀ j, j < NINODES → inode (putInode d i ip) j = ino j) ∧
      Img (inode (putInode d i ip)) (putInode d i ip) fb ∧
      ∀ j q, j < NINODES → q < (ino j).size →
        byteAt (inode (putInode d i ip)) (putInode d i ip) j q = byteAt ino d j q := by
  have hf : ip.Fits := hself ▸ h.fits i hi
  have hall : ∀ j, j < NINODES → inode (putInode d i ip) j = ino j := by
    intro j hj
    rw [inode_put hf]
    split_ifs with e
    · rw [e, hself]
    · rw [hne j hj e]
  have hd : ∀ b, nmeta ≤ b → putInode d i ip b = d b := by
    intro b hb
    have := iblock_lt hi
    exact update_of_ne (by omega) ..
  refine ⟨hall, h.congr (fun j hj k => by rw [hall j hj]) (fun j hj => by rw [hall j hj])
    (fun j hj => by rw [hall j hj]; exact h.fits j hj) hd, fun j q hj hq => ?_⟩
  exact byteAt_congr h (hall j hj) hd hj hq

/-- **`iappend`.** The bytes are appended to the file, and no other file changes. -/
lemma wp_iappend {p : List UInt8} (h : Whole s) (hi : i < NINODES)
    (hE : Full s.freeblock (inode s.disk i).size p.length → ∀ e, E e) :
    wpOr E (iappend i p) s fun _ t => Whole t ∧
      Grown (inode s.disk) s.disk i p (inode t.disk) t.disk ∧ t.freeinode = s.freeinode ∧
      t.freeblock ≤ s.freeblock + 2 * p.length := by
  have hsz : sized (inode s.disk) i (inode s.disk i) (inode s.disk i).size = inode s.disk :=
    update_eq_self i _
  unfold iappend
  rw [wpOr_bind]
  refine wp_rinode hi h.sectors ?_
  rw [wpOr_bind]
  have himg : Img (sized (inode s.disk) i (inode s.disk i) (inode s.disk i).size) s.disk
      s.freeblock := by
    rw [hsz]
    exact h.img
  refine (wp_loop hi p.length p _ _ s le_rfl himg (h.img.fits i hi) h.sectors hE).mono ?_
  rintro ⟨din, off⟩ t ⟨himg, hgrown, hlow, hsec, hfi, hfb⟩
  rw [hsz] at hgrown
  simp only at himg hgrown ⊢
  refine wp_winode hi hsec ?_
  have hne : ∀ j, j < NINODES → j ≠ i → sized (inode s.disk) i din off j = inode t.disk j := by
    intro j hj e
    rw [sized, update_of_ne e, inode, inode, hlow _ (iblock_lt hj)]
  obtain ⟨hall, himg', hbyte⟩ := put_img himg hi (update_self ..) hne
  refine ⟨⟨himg', hsec⟩, ⟨fun j q hj e hq => ?_, fun j hj e => ?_, ?_, fun q hq => ?_,
    fun q hq => ?_⟩, hfi, hfb⟩
  · rw [hbyte j q hj (by rw [hgrown.sizes j hj e]; exact hq), hgrown.same j q hj e hq]
  · rw [hall j hj, hgrown.sizes j hj e]
  · rw [hall i hi, hgrown.size]
  · rw [hbyte i q hi (by rw [hgrown.size]; omega), hgrown.old q hq]
  · rw [hbyte i _ hi (by rw [hgrown.size]; omega), hgrown.new q hq]

lemma addrs_zero {ino : ℕ → Dinode} (h : Img ino d fb) (hi : i < NINODES) (h0 : (ino i).size = 0)
    (k : ℕ) : (ino i).addrs k = 0 := by
  rcases Nat.lt_trichotomy k NDIRECT with hk | hk | hk
  · by_contra hx
    have := (h.alloc i k hi (hk.trans_le (by decide))).mp (by
      rw [addr, slotOf_direct hk, ref, if_pos hk.le]
      exact hx)
    omega
  · by_contra hx
    rw [hk] at hx
    have := (h.ind i hi).mp hx
    omega
  · exact (h.fits i hi).rest k hk

lemma wp_ialloc {ty : ℕ} (h : Whole s) (hlt : s.freeinode < NINODES) (hty : ty < 2 ^ 16)
    (h0 : (inode s.disk s.freeinode).size = 0) :
    wpOr E (ialloc ty) s fun r t => r = s.freeinode ∧ Whole t ∧ t.freeinode = s.freeinode + 1 ∧
      t.freeblock = s.freeblock ∧ (inode t.disk s.freeinode).size = 0 ∧
      ∀ j, j < NINODES → j ≠ s.freeinode → inode t.disk j = inode s.disk j ∧
        ∀ q, q < (inode s.disk j).size →
          byteAt (inode t.disk) t.disk j q = byteAt (inode s.disk) s.disk j q := by
  have hz := addrs_zero h.img hlt h0
  have hnew : (⟨ty, 0, 0, 1, 0, fun _ => 0⟩ : Dinode).Fits :=
    ⟨hty, by norm_num, by norm_num, by norm_num, by norm_num, fun _ => by norm_num, fun _ _ => rfl⟩
  have hne : ∀ j, j ≠ s.freeinode →
      update (inode s.disk) s.freeinode ⟨ty, 0, 0, 1, 0, fun _ => 0⟩ j = inode s.disk j :=
    fun j hj => update_of_ne hj ..
  have himg : Img (update (inode s.disk) s.freeinode ⟨ty, 0, 0, 1, 0, fun _ => 0⟩) s.disk
      s.freeblock := by
    refine h.img.congr (fun j hj k => ?_) (fun j hj => ?_) (fun j hj => ?_) fun _ _ => rfl
    · by_cases e : j = s.freeinode
      · rw [e, update_self, hz]
      · rw [hne j e]
    · by_cases e : j = s.freeinode
      · rw [e, update_self, h0]
      · rw [hne j e]
    · by_cases e : j = s.freeinode
      · rw [e, update_self]
        exact hnew
      · rw [hne j e]
        exact h.img.fits j hj
  obtain ⟨hall, himg', hbyte⟩ := put_img himg hlt (update_self ..) fun j _ e => hne j e
  unfold ialloc
  rw [wpOr_bind, wpOr_get, wpOr_bind, wpOr_modify, wpOr_bind]
  refine wp_winode hlt h.sectors ?_
  rw [wpOr_pure]
  refine ⟨rfl, ⟨himg', h.sectors⟩, rfl, rfl, ?_, fun j hj e => ⟨?_, fun q hq => ?_⟩⟩
  · change (inode (putInode s.disk s.freeinode _) s.freeinode).size = 0
    rw [hall _ hlt, update_self]
  · change inode (putInode s.disk s.freeinode _) j = _
    rw [hall j hj, hne j e]
  · change byteAt (inode (putInode s.disk s.freeinode _)) (putInode s.disk s.freeinode _) j q = _
    rw [hbyte j q hj (by rw [hne j e]; exact hq)]
    exact byteAt_congr h.img (hne j e) (fun _ _ => rfl) hj hq

/-! ### The root directory -/

/-- The image between two files, with the entries of the root directory. -/
structure Run (s : St) (es : List Dirent) : Prop where
  whole : Whole s
  root : ROOTINO < s.freeinode
  inums : s.freeinode ≤ NINODES
  fresh : ∀ j, s.freeinode ≤ j → j < NINODES → (inode s.disk j).size = 0
  size : (inode s.disk ROOTINO).size = DESIZE * es.length
  bytes : ∀ k b, k < es.length → b < DESIZE →
    byteAt (inode s.disk) s.disk ROOTINO (DESIZE * k + b) = (es.getD k Dirent.zero).bytes.get b

lemma root_lt : ROOTINO < NINODES := by decide

lemma Run.below {es : List Dirent} {k b : ℕ} (h : Run s es) (hk : k < es.length)
    (hb : b < DESIZE) : DESIZE * k + b < (inode s.disk ROOTINO).size := by
  rw [h.size]
  calc DESIZE * k + b < DESIZE * k + DESIZE := Nat.add_lt_add_left hb _
    _ = DESIZE * (k + 1) := rfl
    _ ≤ DESIZE * es.length := Nat.mul_le_mul_left _ hk

lemma wp_dirent {es : List Dirent} (h : Run s es) (de : Dirent)
    (hE : Full s.freeblock (DESIZE * es.length) DESIZE → ∀ e, E e) :
    wpOr E (iappend ROOTINO (List.ofFn de.bytes)) s fun _ t =>
      Run t (es ++ [de]) ∧ t.freeinode = s.freeinode ∧ t.freeblock ≤ s.freeblock + 2 * DESIZE := by
  have hlen : (List.ofFn de.bytes).length = DESIZE := List.length_ofFn
  refine (wp_iappend h.whole root_lt (by rw [h.size, hlen]; exact hE)).mono ?_
  rintro _ t ⟨hw, hg, hfi, hfb⟩
  have hsz : (inode t.disk ROOTINO).size = DESIZE * (es ++ [de]).length := by
    rw [hg.size, h.size, hlen, List.length_append, List.length_singleton, Nat.mul_succ]
  refine ⟨⟨hw, hfi ▸ h.root, hfi ▸ h.inums, fun j hj hN => ?_, hsz, fun k b hk hb => ?_⟩, hfi,
    hlen ▸ hfb⟩
  · rw [hfi] at hj
    rw [hg.sizes j hN (by have := h.root; omega)]
    exact h.fresh j hj hN
  · rw [List.length_append, List.length_singleton] at hk
    by_cases hlt : k < es.length
    · rw [List.getD_append _ _ _ _ hlt, ← h.bytes k b hlt hb]
      exact hg.old _ (h.below hlt hb)
    · obtain rfl : k = es.length := by omega
      rw [← h.size, hg.new b (by rw [hlen]; exact hb), List.getD_append_right _ _ _ _ le_rfl,
        Nat.sub_self, Buf.get_of_lt _ hb]
      simp [List.getD, hb]

lemma wp_piece {es : List Dirent} {p : List UInt8} (h : Run s es) (hi : i < s.freeinode)
    (hr : i ≠ ROOTINO) (hE : ∀ e, E e) :
    wpOr E (iappend i p) s fun _ t => Run t es ∧ t.freeinode = s.freeinode := by
  have hN : i < NINODES := lt_of_lt_of_le hi h.inums
  refine (wp_iappend h.whole hN fun _ => hE).mono ?_
  rintro _ t ⟨hw, hg, hfi, -⟩
  have hroot := hg.sizes ROOTINO root_lt (Ne.symm hr)
  refine ⟨⟨hw, hfi ▸ h.root, hfi ▸ h.inums, fun j hj hjN => ?_, ?_, fun k b hk hb => ?_⟩, hfi⟩
  · rw [hfi] at hj
    rw [hg.sizes j hjN (by omega)]
    exact h.fresh j hj hjN
  · rw [hroot, h.size]
  · rw [← h.bytes k b hk hb]
    exact hg.same ROOTINO _ root_lt (Ne.symm hr) (h.below hk hb)

lemma wp_pieces {es : List Dirent} (hi : i < fb) (hr : i ≠ ROOTINO) (l : List (List UInt8))
    (hE : l ≠ [] → ∀ e, E e) : ∀ s : St, Run s es → s.freeinode = fb →
    wpOr E (l.forM (iappend i)) s fun _ t => Run t es ∧ t.freeinode = fb ∧
      (l = [] → t.freeblock = s.freeblock) := by
  induction l with
  | nil =>
    intro s h hfi
    exact wpOr_pure.mpr ⟨h, hfi, fun _ => rfl⟩
  | cons p l ih =>
    intro s h hfi
    have hE' := hE (by simp)
    change wpOr E (iappend i p >>= fun _ => l.forM (iappend i)) s _
    rw [wpOr_bind]
    refine (wp_piece h (hfi ▸ hi) hr hE').mono ?_
    rintro _ t ⟨ht, hfi'⟩
    refine (ih (fun _ => hE') t ht (hfi'.trans hfi)).mono ?_
    rintro _ u ⟨hu, hfu, -⟩
    exact ⟨hu, hfu, fun hx => absurd hx (by simp)⟩

/-! ### Files -/

/-- A file that `addFile` takes without reading anything. -/
def Plain (f : HostFile) : Prop :=
  47 ∉ f.base ∧ f.content = some [] ∧ f.shortname.length ≤ DIRSIZ

def entryOf (inum : ℕ) (f : HostFile) : Dirent := ⟨inum % 2 ^ 16, f.shortname⟩

lemma Run.alloc {es : List Dirent} {t : St} (h : Run s es) (hlt : s.freeinode < NINODES)
    (hw : Whole t) (hfi : t.freeinode = s.freeinode + 1)
    (hsame : ∀ j, j < NINODES → j ≠ s.freeinode → inode t.disk j = inode s.disk j ∧
      ∀ q, q < (inode s.disk j).size →
        byteAt (inode t.disk) t.disk j q = byteAt (inode s.disk) s.disk j q) : Run t es := by
  have hr := h.root
  obtain ⟨h1, h2⟩ := hsame ROOTINO root_lt (by omega)
  refine ⟨hw, by omega, by omega, fun j hj hN => ?_, by rw [h1, h.size], fun k b hk hb => ?_⟩
  · rw [(hsame j hN (by omega)).1]
    exact h.fresh j (by omega) hN
  · rw [← h.bytes k b hk hb]
    exact h2 _ (h.below hk hb)

lemma wp_addFile {es : List Dirent} {f : HostFile} (h : Run s es) (hlt : s.freeinode < NINODES)
    (hE : ¬(Plain f ∧ ¬ Full s.freeblock (DESIZE * es.length) DESIZE) → ∀ e, E e) :
    wpOr E (addFile f) s fun _ t => Run t (es ++ [entryOf s.freeinode f]) ∧
      t.freeinode = s.freeinode + 1 ∧ f.shortname.length ≤ DIRSIZ ∧
      (Plain f → t.freeblock ≤ s.freeblock + 2 * DESIZE) := by
  unfold addFile
  rw [wpOr_bind]
  refine wpOr_assert (fun h1 => ?_) fun h1 => hE (fun hx => h1 hx.1.1) _
  cases hc : f.content with
  | none => exact wpOr_throw_iff.mpr (hE (fun hx => by rw [hx.1.2.1] at hc; cases hc) _)
  | some pieces =>
    simp only
    rw [wpOr_bind]
    refine wpOr_assert (fun h2 => ?_) fun h2 => hE (fun hx => h2 hx.1.2.2) _
    rw [wpOr_bind]
    refine (wp_ialloc h.whole hlt (by decide) (h.fresh _ le_rfl hlt)).mono ?_
    rintro inum t ⟨rfl, hw, hfi, hfb, -, hsame⟩
    have ht := h.alloc hlt hw hfi hsame
    rw [wpOr_bind]
    refine (wp_dirent ht (entryOf s.freeinode f)
      (by rw [hfb]; exact fun hx => hE fun hy => hy.2 hx)).mono ?_
    rintro _ u ⟨hu, hfu, hfbu⟩
    have hr := h.root
    refine (wp_pieces (Nat.lt_succ_self s.freeinode) (by omega) pieces
      (fun hne => hE fun hx => ?_) u hu (hfu.trans hfi)).mono ?_
    · have := hx.1.2.1
      rw [hc] at this
      cases this
      exact hne rfl
    · rintro _ v ⟨hv, hfv, hnil⟩
      refine ⟨hv, hfv, h2, fun hsm => ?_⟩
      have := hsm.2.1
      rw [hc] at this
      cases this
      rw [hnil rfl, ← hfb]
      exact hfbu

def entries : ℕ → List HostFile → List Dirent
  | _, [] => []
  | n, f :: fs => entryOf n f :: entries (n + 1) fs

def Easy (fb n : ℕ) (fs : List HostFile) : Prop :=
  (∀ f ∈ fs, Plain f) ∧ fb + 2 * DESIZE * fs.length ≤ FSSIZE ∧
    DESIZE * (n + fs.length) ≤ MAXFILE * BSIZE

lemma wp_files (fs : List HostFile) : ∀ (s : St) (es : List Dirent), Run s es →
    s.freeinode + fs.length ≤ NINODES → (¬ Easy s.freeblock es.length fs → ∀ e, E e) →
    wpOr E (fs.forM addFile) s fun _ t => Run t (es ++ entries s.freeinode fs) ∧
      t.freeinode = s.freeinode + fs.length ∧ (∀ f ∈ fs, f.shortname.length ≤ DIRSIZ) := by
  induction fs with
  | nil =>
    intro s es h _ _
    refine wpOr_pure.mpr ⟨?_, rfl, fun f hf => absurd hf List.not_mem_nil⟩
    rw [entries, List.append_nil]
    exact h
  | cons f fs ih =>
    intro s es h hn hE
    have hD : DESIZE = 16 := rfl
    rw [List.length_cons] at hn
    change wpOr E (addFile f >>= fun _ => fs.forM addFile) s _
    rw [wpOr_bind]
    refine (wp_addFile h (by omega) fun hx => hE fun hy => hx ⟨hy.1 f (by simp), ?_⟩).mono ?_
    · have h1 := hy.2
      rw [List.length_cons, hD] at h1
      rintro (h2 | h2)
      · rw [hD] at h2
        omega
      · rw [hD] at h2
        omega
    · rintro _ t ⟨ht, hfi, hlen, hfb⟩
      refine (ih t _ ht (by omega) fun hx => hE fun hy =>
        hx ⟨fun g hg => hy.1 g (by simp [hg]), ?_, ?_⟩).mono ?_
      · have h1 := hy.2.1
        have h2 := hfb (hy.1 f (by simp))
        rw [List.length_cons, hD] at h1
        rw [hD] at h2 ⊢
        omega
      · have h1 := hy.2.2
        rw [List.length_append, List.length_singleton, hD]
        rw [List.length_cons, hD] at h1
        omega
      · rintro _ u ⟨hu, hfu, hlens⟩
        refine ⟨?_, ?_, ?_⟩
        · rw [entries, ← hfi]
          rwa [List.append_assoc, List.singleton_append] at hu
        · rw [hfu, hfi, List.length_cons]
          omega
        · intro g hg
          rcases List.mem_cons.mp hg with rfl | hg
          · exact hlen
          · exact hlens g hg

end Xv6.MkfsRun
