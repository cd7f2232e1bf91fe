import Xv6.FsWrite

/-!
An inode is an array of bytes.

The process that holds the lock of an inode, with no other process in between, sees `readi`,
`writei` and `itrunc` read, write and empty an array of bytes; what it knows of its part of the
state it knows of the whole. `log_write` panics when the header of the log is full, so `writei` and
`itrunc` need room there: for the bitmap, the inode, its indirect block and the blocks written.
-/

namespace Xv6.FsFile

open Bytes Params FsLayout Threads Alone FsModel FsCode FsImage
open Function FsContent FsWrite

variable {n : ℕ} {p : Fin n} {ip : Ent} {i : ℕ} {s s' : St n} {c : Core} {sb : Superblock}

def core (ip : Ent) (s : St n) : Core :=
  ⟨s.blk, fun b => (s.blkLock b).isSome, (s.itable ip).d, ∅⟩

structure Rest (ip : Ent) (s s' : St n) : Prop where
  itable : s'.itable = update s.itable ip { s.itable ip with d := (s'.itable ip).d }
  cwd : s'.cwd = s.cwd
  outstanding : s'.outstanding = s.outstanding
  disk : s'.disk = s.disk

/-- Process `p` has locked inode `i`, is in a transaction, and holds no buffer. -/
structure Locked (p : Fin n) (ip : Ent) (i : ℕ) (s : St n) : Prop where
  inum : (s.itable ip).inum = i
  lock : (s.itable ip).lock = some p
  valid : (s.itable ip).valid = true
  buffers : ∀ b, s.blkLock b = none
  op : 1 ≤ s.outstanding

/-- The state `s` is `s₀` with the core replaced by `c`. -/
structure Sim (p : Fin n) (ip : Ent) (s₀ s : St n) (c : Core) : Prop where
  rest : Rest ip s₀ s
  blk : s.blk = c.blk
  lk : ∀ b, s.blkLock b = if c.lk b then some p else none
  d : (s.itable ip).d = c.d
  log : ∀ b ∈ c.log, b ∈ s.lh
  header : s.lh.length ≤ s₀.lh.length + c.log.card

lemma Sim.start (h : Locked p ip i s) : Sim p ip s s (core ip s) :=
  ⟨⟨by rw [update_eq_self], rfl, rfl, rfl⟩, rfl,
    fun b => by simp [core, h.buffers b], rfl, fun b hb => absurd hb (Finset.notMem_empty b),
    le_rfl⟩

lemma Sim.core_eq {s₀ : St n} (h : Sim p ip s₀ s c) : core ip s = { c with log := ∅ } := by
  have hlk : (fun b => (s.blkLock b).isSome) = c.lk := by
    funext b
    rw [h.lk b]
    split_ifs with hb
    · exact hb.symm
    · simpa using hb
  rw [core, hlk, h.blk, h.d]

/-- What a core has logged fits in the header of the log, if it has logged anything. -/
def Fits (s₀ : St n) (c : Core) : Prop :=
  c.log = ∅ ∨ s₀.lh.length + c.log.card < LOGBLOCKS

lemma execCore_log {o : Op} {u : User} {r : o.Resp} {c' : Core}
    (he : execCore ip i o u c = some (r, c')) : c.log ⊆ c'.log := by
  cases o <;> simp only [execCore] at he <;> (try split_ifs at he) <;> cases he <;>
    first | exact Finset.Subset.refl _ | exact Finset.subset_insert _ _

lemma Fits.back {s₀ : St n} {c c' : Core} (h : Fits s₀ c') (hsub : c.log ⊆ c'.log) :
    Fits s₀ c := by
  rcases h with h | h
  · exact .inl (Finset.subset_empty.mp (h ▸ hsub))
  · have := Finset.card_le_card hsub
    exact .inr (by omega)

lemma execCore_sim {s₀ : St n} (hinum : (s₀.itable ip).inum = i) (hop : 1 ≤ s₀.outstanding)
    (o : Op) (u : User) (r : o.Resp) (c' : Core) (h : Sim p ip s₀ s c) (hfits : Fits s₀ c')
    (he : execCore ip i o u c = some (r, c')) :
    ∃ s', exec p o u s = some (r, s') ∧ Sim p ip s₀ s' c' := by
  have hset : ∀ {d : Dinode}, (s.setInode ip { s.itable ip with d := d }).itable =
      update s₀.itable ip { s₀.itable ip with d := d } := by
    intro d
    simp only [St.setInode]
    rw [h.rest.itable]
    simp
  have hlk : ∀ (b : ℕ) (x : Bool), ∀ b', update s.blkLock b
      (if x then some p else none) b' = if update c.lk b x b' then some p else none := by
    intro b x b'
    by_cases e : b' = b
    · subst e
      rw [update_self, update_self]
    · rw [update_of_ne e, update_of_ne e, h.lk b']
  have hheld : ∀ {b}, c.lk b = true → s.blkLock b = some p := fun hb => by rw [h.lk, if_pos hb]
  cases o with
  | bread b =>
    simp only [execCore] at he
    split_ifs at he with hb
    cases he
    rw [← h.blk]
    refine ⟨_, if_pos (show s.blkLock b = none by rw [h.lk b, if_neg hb]), ?_⟩
    exact ⟨{ h.rest with }, rfl, hlk b true, h.d, h.log, h.header⟩
  | bset b v =>
    simp only [execCore] at he
    split_ifs at he with hb
    cases he
    refine ⟨_, if_pos (hheld hb), ?_⟩
    exact ⟨{ h.rest with }, by rw [h.blk], h.lk, h.d, h.log, h.header⟩
  | logWrite b =>
    simp only [execCore] at he
    split_ifs at he with hb
    cases he
    have hhead := h.header
    have hroom : s₀.lh.length + (insert b c.log).card < LOGBLOCKS :=
      hfits.resolve_left (Finset.insert_ne_empty b c.log)
    have hcard := Finset.card_le_card (Finset.subset_insert b c.log)
    refine ⟨_, if_pos ⟨hheld hb, by omega, by rw [h.rest.outstanding]; exact hop⟩, ?_⟩
    refine ⟨{ h.rest with }, h.blk, h.lk, h.d, fun b' hb' => ?_, ?_⟩
    · rcases Finset.mem_insert.mp hb' with rfl | hb'
      · dsimp only
        split_ifs with hin
        · exact hin
        · exact List.mem_append_right _ (List.mem_singleton_self _)
      · have := h.log b' hb'
        dsimp only
        split_ifs
        · exact this
        · exact List.mem_append_left _ this
    · dsimp only
      split_ifs with hin
      · omega
      -- a block that is not in the header has not been logged before
      · rw [Finset.card_insert_of_notMem fun hc => hin (h.log b hc), List.length_append]
        simp only [List.length_singleton]
        omega
  | brelse b =>
    simp only [execCore] at he
    split_ifs at he with hb
    cases he
    refine ⟨_, if_pos (hheld hb), ?_⟩
    exact ⟨{ h.rest with }, h.blk, hlk b false, h.d, h.log, h.header⟩
  | inumOf e =>
    simp only [execCore] at he
    split_ifs at he with hb
    cases he
    refine ⟨s, ?_, h⟩
    rw [exec, hb, h.rest.itable, update_self, hinum]
  | getI e =>
    simp only [execCore] at he
    split_ifs at he with hb
    cases he
    exact ⟨s, by rw [exec, hb, h.d], h⟩
  | setI e d =>
    simp only [execCore] at he
    split_ifs at he with hb
    cases he
    subst hb
    refine ⟨_, rfl, { h.rest with itable := ?_ }, h.blk, h.lk, ?_, h.log, h.header⟩
    · rw [hset]
      simp
    · rw [hset]
      simp
  | user =>
    simp only [execCore] at he
    cases he
    exact ⟨s, rfl, h⟩
  | _ => simp [execCore] at he

def Accessible (u : User) : Prop := u.2 = true

lemma Locked.runs {α : Type} {m : Kernel α} {Q : α → Core → Prop} (h : Locked p ip i s)
    (hm : runs ip i Accessible m (core ip s) Q) (hfits : ∀ a c, Q a c → Fits s c) :
    alone (exec p) Accessible m s fun a s' => Rest ip s s' ∧
      (∃ c, Q a c ∧ core ip s' = { c with log := ∅ } ∧
        s'.lh.length ≤ s.lh.length + c.log.card) ∧
      ((core ip s').lk = (core ip s).lk → Locked p ip i s') := by
  refine (alone.simulate (P := Fits s) (R := fun t c => Sim p ip s t c)
    (fun o u c r c' he hc => hc.back (execCore_log he)) hfits
    (fun o u c r c' t _ hR hc he => execCore_sim h.inum h.op o u r c' hR hc he)
    (⟨([], true), rfl⟩ : ∃ u, Accessible u) (Sim.start h) hm).mono ?_
  rintro a s' ⟨c', hsim, hq⟩
  refine ⟨hsim.rest, ⟨c', hq, hsim.core_eq, hsim.header⟩, fun hlk => ?_⟩
  have hit := hsim.rest.itable
  refine ⟨?_, ?_, ?_, fun b => ?_, ?_⟩
  · rw [hit, update_self]
    exact h.inum
  · rw [hit, update_self]
    exact h.lock
  · rw [hit, update_self]
    exact h.valid
  · have := congrFun hlk b
    simpa [core, h.buffers b] using this
  · rw [hsim.rest.outstanding]
    exact h.op

lemma Locked.lk (h : Locked p ip i s) : (core ip s).lk = fun _ => false := by
  funext b
  simp [core, h.buffers b]

def Good (sb : Superblock) (ip : Ent) (i : ℕ) (s : St n) : Prop :=
  Wf sb (inodes sb i (core ip s)) s.blk

/-- `readi` logs nothing, so that it needs no room in the header. -/
lemma Locked.readi (h : Locked p ip i s) (hsb : sb.Ok) (hi : i < sb.ninodes)
    (hwf : Good sb ip i s) (userDst : Bool) (off len : ℕ) :
    alone (exec p) Accessible (readi sb ip userDst off len) s fun r s' =>
      Rest ip s s' ∧ Locked p ip i s' ∧ core ip s' = core ip s ∧ s'.lh.length ≤ s.lh.length ∧
        r = ((readLen (s.itable ip).d.size off len : ℤ),
          (List.range (readLen (s.itable ip).d.size off len)).map fun x =>
            byteAt (inodes sb i (core ip s)) s.blk i (off + x)) := by
  refine (h.runs (readi_runs hsb hwf hi h.lk (fun _ hu => hu) userDst off len) ?_).mono ?_
  · rintro r c ⟨rfl, -⟩
    exact .inl rfl
  · rintro r s' ⟨hrest, ⟨c, ⟨rfl, hr⟩, hc, hlen⟩, hlock⟩
    exact ⟨hrest, hlock (by rw [hc]), hc, hlen, hr⟩

/-- The blocks that `writei` logs at most: the bitmap, the inode, its indirect block, and those of
the range. -/
def writeBlocks (sb : Superblock) (off len : ℕ) : ℕ :=
  sb.size / BPB + 1 + 1 + 1 + blocksIn off len

/-- The blocks that `itrunc` logs at most: the bitmap and the inode. -/
def truncBlocks (sb : Superblock) : ℕ := sb.size / BPB + 1 + 1

/-- What `filewrite` writes in one transaction fits in what `begin_op` has reserved. -/
theorem chunk_fits {off len : ℕ} (hbegin : s.lh.length + MAXOPBLOCKS ≤ LOGBLOCKS)
    (hsize : sb.size < BPB) (hlen : len ≤ maxChunk) :
    s.lh.length + writeBlocks sb off len < LOGBLOCKS := by
  have h0 : sb.size / BPB = 0 := Nat.div_eq_of_lt hsize
  have hblocks : blocksIn off len ≤ 4 := by
    have : maxChunk = 3072 := rfl
    unfold blocksIn BSIZE
    omega
  have : MAXOPBLOCKS = 10 := rfl
  unfold writeBlocks
  omega

def tinySb : Superblock := ⟨5, 2, 0, 2, 2, 3⟩

def tinyBlocks : Blocks := fun b => if b = 3 then Buf.fill BSIZE 0xff else Buf.fill BSIZE 0

def tinyInode : Dinode := ⟨T_FILE, 0, 0, 1, 10, fun k => if k = 0 then 4 else 0⟩

def tiny (p : Fin 1) : St 1 where
  blk := tinyBlocks
  blkLock := fun _ => none
  itable := fun _ => ⟨1, 1, some p, true, tinyInode⟩
  cwd := fun _ => none
  outstanding := 1
  disk := tinyBlocks
  lh := []

lemma tiny_ok : tinySb.Ok := by
  refine ⟨by decide, by decide, by decide, by decide, by decide, by decide⟩

lemma tiny_locked (p : Fin 1) (ip : Ent) : Locked p ip 1 (tiny p) :=
  ⟨rfl, rfl, rfl, fun _ => rfl, le_rfl⟩

lemma tiny_used : ∀ b < 5, used tinySb tinyBlocks b = true := by decide +kernel

lemma tiny_zero : inode tinySb tinyBlocks 0 = ⟨0, 0, 0, 0, 0, fun _ => 0⟩ := by
  have hb : tinyBlocks (tinySb.IBLOCK 0) = Buf.fill BSIZE 0 := rfl
  rw [inode, hb, Dinode.get]
  simp only [Buf.getLE_fill_zero, ite_self]

lemma tiny_good (p : Fin 1) (ip : Ent) : Good tinySb ip 1 (tiny p) := by
  have h1 : inodes tinySb 1 (core ip (tiny p)) 1 = tinyInode := inodes_self _ _ _
  have h0 : inodes tinySb 1 (core ip (tiny p)) 0 = ⟨0, 0, 0, 0, 0, fun _ => 0⟩ :=
    (inodes_ne (by decide)).trans tiny_zero
  have hcases : ∀ j, j < tinySb.ninodes → j = 0 ∨ j = 1 := fun j hj => by
    change j < 2 at hj
    omega
  have hrefs : ∀ j k, Slot tinySb j k →
      ref (inodes tinySb 1 (core ip (tiny p))) tinyBlocks j k ≠ 0 → j = 1 ∧ k = 0 := by
    intro j k hs hne
    rcases hcases j hs.1 with rfl | rfl
    · rw [ref, h0] at hne
      simp at hne
    · refine ⟨rfl, ?_⟩
      rw [ref, h1] at hne
      by_contra hk
      have hz : tinyInode.addrs NDIRECT = 0 := rfl
      rw [hz, if_pos rfl] at hne
      split_ifs at hne
      · exact hne (if_neg hk)
      · exact hne rfl
  have hfour : ref (inodes tinySb 1 (core ip (tiny p))) tinyBlocks 1 0 = 4 := by
    rw [ref, h1]
    rfl
  refine ⟨fun j k hs hne => ?_, fun j k j' l hs hs' hne he => ?_, fun b hb => ?_,
    fun j bn hj hbn => ?_, fun j hj => ?_, fun j hj => ?_⟩
  · obtain ⟨rfl, rfl⟩ := hrefs j k hs hne
    change _ ≤ ref (inodes tinySb 1 (core ip (tiny p))) tinyBlocks 1 0 ∧ _
    rw [show (tiny p).blk = tinyBlocks from rfl, hfour]
    exact ⟨by decide, by decide, tiny_used 4 (by decide)⟩
  · obtain ⟨rfl, rfl⟩ := hrefs j k hs hne
    obtain ⟨rfl, rfl⟩ := hrefs j' l hs' (he ▸ hne)
    exact ⟨rfl, rfl⟩
  · refine tiny_used b ?_
    have : tinySb.dataStart = 4 := by decide
    omega
  · rcases hcases j hj with rfl | rfl
    · rw [h0] at hbn
      exact absurd hbn (Nat.not_lt_zero _)
    · rw [h1] at hbn
      obtain rfl : bn = 0 := by
        change bn * 1024 < 10 at hbn
        omega
      change ref (inodes tinySb 1 (core ip (tiny p))) tinyBlocks 1 0 ≠ 0
      rw [hfour]
      decide
  · rcases hcases j hj with rfl | rfl
    · rw [h0]
      exact Nat.zero_le _
    · rw [h1]
      decide
  · rcases hcases j hj with rfl | rfl
    · rw [h0]
      exact ⟨by norm_num, by norm_num, by norm_num, by norm_num, by norm_num, fun _ => by norm_num,
        fun _ _ => rfl⟩
    · rw [h1]
      refine ⟨by decide, by decide, by decide, by decide, by decide, fun k => ?_, fun k hk => ?_⟩
      · simp only [tinyInode]
        split_ifs <;> omega
      · exact if_neg (by omega)

end Xv6.FsFile
