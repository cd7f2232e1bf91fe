import Mathlib.Algebra.BigOperators.Fin
import Xv6.FsFile

/-!
Path resolution.

`namex` walks from directory to directory with one reference in hand. The table of inodes is
all of the state that it changes, and `Table` is what it can rely on there: an inode has one
entry, and the copies in memory are those on the disk.
-/

namespace Xv6.FsPath

open Bytes Params FsLayout Threads Alone FsModel FsCode FsImage
open Function FsContent FsFile
open ProcModel (scan scan_some scan_none)

variable {n : ℕ} {p : Fin n} {sb : Superblock} {blk : Blocks} {α : Type}

/-! ### Directories -/

def entry (sb : Superblock) (blk : Blocks) (j k : ℕ) : Dirent :=
  direntOf ((List.range DESIZE).map fun x => byteAt (inode sb blk) blk j (k * DESIZE + x))

def findEntry (sb : Superblock) (blk : Blocks) (j : ℕ) (name : List UInt8) : ℕ → ℕ → Option ℕ
  | 0, _ => none
  | m + 1, k =>
    if (entry sb blk j k).inum ≠ 0 ∧ (entry sb blk j k).name = name then
      some (entry sb blk j k).inum
    else findEntry sb blk j name m (k + 1)

def lookup (sb : Superblock) (blk : Blocks) (j : ℕ) (name : List UInt8) : Option ℕ :=
  findEntry sb blk j name ((inode sb blk j).size / DESIZE) 0

/-- The inode at the end of some components, if every one is found in a directory. -/
def resolve (sb : Superblock) (blk : Blocks) : List (List UInt8) → ℕ → Option ℕ
  | [], j => some j
  | name :: rest, j =>
    if (inode sb blk j).type = T_DIR then
      (lookup sb blk j name).bind (resolve sb blk rest)
    else none

def resolveParent (sb : Superblock) (blk : Blocks) (names : List (List UInt8)) (j : ℕ) :
    Option (ℕ × List UInt8) :=
  names.getLast?.bind fun name => (resolve sb blk names.dropLast j).bind fun d =>
    if (inode sb blk d).type = T_DIR then some (d, name) else none

/-- A well-formed tree: directories consist of whole entries, and what they name is allocated
and has a link, but for the entries by which a directory names itself: one that was removed while
a process was in it has no link left. -/
structure Tree (sb : Superblock) (blk : Blocks) : Prop where
  wf : Wf sb (inode sb blk) blk
  whole : ∀ j, j < sb.ninodes → (inode sb blk j).type = T_DIR → (inode sb blk j).size % DESIZE = 0
  root : ROOTINO < sb.ninodes ∧ (inode sb blk ROOTINO).type ≠ 0 ∧
    (inode sb blk ROOTINO).nlink ≠ 0
  named : ∀ j k, j < sb.ninodes → (inode sb blk j).type = T_DIR →
    k < (inode sb blk j).size / DESIZE → (entry sb blk j k).inum ≠ 0 →
    (entry sb blk j k).inum < sb.ninodes ∧ (inode sb blk (entry sb blk j k).inum).type ≠ 0 ∧
      ((inode sb blk (entry sb blk j k).inum).nlink ≠ 0 ∨ (entry sb blk j k).inum = j)

lemma findEntry_some {j m k i : ℕ} {name : List UInt8} (h : findEntry sb blk j name m k = some i) :
    ∃ l, k ≤ l ∧ l < k + m ∧ (entry sb blk j l).inum ≠ 0 ∧ i = (entry sb blk j l).inum := by
  induction m generalizing k with
  | zero => simp [findEntry] at h
  | succ m ih =>
    rw [findEntry] at h
    split_ifs at h with hc
    · exact ⟨k, le_rfl, by omega, hc.1, (Option.some.inj h).symm⟩
    · obtain ⟨l, h1, h2, h3⟩ := ih h
      exact ⟨l, by omega, by omega, h3⟩

lemma Tree.found (h : Tree sb blk) {j i : ℕ} {name : List UInt8} (hj : j < sb.ninodes)
    (hd : (inode sb blk j).type = T_DIR) (hl : lookup sb blk j name = some i) :
    i < sb.ninodes ∧ (inode sb blk i).type ≠ 0 ∧ ((inode sb blk i).nlink ≠ 0 ∨ i = j) := by
  obtain ⟨l, -, hlt, hne, rfl⟩ := findEntry_some hl
  exact h.named j l hj hd (by omega) hne

/-! ### The table of inodes -/

/-- A state that differs from `s` in the table; nothing was logged. -/
structure At (s : St n) (T : Ent → Inode n) (t : St n) : Prop where
  itable : t.itable = T
  blk : t.blk = s.blk
  blkLock : t.blkLock = s.blkLock
  cwd : t.cwd = s.cwd
  outstanding : t.outstanding = s.outstanding
  disk : t.disk = s.disk
  header : t.lh.length ≤ s.lh.length

structure Table (sb : Superblock) (blk : Blocks) (p : Fin n) (L : Option Ent)
    (T : Ent → Inode n) : Prop where
  once : ∀ e e', 0 < (T e).ref → 0 < (T e').ref → (T e).inum = (T e').inum → e = e'
  inum : ∀ e, 0 < (T e).ref → (T e).inum < sb.ninodes
  type : ∀ e, 0 < (T e).ref → (inode sb blk (T e).inum).type ≠ 0
  copy : ∀ e, 0 < (T e).ref → (T e).valid = true → (T e).d = inode sb blk (T e).inum
  lock : ∀ e, (T e).lock = if L = some e then some p else none

def total (g : Inode n → ℕ) (T : Ent → Inode n) : ℕ := ∑ e, g (T e)

lemma total_update (g : Inode n → ℕ) (T : Ent → Inode n) (e : Ent) (ip : Inode n) :
    total g (update T e ip) + g (T e) = total g T + g ip := by
  have h1 := Finset.add_sum_erase Finset.univ (fun x => g (update T e ip x))
    (Finset.mem_univ e)
  have h2 := Finset.add_sum_erase Finset.univ (fun x => g (T x)) (Finset.mem_univ e)
  have hsum : ∑ x ∈ Finset.univ.erase e, g (update T e ip x) =
      ∑ x ∈ Finset.univ.erase e, g (T x) :=
    Finset.sum_congr rfl fun x hx => by rw [update_of_ne (Finset.ne_of_mem_erase hx)]
  rw [hsum, update_self] at h1
  unfold total
  omega

def refs (i : ℕ) (T : Ent → Inode n) : ℕ := total (fun ip => if ip.inum = i then ip.ref else 0) T

def free (T : Ent → Inode n) : ℕ := total (fun ip => if ip.ref = 0 then 1 else 0) T

lemma exists_free {T : Ent → Inode n} (h : 0 < free T) : ∃ e, (T e).ref = 0 := by
  unfold free total at h
  obtain ⟨e, -, he⟩ := Finset.exists_ne_zero_of_sum_ne_zero (Nat.pos_iff_ne_zero.mp h)
  refine ⟨e, ?_⟩
  by_contra hc
  exact he (if_neg hc)

lemma free_pos {T : Ent → Inode n} {e : Ent} (h : (T e).ref = 0) : 0 < free T := by
  have h1 : free (update T e { T e with ref := 1 }) + (if (T e).ref = 0 then 1 else 0) =
      free T + if 1 = 0 then 1 else 0 := total_update _ T e _
  rw [if_pos h, if_neg one_ne_zero] at h1
  omega

lemma total_congr {g : Inode n → ℕ} {T T' : Ent → Inode n} (h : ∀ e, g (T e) = g (T' e)) :
    total g T = total g T' := Finset.sum_congr rfl fun e _ => h e

-- the sum over all entries is never to be computed
attribute [irreducible] total

def got (T : Ent → Inode n) (e : Ent) (i : ℕ) : Ent → Inode n :=
  if 0 < (T e).ref then update T e { T e with ref := (T e).ref + 1 }
  else update T e { T e with inum := i, ref := 1, valid := false }

def dropped (T : Ent → Inode n) (e : Ent) : Ent → Inode n :=
  update T e { T e with ref := (T e).ref - 1 }

def lockedAt (sb : Superblock) (blk : Blocks) (p : Fin n) (T : Ent → Inode n) (e : Ent) :
    Ent → Inode n :=
  update T e
    { T e with lock := some p, valid := true, d := inode sb blk (T e).inum }

def unlockedAt (T : Ent → Inode n) (e : Ent) : Ent → Inode n :=
  update T e { T e with lock := none }

variable {T : Ent → Inode n} {L : Option Ent} {e e' : Ent} {i j : ℕ}

lemma Table.update {ip : Inode n} {L' : Option Ent} (h : Table sb blk p L T)
    (hne : ∀ x, x ≠ e → 0 < (T x).ref → 0 < ip.ref → (T x).inum ≠ ip.inum)
    (hinum : 0 < ip.ref → ip.inum < sb.ninodes)
    (htype : 0 < ip.ref → (inode sb blk ip.inum).type ≠ 0)
    (hcopy : 0 < ip.ref → ip.valid = true → ip.d = inode sb blk ip.inum)
    (hlock : ip.lock = if L' = some e then some p else none)
    (hL : ∀ x, x ≠ e → (L' = some x ↔ L = some x)) :
    Table sb blk p L' (Function.update T e ip) := by
  refine ⟨fun x y hx hy hi => ?_, fun x hx => ?_, fun x hx => ?_, fun x hx hv => ?_, fun x => ?_⟩
  · by_cases hxe : x = e <;> by_cases hye : y = e
    · rw [hxe, hye]
    · subst hxe
      rw [update_self] at hx hi
      rw [update_of_ne hye] at hy hi
      exact absurd hi.symm (hne y hye hy hx)
    · subst hye
      rw [update_self] at hy hi
      rw [update_of_ne hxe] at hx hi
      exact absurd hi (hne x hxe hx hy)
    · rw [update_of_ne hxe] at hx hi
      rw [update_of_ne hye] at hy hi
      exact h.once x y hx hy hi
  · by_cases hxe : x = e
    · subst hxe
      rw [update_self] at hx ⊢
      exact hinum hx
    · rw [update_of_ne hxe] at hx ⊢
      exact h.inum x hx
  · by_cases hxe : x = e
    · subst hxe
      rw [update_self] at hx ⊢
      exact htype hx
    · rw [update_of_ne hxe] at hx ⊢
      exact h.type x hx
  · by_cases hxe : x = e
    · subst hxe
      rw [update_self] at hx hv ⊢
      exact hcopy hx hv
    · rw [update_of_ne hxe] at hx hv ⊢
      exact h.copy x hx hv
  · by_cases hxe : x = e
    · subst hxe
      rw [update_self]
      exact hlock
    · rw [update_of_ne hxe, h.lock x]
      simp only [hL x hxe]

lemma Table.alone_entry (h : Table sb blk p L T) (he : 0 < (T e).ref) :
    ∀ x, x ≠ e → 0 < (T x).ref → (T x).inum ≠ (T e).inum := fun x hx hr hi =>
  hx (h.once x e hr he hi)

lemma some_ne {x : Ent} (h : x ≠ e) : ¬ (some e = some x) :=
  fun hx => h (Option.some.inj hx).symm

lemma Table.lockedAt (h : Table sb blk p none T) (he : 0 < (T e).ref) :
    Table sb blk p (some e) (lockedAt sb blk p T e) :=
  h.update (fun x hx hr _ => h.alone_entry he x hx hr) (fun _ => h.inum e he)
    (fun _ => h.type e he) (fun _ _ => rfl) (if_pos rfl).symm
    fun _ hx => ⟨fun hc => absurd hc (some_ne hx), fun hc => (nomatch hc)⟩

lemma Table.unlockedAt (h : Table sb blk p (some e) T) :
    Table sb blk p none (unlockedAt T e) :=
  h.update (fun x hx hr hr' => h.alone_entry hr' x hx hr) (h.inum e) (h.type e) (h.copy e)
    (if_neg (by simp)).symm fun _ hx => ⟨fun hc => (nomatch hc), fun hc => absurd hc (some_ne hx)⟩

lemma Table.dropped (h : Table sb blk p none T) (he : 0 < (T e).ref) :
    Table sb blk p none (dropped T e) :=
  h.update (fun x hx hr _ => h.alone_entry he x hx hr) (fun _ => h.inum e he)
    (fun _ => h.type e he) (fun _ => h.copy e he) (h.lock e) fun _ _ => Iff.rfl

structure Slotted (T : Ent → Inode n) (i : ℕ) (e : Ent) : Prop where
  used : 0 < (T e).ref → (T e).inum = i
  fresh : (T e).ref = 0 → ∀ x, 0 < (T x).ref → (T x).inum ≠ i

lemma Table.got (h : Table sb blk p L T) (hs : Slotted T i e) (hi : i < sb.ninodes)
    (ht : (inode sb blk i).type ≠ 0) : Table sb blk p L (got T e i) := by
  unfold FsPath.got
  split_ifs with he
  · exact h.update (fun x hx hr _ => h.alone_entry he x hx hr) (fun _ => h.inum e he)
      (fun _ => h.type e he) (fun _ => h.copy e he) (h.lock e) fun _ _ => Iff.rfl
  · refine h.update (fun x hx hr _ => hs.fresh (by omega) x hr) (fun _ => hi) (fun _ => ht) ?_
      (h.lock e) fun _ _ => Iff.rfl
    rintro - ⟨⟩

/-! ### Counting -/

lemma refs_dropped (he : 0 < (T e).ref) (i : ℕ) :
    refs i (dropped T e) + (if (T e).inum = i then 1 else 0) = refs i T := by
  have h : refs i (dropped T e) + (if (T e).inum = i then (T e).ref else 0) =
      refs i T + if (T e).inum = i then (T e).ref - 1 else 0 := total_update _ T e _
  split_ifs at h ⊢ <;> omega

lemma free_dropped (he : 0 < (T e).ref) :
    free (dropped T e) = free T + if (T e).ref = 1 then 1 else 0 := by
  have h : free (dropped T e) + (if (T e).ref = 0 then 1 else 0) =
      free T + if (T e).ref - 1 = 0 then 1 else 0 := total_update _ T e _
  split_ifs at h ⊢ <;> omega

lemma refs_got (hs : Slotted T i e) (j : ℕ) :
    refs j (got T e i) = refs j T + if i = j then 1 else 0 := by
  by_cases he : 0 < (T e).ref
  · have h : refs j (got T e i) + (if (T e).inum = j then (T e).ref else 0) =
        refs j T + if (T e).inum = j then (T e).ref + 1 else 0 := by
      rw [got, if_pos he]
      exact total_update _ T e _
    rw [hs.used he] at h
    split_ifs at h ⊢ <;> omega
  · have h : refs j (got T e i) + (if (T e).inum = j then (T e).ref else 0) =
        refs j T + if i = j then 1 else 0 := by
      rw [got, if_neg he]
      exact total_update _ T e _
    rw [show (T e).ref = 0 by omega, ite_self] at h
    omega

lemma free_got (T : Ent → Inode n) (e : Ent) (i : ℕ) :
    free (got T e i) + (if (T e).ref = 0 then 1 else 0) = free T := by
  by_cases he : 0 < (T e).ref
  · have h : free (got T e i) + (if (T e).ref = 0 then 1 else 0) =
        free T + if (T e).ref + 1 = 0 then 1 else 0 := by
      rw [got, if_pos he]
      exact total_update _ T e _
    rw [if_neg (Nat.succ_ne_zero _), Nat.add_zero] at h
    exact h
  · have h : free (got T e i) + (if (T e).ref = 0 then 1 else 0) =
        free T + if 1 = 0 then 1 else 0 := by
      rw [got, if_neg he]
      exact total_update _ T e _
    rw [if_neg one_ne_zero, Nat.add_zero] at h
    exact h

-- locking changes neither count
lemma total_lockedAt (g : Inode n → ℕ) (hg : ∀ (ip : Inode n) l v d,
    g { ip with lock := l, valid := v, d := d } = g ip) :
    total g (lockedAt sb blk p T e) = total g T := by
  have h : total g (lockedAt sb blk p T e) + g (T e) = total g T + g (T e) :=
    (total_update g T e _).trans (congrArg (total g T + ·) (hg (T e) _ _ _))
  omega

lemma total_unlockedAt (g : Inode n → ℕ) (hg : ∀ (ip : Inode n) l, g { ip with lock := l } = g ip) :
    total g (unlockedAt T e) = total g T := by
  have h : total g (unlockedAt T e) + g (T e) = total g T + g (T e) :=
    (total_update g T e _).trans (congrArg (total g T + ·) (hg (T e) none))
  omega

/-! ### Inodes -/

variable {s t : St n}

lemma At.set (h : At s T t) (e : Ent) (ip : Inode n) :
    At s (update T e ip) (t.setInode e ip) :=
  { h with itable := by rw [St.setInode, h.itable] }

lemma slotFor_slotted (h : t.itable = T) (hfree : 0 < free T) (i : ℕ) :
    ∃ e, t.slotFor i = some e ∧ Slotted T i e := by
  unfold St.slotFor
  rw [h]
  cases h1 : scan fun e => 0 < (T e).ref ∧ (T e).inum = i with
  | some e =>
    have := scan_some h1
    simp only [decide_eq_true_eq] at this
    exact ⟨e, rfl, fun _ => this.2, fun h0 => by omega⟩
  | none =>
    have hno : ∀ x, 0 < (T x).ref → (T x).inum ≠ i := by
      intro x hx hi
      have := scan_none h1 x
      simp [hx, hi] at this
    cases h2 : scan fun e => (T e).ref = 0 with
    | none =>
      obtain ⟨e, he⟩ := exists_free hfree
      have := scan_none h2 e
      simp [he] at this
    | some e =>
      have := scan_some h2
      simp only [decide_eq_true_eq] at this
      exact ⟨e, rfl, fun h0 => by omega, fun _ => hno⟩

lemma iget_at (h : At s T t) (hfree : 0 < free T) (i : ℕ) :
    alone (exec p) Accessible (iget i) t fun e t' => Slotted T i e ∧ At s (got T e i) t' := by
  obtain ⟨e, hslot, hs⟩ := slotFor_slotted h.itable hfree i
  rw [iget]
  by_cases he : 0 < (t.itable e).ref
  · refine alone_step (r := some e)
      (t := t.setInode e { t.itable e with ref := (t.itable e).ref + 1 })
      (fun u _ => ?_) ?_
    · simp only [exec, hslot, if_pos he]
    · refine alone_pure.mpr ⟨hs, ?_⟩
      rw [h.itable] at he
      rw [got, if_pos he, h.itable]
      exact h.set e _
  · refine alone_step (r := some e)
      (t := t.setInode e { t.itable e with inum := i, ref := 1, valid := false })
      (fun u _ => ?_) ?_
    · simp only [exec, hslot, if_neg he]
    · refine alone_pure.mpr ⟨hs, ?_⟩
      rw [h.itable] at he
      rw [got, if_neg he, h.itable]
      exact h.set e _

lemma iput_at (h : At s T t) (hn : ¬ ((T e).ref = 1 ∧ (T e).valid = true ∧ (T e).d.nlink = 0)) :
    alone (exec p) Accessible (iput sb e) t fun _ t' => At s (dropped T e) t' := by
  rw [iput]
  refine alone_step (r := false) (t := t.setInode e { t.itable e with ref := (t.itable e).ref - 1 })
    (fun u _ => ?_) ?_
  · simp only [exec, h.itable, if_neg hn]
  · refine alone_pure.mpr ?_
    rw [h.itable]
    exact h.set e _

lemma iunlock_at (h : At s T t) (hl : (T e).lock = some p) (he : 0 < (T e).ref) :
    alone (exec p) Accessible (iunlock e) t fun _ t' => At s (unlockedAt T e) t' := by
  rw [iunlock]
  refine alone_step (r := true) (t := t) (fun u _ => by simp [exec, h.itable, hl]) ?_
  rw [if_pos rfl]
  refine alone_step (r := (T e).ref) (t := t) (fun u _ => by simp [exec, h.itable]) ?_
  rw [if_neg (by omega)]
  refine alone_ask (fun u _ => rfl) ?_
  rw [h.itable]
  exact h.set e _

lemma ilock_at (hb : ∀ b, s.blkLock b = none) (h : At s T t) (hT : Table sb s.blk p none T)
    (he : 0 < (T e).ref) :
    alone (exec p) Accessible (ilock sb e) t fun _ t' => At s (lockedAt sb s.blk p T e) t' := by
  have hlock : (T e).lock = none := (hT.lock e).trans (if_neg (by simp))
  rw [ilock]
  refine alone_step (r := (T e).ref) (t := t) (fun u _ => by simp [exec, h.itable]) ?_
  rw [if_neg (by omega)]
  refine alone_step (r := ()) (t := t.setInode e { t.itable e with lock := some p })
    (fun u _ => by simp [exec, h.itable, hlock]) ?_
  rw [h.itable]
  have h1 := h.set e { T e with lock := some p }
  refine alone_step (r := (T e).valid) (t := t.setInode e { T e with lock := some p })
    (fun u _ => by simp [exec, h1.itable]) ?_
  split_ifs with hv
  · refine alone_pure.mpr ?_
    have heq : ({ T e with lock := some p } : Inode n) =
        { T e with lock := some p, valid := true, d := inode sb s.blk (T e).inum } := by
      rw [← hT.copy e he hv, ← hv]
    rw [heq] at h1
    rw [heq]
    exact h1
  · have hty : (inode sb s.blk (T e).inum).type ≠ 0 := hT.type e he
    have hd : Dinode.get (t.blk (sb.IBLOCK (T e).inum)) (slotOff (T e).inum) =
        inode sb s.blk (T e).inum := by
      rw [h.blk]
      rfl
    refine alone_step (r := (T e).inum) (t := t.setInode e { T e with lock := some p })
      (fun u _ => by simp [exec, h1.itable]) ?_
    refine alone_step (fun u _ => if_pos ((congrFun h1.blkLock _).trans (hb _))) ?_
    refine alone_step (fun u _ => rfl) ?_
    refine alone_step (fun u _ => if_pos (update_self _ _ _)) ?_
    refine alone_step (fun u _ => rfl) ?_
    refine alone_step (fun u _ => rfl) ?_
    rw [if_neg (by simpa only [St.setInode, update_self, hd] using hty)]
    refine alone_pure.mpr { h1 with itable := ?_, blkLock := ?_ }
    · simp only [St.setInode, update_self, update_idem, h.itable, lockedAt, hd]
    · simp only [St.setInode, update_idem]
      rw [← (congrFun h.blkLock _).trans (hb _), update_eq_self]
      exact h.blkLock

/-! ### Looking up a name -/

section

variable (hsb : sb.Ok) (htree : Tree sb s.blk) (hb : ∀ b, s.blkLock b = none)
  (hop : 1 ≤ s.outstanding) (h : At s T t) (hT : Table sb s.blk p (some e) T)
  (he : 0 < (T e).ref) (hv : (T e).valid = true)

include htree hT he hv in
/-- The next entry of a directory can be read as a whole. -/
lemma readLen_entry {k m : ℕ} (hk : (m + (k + 1)) * DESIZE = (T e).d.size) :
    m * DESIZE < (T e).d.size ∧ readLen (T e).d.size (m * DESIZE) DESIZE = DESIZE := by
  have hsz : DESIZE = 16 := rfl
  have hlt : m * DESIZE + DESIZE ≤ (T e).d.size := by
    rw [← hk, Nat.add_mul, Nat.succ_mul]
    omega
  have hsmall : (T e).d.size ≤ MAXFILE * BSIZE := by
    rw [hT.copy e he hv]
    exact htree.wf.small _ (hT.inum e he)
  have hmax : MAXFILE * BSIZE < 2 ^ 32 := by decide
  rw [readLen, if_neg (by omega)]
  omega

include hsb htree hb hop h hT he hv

lemma readi_at (off len : ℕ) :
    alone (exec p) Accessible (readi sb e false off len) t fun r t' => At s T t' ∧
      r = ((readLen (T e).d.size off len : ℤ), (List.range (readLen (T e).d.size off len)).map
        fun x => byteAt (inode sb s.blk) s.blk (T e).inum (off + x)) := by
  have hl : Locked p e (T e).inum t := by
    refine ⟨?_, ?_, ?_, fun b => (congrFun h.blkLock b).trans (hb b), h.outstanding ▸ hop⟩
    · rw [h.itable]
    · rw [h.itable, hT.lock e, if_pos rfl]
    · rw [h.itable, hv]
  have hino : inodes sb (T e).inum (core e t) = inode sb s.blk := by
    simp only [inodes, core, h.itable, h.blk, hT.copy e he hv, update_eq_self]
  have hwf : Wf sb (inodes sb (T e).inum (core e t)) (core e t).blk := by
    rw [hino]
    exact h.blk ▸ htree.wf
  refine (hl.readi hsb (hT.inum e he) hwf false off len).mono ?_
  rintro r t' ⟨hrest, hl', hc, hlen, hr⟩
  have hd : (t'.itable e).d = (t.itable e).d := congrArg Core.d hc
  refine ⟨⟨?_, (congrArg Core.blk hc).trans h.blk, ?_, hrest.cwd.trans h.cwd,
    hrest.outstanding.trans h.outstanding, hrest.disk.trans h.disk, hlen.trans h.header⟩, ?_⟩
  · rw [hrest.itable, hd, update_eq_self, h.itable]
  · funext b
    rw [hl'.buffers b, hb b]
  · rw [hr, hino]
    simp only [h.itable, h.blk]

/-- The outcome of a search for a name: `iget` was called for the inode that was found. -/
def Looked (s : St n) (T : Ent → Inode n) (r : Option (ℕ × Ent)) (t : St n) : Option ℕ → Prop
  | none => r = none ∧ At s T t
  | some i => ∃ off e', r = some (off, e') ∧ Slotted T i e' ∧ At s (got T e' i) t

lemma dirlookupLoop_at (hfree : 0 < free T) (name : List UInt8) {k m : ℕ}
    (hk : (m + k) * DESIZE = (T e).d.size) :
    alone (exec p) Accessible (dirlookupLoop sb e name (k + 1) (m * DESIZE)) t fun r t' =>
      Looked s T r t' (findEntry sb s.blk (T e).inum name k m) := by
  induction k generalizing m t with
  | zero =>
    rw [dirlookupLoop]
    refine alone_step (r := (T e).d) (t := t) (fun u _ => by simp [exec, h.itable]) ?_
    rw [if_neg (by rw [← hk, Nat.add_zero]; exact lt_irrefl _)]
    exact alone_pure.mpr ⟨rfl, h⟩
  | succ k ih =>
    obtain ⟨hlt, hlen⟩ := readLen_entry htree hT he hv hk
    rw [dirlookupLoop]
    refine alone_step (r := (T e).d) (t := t) (fun u _ => by simp [exec, h.itable]) ?_
    rw [if_pos hlt]
    refine (readi_at hsb htree hb hop h hT he hv (m * DESIZE) DESIZE).seq ?_
    rintro r t' ⟨h', rfl⟩
    have hent : direntOf ((List.range DESIZE).map fun x =>
        byteAt (inode sb s.blk) s.blk (T e).inum (m * DESIZE + x)) =
          entry sb s.blk (T e).inum m := rfl
    dsimp only
    rw [hlen, hent, findEntry, if_neg (by simp)]
    by_cases hc : (entry sb s.blk (T e).inum m).inum ≠ 0 ∧ (entry sb s.blk (T e).inum m).name = name
    · rw [if_pos hc, if_pos hc]
      refine (iget_at h' hfree _).seq ?_
      rintro e' t'' ⟨hs, h''⟩
      exact alone_pure.mpr ⟨_, e', rfl, hs, h''⟩
    · rw [if_neg hc, if_neg hc]
      have hrec := ih h' (m := m + 1) (by rw [← hk]; congr 1; omega)
      rwa [Nat.succ_mul] at hrec

lemma dirlookup_at (hfree : 0 < free T) (hd : (inode sb s.blk (T e).inum).type = T_DIR)
    (name : List UInt8) :
    alone (exec p) Accessible (dirlookup sb e name) t fun r t' =>
      Looked s T r t' (lookup sb s.blk (T e).inum name) := by
  have hcopy := hT.copy e he hv
  have hwhole := Nat.div_mul_cancel (Nat.dvd_of_mod_eq_zero
    (htree.whole _ (hT.inum e he) hd))
  rw [dirlookup]
  refine alone_step (r := (T e).d) (t := t) (fun u _ => by simp [exec, h.itable]) ?_
  rw [if_neg (by rw [hcopy, hd]; simp), lookup, hcopy]
  have hloop := dirlookupLoop_at hsb htree hb hop h hT he hv hfree name (m := 0)
    (k := (inode sb s.blk (T e).inum).size / DESIZE) (by rw [Nat.zero_add, hwhole, hcopy])
  rwa [Nat.zero_mul] at hloop

end

/-! ### From directory to directory -/

def released (T : Ent → Inode n) (e : Ent) : Ent → Inode n := dropped (unlockedAt T e) e

lemma released_self : released T e e = { T e with ref := (T e).ref - 1, lock := none } := by
  simp only [released, dropped, unlockedAt, update_self]

lemma released_of_ne (h : e' ≠ e) : released T e e' = T e' := by
  simp only [released, dropped, unlockedAt, update_of_ne h]

lemma Table.released (h : Table sb blk p (some e) T) (he : 0 < (T e).ref) :
    Table sb blk p none (released T e) :=
  h.unlockedAt.dropped (by rw [FsPath.unlockedAt, update_self]; exact he)

lemma refs_released (he : 0 < (T e).ref) (i : ℕ) :
    refs i (released T e) + (if (T e).inum = i then 1 else 0) = refs i T := by
  have h := refs_dropped (T := unlockedAt T e) (e := e)
    (by rw [unlockedAt, update_self]; exact he) i
  have hl : refs i (unlockedAt T e) = refs i T := by
    unfold refs
    exact total_unlockedAt _ fun _ _ => rfl
  rwa [hl, unlockedAt, update_self] at h

lemma free_released (he : 0 < (T e).ref) :
    free (released T e) = free T + if (T e).ref = 1 then 1 else 0 := by
  have h := free_dropped (T := unlockedAt T e) (e := e)
    (by rw [unlockedAt, update_self]; exact he)
  have hl : free (unlockedAt T e) = free T := by
    unfold free
    exact total_unlockedAt _ fun _ _ => rfl
  rwa [hl, unlockedAt, update_self] at h

lemma iunlockput_at (h : At s T t) (hT : Table sb s.blk p (some e) T) (he : 0 < (T e).ref)
    (hk : (inode sb s.blk (T e).inum).nlink ≠ 0 ∨ 2 ≤ (T e).ref) :
    alone (exec p) Accessible (iunlockput sb e) t fun _ t' => At s (released T e) t' := by
  rw [iunlockput]
  refine (iunlock_at h ((hT.lock e).trans (if_pos rfl)) he).seq ?_
  intro _ t' h'
  refine iput_at h' ?_
  rw [unlockedAt, update_self]
  rintro ⟨h1, hv, hn⟩
  rw [hT.copy e he hv] at hn
  rcases hk with hk | hk
  · exact hk hn
  · simp only at h1
    omega

/-- The reference in hand between two lookups. It can be dropped without freeing the inode, and
there is room for the next one. -/
structure Hand (sb : Superblock) (blk : Blocks) (p : Fin n) (T : Ent → Inode n) (e : Ent) :
    Prop where
  table : Table sb blk p none T
  ref : 0 < (T e).ref
  keeps : (inode sb blk (T e).inum).nlink ≠ 0 ∨ 2 ≤ (T e).ref
  one : 1 ≤ free T
  two : 2 ≤ (T e).ref → 2 ≤ free T

lemma got_self (hs : Slotted T i e) : (got T e i e).inum = i ∧
    (got T e i e).ref = (T e).ref + 1 := by
  unfold got
  split_ifs with he
  · rw [update_self]
    exact ⟨hs.used he, rfl⟩
  · rw [update_self]
    exact ⟨rfl, by simp only; omega⟩

lemma got_of_ne (h : e' ≠ e) : got T e i e' = T e' := by
  unfold got
  split_ifs <;> rw [update_of_ne h]

-- an entry in use keeps its inode, and loses no reference
lemma got_used (hs : Slotted T i e') (he : 0 < (T e).ref) :
    (got T e' i e).inum = (T e).inum ∧ (T e).ref ≤ (got T e' i e).ref := by
  rcases eq_or_ne e e' with rfl | hne
  · rw [(got_self hs).1, (got_self hs).2, hs.used he]
    exact ⟨rfl, Nat.le_succ _⟩
  · rw [got_of_ne hne]
    exact ⟨rfl, le_rfl⟩

lemma lockedAt_ref (x : Ent) : (lockedAt sb blk p T e x).ref = (T x).ref := by
  unfold lockedAt
  rcases eq_or_ne x e with rfl | hx
  · rw [update_self]
  · rw [update_of_ne hx]

lemma lockedAt_inum (x : Ent) : (lockedAt sb blk p T e x).inum = (T x).inum := by
  unfold lockedAt
  rcases eq_or_ne x e with rfl | hx
  · rw [update_self]
  · rw [update_of_ne hx]

lemma refs_lockedAt (i : ℕ) : refs i (lockedAt sb blk p T e) = refs i T := by
  unfold refs
  exact total_lockedAt _ fun _ _ _ _ => rfl

lemma free_lockedAt : free (lockedAt sb blk p T e) = free T := by
  unfold free
  exact total_lockedAt _ fun _ _ _ _ => rfl

/-- The entry of the next inode is the one in hand only if the inodes are the same. -/
lemma Table.slotted_ne (h : Table sb blk p L T) (he : 0 < (T e).ref) (hs : Slotted T i e')
    (hne : e' ≠ e) : i ≠ (T e).inum := by
  rintro rfl
  rcases Nat.eq_zero_or_pos (T e').ref with h0 | hpos
  · exact hs.fresh h0 e he rfl
  · exact hne (h.once e' e hpos he (hs.used hpos))

lemma Hand.step (h : Hand sb blk p T e) (hs : Slotted (lockedAt sb blk p T e) i e')
    (hi : i < sb.ninodes) (ht : (inode sb blk i).type ≠ 0)
    (hn : (inode sb blk i).nlink ≠ 0 ∨ i = (T e).inum) :
    Hand sb blk p (released (got (lockedAt sb blk p T e) e' i) e) e' ∧
      (released (got (lockedAt sb blk p T e) e' i) e e').inum = i ∧
      ∀ k, refs k (released (got (lockedAt sb blk p T e) e' i) e) +
        (if (T e).inum = k then 1 else 0) = refs k T + if i = k then 1 else 0 := by
  have hT1 := h.table.lockedAt h.ref
  have hT2 := hT1.got hs hi ht
  obtain ⟨hgi, hgr⟩ := got_self hs
  have hfree := free_got (lockedAt sb blk p T e) e' i
  rw [free_lockedAt, lockedAt_ref] at hfree
  rw [lockedAt_ref] at hgr
  have hone := h.one
  have htwo := h.two
  have hkeeps := h.keeps
  have href := h.ref
  by_cases hee : e' = e
  · subst hee
    have hie : (T e').inum = i := by
      have := hs.used (by rw [lockedAt_ref]; exact href)
      rwa [lockedAt_inum] at this
    have hpos : 0 < (got (lockedAt sb blk p T e') e' i e').ref := by omega
    have hself := released_self (T := got (lockedAt sb blk p T e') e' i) (e := e')
    have hf := free_released hpos
    have hr : (released (got (lockedAt sb blk p T e') e' i) e' e').ref = (T e').ref := by
      rw [hself]
      simp only
      omega
    have hin : (released (got (lockedAt sb blk p T e') e' i) e' e').inum = i := by
      rw [hself]
      exact hgi
    rw [if_neg (by omega)] at hfree hf
    refine ⟨⟨hT2.released hpos, by omega, ?_, by omega, by omega⟩, hin, fun k => ?_⟩
    · rw [hin, hr, ← hie]
      exact hkeeps
    · have := refs_released hpos k
      rw [refs_got hs, refs_lockedAt, hgi] at this
      rw [hie]
      omega
  · have hge : got (lockedAt sb blk p T e) e' i e = lockedAt sb blk p T e e :=
      got_of_ne (Ne.symm hee)
    have hpos : 0 < (got (lockedAt sb blk p T e) e' i e).ref := by
      rw [hge, lockedAt_ref]
      exact href
    have hself := released_of_ne (T := got (lockedAt sb blk p T e) e' i) hee
    have hf := free_released hpos
    rw [hge, lockedAt_ref] at hf
    have hine : i ≠ (T e).inum := by
      have := hT1.slotted_ne (e := e) (by rw [lockedAt_ref]; exact href) hs hee
      rwa [lockedAt_inum] at this
    refine ⟨⟨hT2.released hpos, ?_, ?_, ?_, ?_⟩, ?_, fun k => ?_⟩
    · rw [hself, hgr]
      omega
    · rw [hself, hgi]
      exact Or.inl (hn.resolve_right hine)
    · rw [hf]
      split_ifs at hfree ⊢ <;> omega
    · rw [hself, hgr, hf]
      intro h2
      split_ifs at hfree ⊢ <;> omega
    · rw [hself, hgi]
    · have := refs_released hpos k
      rw [refs_got hs, refs_lockedAt, hge, lockedAt_inum] at this
      omega

/-- What `namex` finds along some components, and the last of them where the parent is asked
for. -/
def target (sb : Superblock) (blk : Blocks) (parent : Bool) :
    List (List UInt8) → ℕ → Option (ℕ × List UInt8)
  | [], j => if parent then none else some (j, [])
  | name :: rest, j =>
    if (inode sb blk j).type = T_DIR then
      if parent ∧ rest = [] then some (j, name)
      else (lookup sb blk j name).bind (target sb blk parent rest)
    else none

lemma target_child (names : List (List UInt8)) (j : ℕ) :
    target sb blk false names j = (resolve sb blk names j).map (·, []) := by
  induction names generalizing j with
  | nil => rfl
  | cons name rest ih =>
    rw [target, resolve]
    split_ifs with hd hp
    · exact absurd hp.1 (by simp)
    · cases lookup sb blk j name with
      | none => rfl
      | some i => exact ih i
    · rfl

lemma target_parent (names : List (List UInt8)) (j : ℕ) :
    target sb blk true names j = resolveParent sb blk names j := by
  induction names generalizing j with
  | nil => rfl
  | cons name rest ih =>
    rw [target, resolveParent]
    rcases rest with _ | ⟨name', rest⟩
    · simp [resolve]
    · rw [List.dropLast_cons_cons, resolve, List.getLast?_cons_cons]
      split_ifs with hd hp
      · exact absurd hp.2 (by simp)
      · cases hl : lookup sb blk j name with
        | none => simp
        | some i =>
          have := ih i
          rw [resolveParent] at this
          exact this
      · simp

/-- The state that `namex` leaves: only the table has changed, and no inode is locked. -/
structure Left (sb : Superblock) (p : Fin n) (s t : St n) : Prop where
  rest : At s t.itable t
  table : Table sb s.blk p none t.itable

/-- The inode that is looked for is returned with one reference more, or there is none and no
reference is kept; `before` counts the references to each inode. -/
def Returned (before : ℕ → ℕ) (t : St n) : Option ℕ → Option Ent → Prop
  | none, r => r = none ∧ ∀ k, refs k t.itable = before k
  | some i, r => ∃ e, r = some e ∧ 0 < (t.itable e).ref ∧ (t.itable e).inum = i ∧
      ∀ k, refs k t.itable = before k + if i = k then 1 else 0

lemma released_returned {before : ℕ → ℕ} (h : At s (released T e) t)
    (hT : Table sb s.blk p (some e) T) (he : 0 < (T e).ref)
    (hr : ∀ k, refs k T = before k + if (T e).inum = k then 1 else 0) :
    Left sb p s t ∧ Returned before t none none := by
  refine ⟨⟨h.itable ▸ h, h.itable ▸ hT.released he⟩, rfl, fun k => ?_⟩
  have hk := refs_released he k
  rw [h.itable]
  have := hr k
  omega

lemma namexLoop_at (hsb : sb.Ok) (htree : Tree sb s.blk) (hb : ∀ b, s.blkLock b = none)
    (hop : 1 ≤ s.outstanding) (parent : Bool) (names : List (List UInt8)) {before : ℕ → ℕ}
    (h : At s T t) (hh : Hand sb s.blk p T e)
    (hr : ∀ k, refs k T = before k + if (T e).inum = k then 1 else 0) :
    alone (exec p) Accessible (namexLoop sb parent names e) t fun r t' => Left sb p s t' ∧
      Returned before t' ((target sb s.blk parent names (T e).inum).map Prod.fst)
        (r.map Prod.fst) ∧
      r.map Prod.snd = (target sb s.blk parent names (T e).inum).map Prod.snd := by
  induction names generalizing T t e with
  | nil =>
    rw [namexLoop, target]
    cases parent with
    | false =>
      refine alone_pure.mpr ⟨⟨h.itable ▸ h, h.itable ▸ hh.table⟩, ⟨e, rfl, ?_⟩, rfl⟩
      rw [h.itable]
      exact ⟨hh.ref, rfl, hr⟩
    | true =>
      refine (iput_at h ?_).seq fun _ t' h' => alone_pure.mpr ?_
      · rintro ⟨h1, hv, hn⟩
        rw [hh.table.copy e hh.ref hv] at hn
        rcases hh.keeps with hk | hk
        · exact hk hn
        · omega
      · refine ⟨⟨h'.itable ▸ h', h'.itable ▸ hh.table.dropped hh.ref⟩, ⟨rfl, fun k => ?_⟩, rfl⟩
        have hk := refs_dropped hh.ref k
        rw [h'.itable]
        have := hr k
        omega
  | cons name rest ih =>
    have hT1 := hh.table.lockedAt hh.ref
    have href : 0 < (lockedAt sb s.blk p T e e).ref := by
      rw [lockedAt_ref]
      exact hh.ref
    have hk : (inode sb s.blk (lockedAt sb s.blk p T e e).inum).nlink ≠ 0 ∨
        2 ≤ (lockedAt sb s.blk p T e e).ref := by
      rw [lockedAt_ref, lockedAt_inum]
      exact hh.keeps
    have hr1 : ∀ k, refs k (lockedAt sb s.blk p T e) =
        before k + if (lockedAt sb s.blk p T e e).inum = k then 1 else 0 := by
      intro k
      rw [refs_lockedAt, lockedAt_inum]
      exact hr k
    have hul : ∀ k, refs k (update (lockedAt sb s.blk p T e) e
        { lockedAt sb s.blk p T e e with lock := none }) = refs k (lockedAt sb s.blk p T e) := by
      intro k
      unfold refs
      exact total_unlockedAt _ fun _ _ => rfl
    have hde : (lockedAt sb s.blk p T e e).d = inode sb s.blk (T e).inum := by
      rw [lockedAt, update_self]
    rw [namexLoop, target]
    refine (ilock_at hb h hh.table hh.ref).seq fun _ t1 h1 => ?_
    refine alone_step (r := inode sb s.blk (T e).inum) (t := t1)
      (fun u _ => by simp [exec, h1.itable, hde]) ?_
    by_cases hd : (inode sb s.blk (T e).inum).type = T_DIR
    · rw [if_neg (by simpa using hd), if_pos hd]
      by_cases hp : parent = true ∧ rest = []
      · rw [if_pos hp, if_pos hp]
        refine (iunlock_at h1 ((hT1.lock e).trans (if_pos rfl)) href).seq fun _ t2 h2 => ?_
        refine alone_pure.mpr ⟨⟨h2.itable ▸ h2, h2.itable ▸ hT1.unlockedAt⟩, ⟨e, rfl, ?_⟩, rfl⟩
        rw [h2.itable, unlockedAt, update_self]
        exact ⟨href, lockedAt_inum e, fun k => by rw [hul k, hr1 k, lockedAt_inum]⟩
      · rw [if_neg hp, if_neg hp]
        have hlook := dirlookup_at hsb htree hb hop h1 hT1 href
          (by rw [lockedAt, update_self]) (by rw [free_lockedAt]; exact hh.one)
          (by rw [lockedAt_inum]; exact hd) name
        rw [lockedAt_inum] at hlook
        refine hlook.seq fun r t2 h2 => ?_
        cases hl : lookup sb s.blk (T e).inum name with
        | none =>
          rw [hl] at h2
          obtain ⟨rfl, h2⟩ := h2
          refine (iunlockput_at h2 hT1 href hk).seq fun _ t3 h3 => alone_pure.mpr ?_
          exact ⟨(released_returned h3 hT1 href hr1).1, (released_returned h3 hT1 href hr1).2, rfl⟩
        | some i =>
          rw [hl] at h2
          obtain ⟨off, e', rfl, hs, h2⟩ := h2
          obtain ⟨hi, ht, hn⟩ := htree.found (hh.table.inum e hh.ref) hd hl
          obtain ⟨hgi, hgr⟩ := got_used hs href
          obtain ⟨hh', hin, hrefs⟩ := hh.step hs hi ht hn
          refine (iunlockput_at h2 (hT1.got hs hi ht) (lt_of_lt_of_le href hgr) ?_).seq
            fun _ t3 h3 => ?_
          · rw [hgi]
            exact hk.imp_right fun h2 => h2.trans hgr
          · have hrec := ih h3 hh' fun k => ?_
            · rwa [hin] at hrec
            · rw [hin]
              have h1 := hrefs k
              have h2 := hr k
              omega
    · rw [if_pos hd, if_neg hd]
      refine (iunlockput_at h1 hT1 href hk).seq fun _ t3 h3 => alone_pure.mpr ?_
      exact ⟨(released_returned h3 hT1 href hr1).1, (released_returned h3 hT1 href hr1).2, rfl⟩

/-! ### Components of a path -/

def parts (path : List UInt8) : List (List UInt8) := (path.splitOn slash).filter (· ≠ [])

def components (path : List UInt8) : List (List UInt8) := (parts path).map (List.take DIRSIZ)

lemma parts_slash (cs : List UInt8) : parts (slash :: cs) = parts cs := by
  have h : (slash :: cs).splitOn slash = [] :: cs.splitOn slash :=
    (List.splitOnP_cons_eq_if_modifyHead slash cs).trans (if_pos (beq_self_eq_true slash))
  rw [parts, parts, h, List.filter_cons_of_neg (by simp)]

lemma parts_dropWhile (path : List UInt8) : parts (path.dropWhile (· = slash)) = parts path := by
  induction path with
  | nil => rfl
  | cons c cs ih =>
    rw [List.dropWhile_cons]
    split_ifs with hc
    · rw [of_decide_eq_true hc, ih, parts_slash]
    · rfl

lemma parts_cons {c : UInt8} (cs : List UInt8) (hc : c ≠ slash) :
    parts (c :: cs) = (c :: cs).takeWhile (· ≠ slash) ::
      parts ((c :: cs).dropWhile (· ≠ slash)) := by
  have happ := List.takeWhile_append_dropWhile (p := fun x => decide (x ≠ slash)) (l := c :: cs)
  have hne : (c :: cs).takeWhile (· ≠ slash) ≠ [] := by
    rw [List.takeWhile_cons, if_pos (decide_eq_true hc)]
    exact List.cons_ne_nil _ _
  have hin : ∀ x ∈ (c :: cs).takeWhile (· ≠ slash), (x == slash) = false := by
    intro x hx
    simpa using List.all_eq_true.mp List.all_takeWhile x hx
  cases hrest : (c :: cs).dropWhile (· ≠ slash) with
  | nil =>
    rw [hrest, List.append_nil] at happ
    rw [happ] at hin ⊢
    have h : (c :: cs).splitOn slash = [c :: cs] := List.splitOnP_eq_singleton hin
    rw [parts, h]
    rfl
  | cons d ds =>
    have hd : d = slash := by
      have := List.head?_dropWhile_not (fun x => decide (x ≠ slash)) (c :: cs)
      rw [hrest] at this
      simpa using this
    have h : (c :: cs).splitOn slash = (c :: cs).takeWhile (· ≠ slash) :: ds.splitOn slash := by
      conv_lhs => rw [← happ, hrest, hd]
      exact List.splitOnP_append_cons_of_forall_mem hin slash (beq_self_eq_true slash) ds
    rw [hd, parts_slash, parts, h, List.filter_cons_of_pos (by simpa using hne)]
    rfl

lemma elemsFrom_eq {k : ℕ} {path : List UInt8} (h : path.length ≤ k) :
    elemsFrom k path = components path := by
  induction k generalizing path with
  | zero =>
    rw [List.eq_nil_of_length_eq_zero (Nat.le_zero.mp h)]
    rfl
  | succ k ih =>
    have hlen := (List.dropWhile_suffix (· = slash) (l := path)).length_le
    rw [elemsFrom, skipelem, components, ← parts_dropWhile path]
    cases hd : path.dropWhile (· = slash) with
    | nil => rfl
    | cons c cs =>
      have hc : c ≠ slash := by
        have := List.head?_dropWhile_not (fun x => decide (x = slash)) path
        rw [hd] at this
        simpa using this
      have hrest : ((c :: cs).dropWhile (· ≠ slash)).length ≤ cs.length := by
        rw [List.dropWhile_cons, if_pos (decide_eq_true hc)]
        exact (List.dropWhile_suffix _).length_le
      have hrest' := (List.dropWhile_suffix (· = slash)
        (l := (c :: cs).dropWhile (· ≠ slash))).length_le
      rw [hd, List.length_cons] at hlen
      dsimp only
      rw [ih (by omega), parts_cons cs hc, List.map_cons, components, parts_dropWhile]

lemma elems_eq (path : List UInt8) : elems path = components path := elemsFrom_eq le_rfl

/-! ### `namei` and `nameiparent` -/

def start (s : St n) (cwd : Ent) (path : List UInt8) : ℕ :=
  if path.head? = some slash then ROOTINO else (s.itable cwd).inum

/-- What path resolution starts from: a well-formed tree, no lock held, a transaction, a current
directory, and room for two inodes in the table. -/
structure Ready (sb : Superblock) (p : Fin n) (cwd : Ent) (s : St n) : Prop where
  tree : Tree sb s.blk
  table : Table sb s.blk p none s.itable
  buffers : ∀ b, s.blkLock b = none
  op : 1 ≤ s.outstanding
  here : s.cwd p = some cwd
  ref : 0 < (s.itable cwd).ref
  room : 2 ≤ free s.itable

lemma Hand.start (hT : Table sb blk p none T) (hs : Slotted T i e) (hi : i < sb.ninodes)
    (ht : (inode sb blk i).type ≠ 0) (hn : (inode sb blk i).nlink ≠ 0 ∨ 0 < (T e).ref)
    (hroom : 2 ≤ free T) : Hand sb blk p (got T e i) e := by
  obtain ⟨hgi, hgr⟩ := got_self hs
  have hfree := free_got T e i
  refine ⟨hT.got hs hi ht, by omega, ?_, ?_, fun h2 => ?_⟩
  · rw [hgi, hgr]
    exact hn.imp_right Nat.succ_le_succ
  · split_ifs at hfree <;> omega
  · rw [if_neg (by omega)] at hfree
    omega

lemma At.refl (s : St n) : At s s.itable s := ⟨rfl, rfl, rfl, rfl, rfl, rfl, le_rfl⟩

lemma namex_at {cwd : Ent} (hsb : sb.Ok) (h : Ready sb p cwd s) (path : List UInt8)
    (parent : Bool) :
    alone (exec p) Accessible (namex sb path parent) s fun r s' => Left sb p s s' ∧
      Returned (fun k => refs k s.itable) s'
        ((target sb s.blk parent (components path) (start s cwd path)).map Prod.fst)
        (r.map Prod.fst) ∧
      r.map Prod.snd =
        (target sb s.blk parent (components path) (start s cwd path)).map Prod.snd := by
  have hloop : ∀ {t : St n} {e i}, Slotted s.itable i e → At s (got s.itable e i) t →
      i < sb.ninodes → (inode sb s.blk i).type ≠ 0 →
      (inode sb s.blk i).nlink ≠ 0 ∨ 0 < (s.itable e).ref →
      alone (exec p) Accessible (namexLoop sb parent (components path) e) t fun r s' =>
        Left sb p s s' ∧ Returned (fun k => refs k s.itable) s'
          ((target sb s.blk parent (components path) i).map Prod.fst) (r.map Prod.fst) ∧
        r.map Prod.snd = (target sb s.blk parent (components path) i).map Prod.snd := by
    intro t e i hs hat hi ht hn
    have hg := (got_self hs).1
    have hr : ∀ k, refs k (got s.itable e i) = (fun k => refs k s.itable) k +
        if (got s.itable e i e).inum = k then 1 else 0 := fun k => by
      rw [hg]
      exact refs_got hs k
    have hl := namexLoop_at hsb h.tree h.buffers h.op parent (components path) hat
      (Hand.start h.table hs hi ht hn h.room) hr
    rwa [hg] at hl
  rw [namex, elems_eq, start]
  split_ifs with hp
  · refine (iget_at (At.refl s) (by have := h.room; omega) ROOTINO).seq ?_
    rintro e t ⟨hs, hat⟩
    exact hloop hs hat h.tree.root.1 h.tree.root.2.1 (Or.inl h.tree.root.2.2)
  · refine alone_step (r := cwd) (t := s) (fun u _ => by rw [exec, h.here]; rfl) ?_
    refine alone_step (fun u _ => rfl) ?_
    refine hloop (i := (s.itable cwd).inum) ⟨fun _ => rfl, fun h0 => ?_⟩ ?_
      (h.table.inum cwd h.ref) (h.table.type cwd h.ref) (Or.inr h.ref)
    · exact absurd h.ref (by omega)
    · rw [got, if_pos h.ref]
      exact (At.refl s).set cwd _

lemma namei_at {cwd : Ent} (hsb : sb.Ok) (h : Ready sb p cwd s) (path : List UInt8) :
    alone (exec p) Accessible (namei sb path) s fun r s' => Left sb p s s' ∧
      Returned (fun k => refs k s.itable) s'
        (resolve sb s.blk (components path) (start s cwd path)) r := by
  refine (namex_at hsb h path false).seq ?_
  rintro r s' ⟨hl, hr, -⟩
  rw [target_child, Option.map_map] at hr
  refine alone_pure.mpr ⟨hl, ?_⟩
  rwa [show Prod.fst ∘ (fun j : ℕ => (j, ([] : List UInt8))) = id from rfl, Option.map_id] at hr

/-- **Path resolution.** In every well-formed tree, for every current directory and path:
`namei` returns the inode that the components of the path lead to, from the root or the current
directory, or none if they lead nowhere; `nameiparent` returns the directory that all components
but the last lead to, with the last one. The reference to the inode that is returned is the only
one that is kept, and nothing else has changed. The table of inodes must have room for two. -/
theorem path_resolution {cwd : Ent} (hsb : sb.Ok) (h : Ready sb p cwd s) (path : List UInt8) :
    alone (exec p) Accessible (namei sb path) s (fun r s' => Left sb p s s' ∧
      Returned (fun k => refs k s.itable) s'
        (resolve sb s.blk (components path) (start s cwd path)) r) ∧
    alone (exec p) Accessible (nameiparent sb path) s (fun r s' => Left sb p s s' ∧
      Returned (fun k => refs k s.itable) s'
        ((resolveParent sb s.blk (components path) (start s cwd path)).map Prod.fst)
        (r.map Prod.fst) ∧
      r.map Prod.snd =
        (resolveParent sb s.blk (components path) (start s cwd path)).map Prod.snd) := by
  have hp := namex_at hsb h path true
  rw [target_parent] at hp
  exact ⟨namei_at hsb h path, hp⟩

/-! ### A full table -/

lemma exists_accessible : ∃ u, Accessible u := ⟨([], true), rfl⟩

lemma iget_full (h : At s T t) (hno : ∀ x, 0 < (T x).ref ∧ (T x).inum ≠ i) (Q : Ent → St n → Prop) :
    ¬ alone (exec p) Accessible (iget i) t Q := by
  intro hQ
  have hslot : t.slotFor i = none := by
    unfold St.slotFor
    rw [h.itable]
    have h1 : (scan fun e => 0 < (T e).ref ∧ (T e).inum = i) = none := by
      cases h1 : scan fun e => 0 < (T e).ref ∧ (T e).inum = i with
      | none => rfl
      | some e => exact absurd (of_decide_eq_true (scan_some h1)).2 (hno e).2
    have h2 : (scan fun e => (T e).ref = 0) = none := by
      cases h2 : scan fun e => (T e).ref = 0 with
      | none => rfl
      | some e =>
        have := of_decide_eq_true (scan_some h2)
        have := (hno e).1
        omega
    rw [h1]
    exact h2
  rw [iget] at hQ
  obtain ⟨r, s', hex, hk⟩ := alone_ask_iff.mp (alone_bind.mp hQ) ([], true) rfl
  simp only [exec, hslot, Option.some.injEq] at hex
  obtain ⟨rfl, rfl⟩ := hex
  -- there is no answer to a panic
  obtain ⟨⟨⟩, -⟩ := alone_op.mp hk ([], true) rfl

lemma getI_full {α : Type} (h : At s T t) {f : Dinode → Kernel α} {Q : α → St n → Prop}
    (hQ : alone (exec p) Accessible (getI e >>= f) t Q) :
    alone (exec p) Accessible (f (T e).d) t Q := by
  obtain ⟨_, _, hget, hQ⟩ := alone_ask_iff.mp (alone_bind.mp hQ) ([], true) rfl
  simp only [exec, h.itable, Option.some.injEq] at hget
  obtain ⟨rfl, rfl⟩ := hget
  exact hQ

lemma dirlookupLoop_full (hsb : sb.Ok) (htree : Tree sb s.blk) (hb : ∀ b, s.blkLock b = none)
    (hop : 1 ≤ s.outstanding) (h : At s T t) (hT : Table sb s.blk p (some e) T)
    (he : 0 < (T e).ref) (hv : (T e).valid = true) (hno : ∀ x, 0 < (T x).ref ∧ (T x).inum ≠ i)
    (name : List UInt8) {k m : ℕ} (hk : (m + k) * DESIZE = (T e).d.size)
    (hfind : findEntry sb s.blk (T e).inum name k m = some i)
    (Q : Option (ℕ × Ent) → St n → Prop) :
    ¬ alone (exec p) Accessible (dirlookupLoop sb e name (k + 1) (m * DESIZE)) t Q := by
  intro hQ
  induction k generalizing m t with
  | zero => simp [findEntry] at hfind
  | succ k ih =>
    obtain ⟨hlt, hlen⟩ := readLen_entry htree hT he hv hk
    rw [dirlookupLoop] at hQ
    replace hQ := getI_full h hQ
    rw [if_pos hlt] at hQ
    obtain ⟨r, t', ⟨h', rfl⟩, hQ⟩ :=
      (readi_at hsb htree hb hop h hT he hv (m * DESIZE) DESIZE).outcome exists_accessible
        (alone_bind.mp hQ)
    have hent : direntOf ((List.range DESIZE).map fun x =>
        byteAt (inode sb s.blk) s.blk (T e).inum (m * DESIZE + x)) =
          entry sb s.blk (T e).inum m := rfl
    dsimp only at hQ
    rw [hlen, hent, if_neg (by simp)] at hQ
    rw [findEntry] at hfind
    by_cases hc : (entry sb s.blk (T e).inum m).inum ≠ 0 ∧ (entry sb s.blk (T e).inum m).name = name
    · rw [if_pos hc] at hQ hfind
      rw [Option.some.inj hfind] at hQ
      exact iget_full h' hno _ (alone_bind.mp hQ)
    · rw [if_neg hc] at hQ hfind
      refine ih h' (m := m + 1) (by rw [← hk]; congr 1; omega) hfind ?_
      rwa [Nat.succ_mul]

/-- A name in the root whose inode is not in the table, while all entries are in use: the kernel
panics. -/
lemma namei_full (hsb : sb.Ok) (htree : Tree sb s.blk) (hT : Table sb s.blk p none s.itable)
    (hb : ∀ b, s.blkLock b = none) (hop : 1 ≤ s.outstanding) {path name : List UInt8}
    {rest : List (List UInt8)} (hpath : path.head? = some slash)
    (hnames : components path = name :: rest) (hdir : (inode sb s.blk ROOTINO).type = T_DIR)
    (he : 0 < (s.itable e).ref) (hroot : (s.itable e).inum = ROOTINO)
    (hlook : lookup sb s.blk ROOTINO name = some i)
    (hno : ∀ x, 0 < (s.itable x).ref ∧ (s.itable x).inum ≠ i) (Q : Option Ent → St n → Prop) :
    ¬ alone (exec p) Accessible (namei sb path) s Q := by
  intro hQ
  have hscan : s.slotFor ROOTINO = some e := by
    unfold St.slotFor
    cases h1 : scan fun e => 0 < (s.itable e).ref ∧ (s.itable e).inum = ROOTINO with
    | none =>
      have := scan_none h1 e
      simp [he, hroot] at this
    | some x =>
      have hx := of_decide_eq_true (scan_some h1)
      rw [hT.once x e hx.1 he (hx.2.trans hroot.symm)]
  have hs : Slotted s.itable ROOTINO e := ⟨fun _ => hroot, fun h0 => by omega⟩
  have hTG := hT.got hs htree.root.1 htree.root.2.1
  obtain ⟨hgi, hgr⟩ := got_self hs
  have hge : 0 < (got s.itable e ROOTINO e).ref := by omega
  have hTL := hTG.lockedAt hge
  have hgno : ∀ x, 0 < (lockedAt sb s.blk p (got s.itable e ROOTINO) e x).ref ∧
      (lockedAt sb s.blk p (got s.itable e ROOTINO) e x).inum ≠ i := by
    intro x
    obtain ⟨h1, h2⟩ := got_used hs (hno x).1
    rw [lockedAt_ref, lockedAt_inum, h1]
    exact ⟨(hno x).1.trans_le h2, (hno x).2⟩
  rw [namei] at hQ
  replace hQ := alone_bind.mp hQ
  rw [namex, if_pos hpath, elems_eq, hnames] at hQ
  replace hQ := alone_bind.mp hQ
  rw [iget] at hQ
  obtain ⟨r, t, hex, hQ⟩ := alone_ask_iff.mp (alone_bind.mp hQ) ([], true) rfl
  simp only [exec, hscan, if_pos he, Option.some.injEq] at hex
  obtain ⟨rfl, rfl⟩ := hex
  replace hQ := alone_pure.mp hQ
  rw [namexLoop] at hQ
  have hat : At s (got s.itable e ROOTINO)
      (s.setInode e { s.itable e with ref := (s.itable e).ref + 1 }) := by
    rw [got, if_pos he]
    exact (At.refl s).set e _
  obtain ⟨_, t1, h1, hQ⟩ := (ilock_at hb hat hTG hge).outcome exists_accessible (alone_bind.mp hQ)
  have hself : (lockedAt sb s.blk p (got s.itable e ROOTINO) e e).d = inode sb s.blk ROOTINO := by
    rw [lockedAt, update_self, hgi]
  replace hQ := getI_full h1 hQ
  rw [hself, if_neg (by simpa using hdir), if_neg (by simp)] at hQ
  replace hQ := alone_bind.mp hQ
  rw [dirlookup] at hQ
  replace hQ := getI_full h1 hQ
  rw [hself, if_neg (by simpa using hdir)] at hQ
  have hwhole := Nat.div_mul_cancel (Nat.dvd_of_mod_eq_zero
    (htree.whole ROOTINO htree.root.1 hdir))
  have hfull := dirlookupLoop_full hsb htree hb hop h1 hTL (by rw [lockedAt_ref]; exact hge)
    (by rw [lockedAt, update_self]) hgno name (m := 0)
    (k := (inode sb s.blk ROOTINO).size / DESIZE) (by rw [Nat.zero_add, hwhole, hself])
    (by rw [lockedAt_inum, hgi]; exact hlook)
  rw [Nat.zero_mul] at hfull
  exact hfull _ hQ

/-! ### A small tree -/

def crowdSb : Superblock := ⟨10, 64, 0, 2, 2, 7⟩

def dirBlock (l : List Dirent) : Block :=
  patch (Buf.fill BSIZE 0) 0 (l.flatMap fun de => List.ofFn de.bytes)

def letters : List UInt8 := [97, 98, 99, 100, 101, 102, 103, 104, 105, 106, 107, 108, 109, 110]

/-- The root has the directory `letters` and a name `x`, and that directory has another `x`. All
other inodes are empty directories, and all blocks are in use. -/
def crowdBlocks : Blocks := fun b =>
  if b = 7 then Buf.fill BSIZE 0xff
  else if b = 8 then dirBlock [⟨1, [46]⟩, ⟨1, [46, 46]⟩, ⟨2, letters⟩, ⟨60, [120]⟩]
  else if b = 9 then dirBlock [⟨2, [46]⟩, ⟨1, [46, 46]⟩, ⟨3, [120]⟩]
  else fun j =>
    if j.val % DISIZE = 0 ∨ j.val % DISIZE = 6 then 1
    else if b = 2 then
      if j.val = 72 then 64 else if j.val = 76 then 8
      else if j.val = 136 then 48 else if j.val = 140 then 9 else 0
    else 0

def crowdBlock (i : ℕ) : ℕ := if i = 1 then 8 else if i = 2 then 9 else 0

/-- The table has the first `m` inodes from the root on, which is the directory of the process. -/
def crowd (m : ℕ) : St 1 where
  blk := crowdBlocks
  blkLock := fun _ => none
  itable := fun e => ⟨e + 1, if e < m then 1 else 0, none, false, ⟨0, 0, 0, 0, 0, fun _ => 0⟩⟩
  cwd := fun _ => some ⟨0, by decide⟩
  outstanding := 1
  disk := crowdBlocks
  lh := []

lemma crowd_inode : ∀ i < 64, (inode crowdSb crowdBlocks i).type = T_DIR ∧
    (inode crowdSb crowdBlocks i).nlink = 1 ∧
    (inode crowdSb crowdBlocks i).size = (if i = 1 then 64 else if i = 2 then 48 else 0) ∧
    ∀ k ≤ NDIRECT, (inode crowdSb crowdBlocks i).addrs k = if k = 0 then crowdBlock i else 0 := by
  decide +kernel

lemma crowd_used : ∀ b < 10, used crowdSb crowdBlocks b = true := by decide +kernel

lemma crowd_ok : crowdSb.Ok := by
  refine ⟨by decide, by decide, by decide, by decide, by decide, by decide⟩

lemma crowd_ref {i k : ℕ} (hs : Slot crowdSb i k) :
    ref (inode crowdSb crowdBlocks) crowdBlocks i k = if k = 0 then crowdBlock i else 0 := by
  have h := (crowd_inode i hs.1).2.2.2
  rw [ref]
  by_cases hk : k ≤ NDIRECT
  · rw [if_pos hk, h k hk]
  · have h0 : k ≠ 0 := by
      rintro rfl
      exact hk (Nat.zero_le _)
    have h12 : (inode crowdSb crowdBlocks i).addrs NDIRECT = 0 :=
      (h NDIRECT le_rfl).trans (if_neg (by decide))
    rw [if_neg hk, if_pos h12, if_neg h0]

lemma crowd_wf : Wf crowdSb (inode crowdSb crowdBlocks) crowdBlocks := by
  have hblock : ∀ {i}, crowdBlock i ≠ 0 → i = 1 ∧ crowdBlock i = 8 ∨ i = 2 ∧ crowdBlock i = 9 := by
    intro i h
    unfold crowdBlock at h ⊢
    split_ifs at h ⊢ with h1 h2
    · exact .inl ⟨h1, rfl⟩
    · exact .inr ⟨h2, rfl⟩
    · exact absurd rfl h
  have hone : ∀ {i k}, Slot crowdSb i k → ref (inode crowdSb crowdBlocks) crowdBlocks i k ≠ 0 →
      k = 0 ∧ ref (inode crowdSb crowdBlocks) crowdBlocks i k = crowdBlock i ∧
        (i = 1 ∧ crowdBlock i = 8 ∨ i = 2 ∧ crowdBlock i = 9) := by
    intro i k hs hne
    rw [crowd_ref hs] at hne ⊢
    split_ifs at hne ⊢ with hk
    · exact ⟨hk, rfl, hblock hne⟩
    · exact absurd rfl hne
  refine ⟨fun i k hs hne => ?_, fun i k j l hs hs' hne he => ?_, fun b hb => ?_,
    fun i bn hi hb => ?_, fun i hi => ?_, fun i hi => Dinode.get_fits _ _⟩
  · obtain ⟨-, hr, hb⟩ := hone hs hne
    rw [hr]
    have hd : crowdSb.dataStart = 8 := by decide
    have hz : crowdSb.size = 10 := rfl
    have hlt : crowdBlock i < 10 := by omega
    exact ⟨by omega, by omega, crowd_used _ hlt⟩
  · obtain ⟨hk, hr, hb⟩ := hone hs hne
    obtain ⟨hl, hr', hb'⟩ := hone hs' (he ▸ hne)
    rw [hr, hr'] at he
    omega
  · have : crowdSb.dataStart = 8 := by decide
    exact crowd_used b (by omega)
  · have hs : Slot crowdSb i (slotOf bn) := slot_addr hi ?_
    · rw [(crowd_inode i hi).2.2.1] at hb
      obtain rfl : bn = 0 := by
        change bn * 1024 < _ at hb
        split_ifs at hb <;> omega
      rw [addr, crowd_ref hs, slotOf, if_pos (by decide), crowdBlock]
      split_ifs at hb ⊢ <;> omega
    · rw [(crowd_inode i hi).2.2.1] at hb
      have : MAXFILE = 268 := rfl
      change bn * 1024 < _ at hb
      split_ifs at hb <;> omega
  · rw [(crowd_inode i hi).2.2.1]
    have : MAXFILE * BSIZE = 274432 := rfl
    split_ifs <;> omega

lemma crowd_entries : ∀ j < 64, ∀ k < (inode crowdSb crowdBlocks j).size / DESIZE,
    (entry crowdSb crowdBlocks j k).inum < 64 := by decide +kernel

lemma crowd_tree : Tree crowdSb crowdBlocks := by
  refine ⟨crowd_wf, fun j hj _ => ?_, ?_, fun j k hj _ hk _ => ?_⟩
  · rw [(crowd_inode j hj).2.2.1]
    split_ifs <;> rfl
  · obtain ⟨h1, h2, -⟩ := crowd_inode ROOTINO (by decide)
    exact ⟨by decide, by rw [h1]; decide, by rw [h2]; decide⟩
  · have hlt := crowd_entries j hj k hk
    obtain ⟨h1, h2, -⟩ := crowd_inode _ hlt
    exact ⟨hlt, by rw [h1]; decide, .inl (by rw [h2]; decide)⟩

lemma crowd_table (m : ℕ) (p : Fin 1) : Table crowdSb crowdBlocks p none (crowd m).itable := by
  have hlt : ∀ e : Ent, e.val + 1 < 64 := fun e => by
    have : e.val < 50 := e.2
    omega
  refine ⟨fun e e' _ _ hi => ?_, fun e _ => hlt e, fun e _ => ?_, fun e _ hv => (nomatch hv),
    fun e => rfl⟩
  · exact Fin.ext (Nat.add_right_cancel hi)
  · rw [show ((crowd m).itable e).inum = e.val + 1 from rfl, (crowd_inode _ (hlt e)).1]
    decide

/-- **A full table stops path resolution.** Every entry of the table is in use, one of them for the
root: `namei("/x")` reads the root and finds `x`, but there is no entry for its inode, and the
kernel panics instead of returning it. -/
theorem full_table_panics : ∃ s : St 1, crowdSb.Ok ∧ Tree crowdSb s.blk ∧
    Table crowdSb s.blk 0 none s.itable ∧ (∃ e, s.cwd 0 = some e ∧ 0 < (s.itable e).ref ∧
      (s.itable e).inum = ROOTINO) ∧
    (∀ cwd, resolve crowdSb s.blk (components [slash, 120]) (start s cwd [slash, 120]) = some 60) ∧
    ∀ Q, ¬ alone (exec 0) Accessible (namei crowdSb [slash, 120]) s Q := by
  refine ⟨crowd 50, crowd_ok, crowd_tree, crowd_table _ _, ⟨⟨0, by decide⟩, rfl, by decide, rfl⟩,
    fun _ => ?_, fun Q => ?_⟩
  · change resolve crowdSb crowdBlocks (components [slash, 120]) ROOTINO = some 60
    decide +kernel
  · have hnames : components [slash, 120] = [120] :: [] := by decide +kernel
    refine namei_full (e := ⟨0, by decide⟩) (i := 60) crowd_ok crowd_tree (crowd_table _ _)
      (fun _ => rfl) le_rfl rfl hnames (by decide +kernel) (by decide) rfl (by decide +kernel)
      (fun x => ?_) Q
    have hx : x.val < 50 := x.2
    refine ⟨?_, ?_⟩
    · rw [show ((crowd 50).itable x).ref = if x.val < 50 then 1 else 0 from rfl, if_pos hx]
      exact Nat.one_pos
    · rw [show ((crowd 50).itable x).inum = x.val + 1 from rfl]
      omega

def longPath : List UInt8 := slash :: letters ++ [111, 112, slash, 120]

lemma crowd_ready : Ready crowdSb 0 ⟨0, by decide⟩ (crowd 1) :=
  ⟨crowd_tree, crowd_table _ _, fun _ => rfl, le_rfl, rfl, by decide, by decide +kernel⟩

theorem path_resolution_crowd : Ready crowdSb 0 ⟨0, by decide⟩ (crowd 1) ∧
    (alone (exec 0) Accessible (namei crowdSb longPath) (crowd 1) fun r s' =>
      ∃ e, r = some e ∧ (s'.itable e).inum = 3 ∧
        ∀ i, refs i s'.itable = refs i (crowd 1).itable + if 3 = i then 1 else 0) ∧
    alone (exec 0) Accessible (nameiparent crowdSb longPath) (crowd 1) fun r s' =>
      ∃ e, r = some (e, [120]) ∧ (s'.itable e).inum = 2 := by
  have h := path_resolution crowd_ok crowd_ready longPath
  refine ⟨crowd_ready, h.1.mono ?_, h.2.mono ?_⟩
  · have hres : resolve crowdSb (crowd 1).blk (components longPath)
        (start (crowd 1) ⟨0, by decide⟩ longPath) = some 3 := by
      change resolve crowdSb crowdBlocks (components longPath) ROOTINO = some 3
      decide +kernel
    rintro r s' ⟨-, hr⟩
    rw [hres] at hr
    obtain ⟨e, rfl, -, hi, hk⟩ := hr
    exact ⟨e, rfl, hi, hk⟩
  · have hres : resolveParent crowdSb (crowd 1).blk (components longPath)
        (start (crowd 1) ⟨0, by decide⟩ longPath) = some (2, [120]) := by
      change resolveParent crowdSb crowdBlocks (components longPath) ROOTINO = some (2, [120])
      decide +kernel
    rintro r s' ⟨-, hr, hn⟩
    rw [hres] at hr hn
    obtain ⟨e, he, -, hi, -⟩ := hr
    cases r with
    | none => cases he
    | some x => exact ⟨x.1, by simp at hn; rw [← hn], by cases he; exact hi⟩

end Xv6.FsPath
