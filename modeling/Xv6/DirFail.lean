import Mathlib.Data.List.GetD
import Xv6.DirModel

/-!
System calls on directories that fail leave everything visible as it was.

`Held s t H` says that `t` is as `s` but for references to the inodes in `H` and for what is not
visible: free blocks, indirect blocks and which inodes have been read. The calls go from one such
state to the next; where they have changed an inode by then, `s` is replaced by the state with the
change, and on the way out the change is undone.
-/

namespace Xv6.DirFail

open Function Params FsLayout Hoare DirModel
open FsCode (elems)
open LinkModel (Name Entry Ty dot dotdot MAXENT short dirlookup isdirempty)

variable {s t u : St} {i j d dp ip k : ℕ} {H : List ℕ} {name : Name} {x y : Inode}

/-! ### What is visible -/

/-- The visible part of an inode: a free one has none. -/
def seen (x : Inode) : Option (Ty × ℤ × ℤ × ℤ × List Entry × List UInt8) :=
  if x.type = .free then none else some (x.type, x.major, x.minor, x.nlink, x.ents, x.data)

lemma seen_free (h : x.type = .free) : seen x = none := if_pos h

lemma seen_eq (h : seen x = seen y) (hy : y.type ≠ .free) : x.type = y.type ∧ x.major = y.major ∧
    x.minor = y.minor ∧ x.nlink = y.nlink ∧ x.ents = y.ents ∧ x.data = y.data := by
  unfold seen at h
  rw [if_neg hy] at h
  split_ifs at h with hx
  simpa using h

/-- All that is visible is the same, and the references are those of `s` and to the inodes `H`. -/
structure Held (s t : St) (H : List ℕ) : Prop where
  seen : ∀ i, seen (t.inode i) = seen (s.inode i)
  ref : ∀ i, t.ref i = s.ref i + H.count i
  ninodes : t.ninodes = s.ninodes
  cwd : t.cwd = s.cwd
  ofile : t.ofile = s.ofile
  ftable : t.ftable = s.ftable

lemma Held.refl (s : St) : Held s s [] := ⟨fun _ => rfl, fun _ => rfl, rfl, rfl, rfl, rfl⟩

/-- An inode that stays when a reference to it is taken and given back. -/
def Live (s : St) (i : ℕ) : Prop :=
  (s.inode i).type ≠ .free ∧ ((s.inode i).nlink ≠ 0 ∨ 0 < s.ref i)

structure Sound (s : St) : Prop where
  entry : ∀ d, (s.inode d).type = .dir → ∀ e ∈ (s.inode d).ents, e.inum ≠ 0 → Live s e.inum
  root : Live s ROOTINO
  cwd : Live s s.cwd

structure Wf (s : St) : Prop extends Sound s where
  linked : ∀ d, (s.inode d).type = .dir → ∀ e ∈ (s.inode d).ents, e.inum ≠ 0 → e.name ≠ dot →
    e.name ≠ dotdot → 1 ≤ (s.inode e.inum).nlink
  free : ∀ i, (s.inode i).type = .free → s.ref i = 0
  nlink : ∀ i, 0 ≤ (s.inode i).nlink ∧ (s.inode i).nlink < 2 ^ 15
  size : ∀ d, (s.inode d).type = .dir → (s.inode d).ents.length ≤ MAXENT
  files : ∀ f, (s.ftable f).ref = 0 → (s.ftable f).type = .FD_NONE

/-! ### References -/

lemma iget_held (h : Held s t H) (i : ℕ) :
    wp (iget i) t fun _ u => Held s u (i :: H) ∧ u.inode = t.inode ∧ u.free = t.free := by
  rw [iget, wp_modify]
  refine ⟨{ h with ref := fun j => ?_ }, rfl, rfl⟩
  dsimp only
  by_cases hj : j = i
  · subst hj
    rw [update_self, h.ref, List.count_cons_self, Nat.add_assoc]
  · rw [update_of_ne hj, h.ref, List.count_cons_of_ne (Ne.symm hj)]

lemma ilock_held (h : Held s t H) (hi : (s.inode i).type ≠ .free) :
    wp (ilock i) t fun _ u => Held s u H ∧ u.inode = t.inode ∧ u.free = t.free := by
  have ht : (t.inode i).type ≠ .free := (seen_eq (h.seen i) hi).1 ▸ hi
  simp only [ilock, wp_bind, wp_get]
  rw [if_neg ht, wp_modify]
  exact ⟨{ h with }, rfl, rfl⟩

lemma iput_held (h : Held s t (i :: H)) (hi : Live s i) :
    wp (iput i) t fun _ u => Held s u H ∧ u.inode = t.inode ∧ u.free = t.free := by
  have hkeep : ¬ (t.ref i = 1 ∧ t.valid i ∧ (t.inode i).nlink = 0) := by
    rintro ⟨h1, -, h3⟩
    have h4 := h.ref i
    rw [List.count_cons_self] at h4
    rcases hi.2 with hn | hr
    · exact hn ((seen_eq (h.seen i) hi.1).2.2.2.1 ▸ h3)
    · omega
  simp only [iput, wp_bind, wp_get]
  rw [if_neg hkeep, wp_modify]
  refine ⟨{ h with ref := fun j => ?_ }, rfl, rfl⟩
  dsimp only
  have hr := h.ref j
  by_cases hj : j = i
  · subst hj
    rw [List.count_cons_self] at hr
    rw [update_self]
    omega
  · rw [update_of_ne hj, hr, List.count_cons_of_ne (Ne.symm hj)]

lemma iput_returns (i : ℕ) (t : St) : wp (iput i) t fun _ u => u.ofile = t.ofile ∧
    u.ftable = t.ftable ∧ ∀ j ≠ i, u.inode j = t.inode j := by
  simp only [iput, wp_bind, wp_get]
  split_ifs
  · rw [wp_bind, itrunc, wp_modify, wp_bind, wp_modify, wp_modify]
    refine ⟨rfl, rfl, fun j hj => ?_⟩
    dsimp only
    rw [update_of_ne hj, update_of_ne hj]
  · rw [wp_modify]
    exact ⟨rfl, rfl, fun _ _ => rfl⟩

/-! ### Paths -/

lemma dirlookup_slot {l : List Entry} (h : dirlookup l name = some k) :
    ∃ e ∈ l, slotInum l k = e.inum ∧ e.inum ≠ 0 ∧ e.name = name ∧ k < l.length := by
  obtain ⟨hk, he, -⟩ := List.findIdx?_eq_some_iff_getElem.mp h
  refine ⟨l[k], List.getElem_mem hk, ?_, ?_⟩
  · rw [slotInum, List.getD_eq_getElem _ _ hk]
  · simp only [ne_eq, decide_eq_true_eq] at he
    exact ⟨he.1, he.2, hk⟩

/-- The directory that the path of a new file leads to, and its name there. -/
def walk (f : ℕ → Inode) : List Name → ℕ → Option (ℕ × Name)
  | [], _ => none
  | name :: rest, i =>
    if (f i).type ≠ .dir then none
    else if rest = [] then some (i, name)
    else (dirlookup (f i).ents name).bind fun k => walk f rest (slotInum (f i).ents k)

def parentOf (s : St) (path : List UInt8) : Option (ℕ × Name) :=
  walk s.inode (elems path) (if path.head? = some slash then ROOTINO else s.cwd)

/-- What `namex` leaves: the references as they were, but for one to the inode that it returns. -/
def Walked (s : St) (H : List ℕ) (parent : Bool) (r : Option (ℕ × Name)) (u : St) : Prop :=
  match r with
  | none => Held s u H
  | some (j, _) => Held s u (j :: H) ∧ Live s j ∧ (parent → (s.inode j).type = .dir)

lemma namexLoop_held (hs : Sound s) (parent : Bool) (names : List Name)
    (h : Held s t (ip :: H)) (hip : Live s ip) :
    wp (namexLoop parent names ip) t fun r u => Walked s H parent r u ∧
      (parent → r = walk t.inode names ip) ∧ u.inode = t.inode ∧ u.free = t.free := by
  induction names generalizing t ip with
  | nil =>
    rw [namexLoop]
    split_ifs with hp
    · rw [wp_bind]
      exact (iput_held h hip).mono fun _ u hu => wp_pure.mpr ⟨hu.1, fun _ => rfl, hu.2⟩
    · exact wp_pure.mpr ⟨⟨h, hip, fun hp' => absurd hp' hp⟩, fun hp' => absurd hp' hp, rfl, rfl⟩
  | cons name rest ih =>
    rw [namexLoop, wp_bind, walk]
    refine (ilock_held h hip.1).mono ?_
    rintro _ u ⟨hu, hinode, hfree⟩
    simp only [wp_bind, wp_get]
    rw [← hinode, ← hfree]
    obtain ⟨htype, -, -, -, hents, -⟩ := seen_eq (hu.seen ip) hip.1
    by_cases hdir : (u.inode ip).type ≠ .dir
    · rw [if_pos hdir, if_pos hdir, wp_bind]
      exact (iput_held hu hip).mono fun _ v hv => wp_pure.mpr ⟨hv.1, fun _ => rfl, hv.2⟩
    rw [if_neg hdir, if_neg hdir]
    have hsdir : (s.inode ip).type = .dir := htype ▸ not_not.mp hdir
    by_cases hlast : parent ∧ rest = []
    · rw [if_pos hlast, if_pos hlast.2]
      exact wp_pure.mpr ⟨⟨hu, hip, fun _ => hsdir⟩, fun _ => rfl, rfl, rfl⟩
    rw [if_neg hlast]
    have hrest : parent → rest ≠ [] := fun hp hr => hlast ⟨hp, hr⟩
    cases hk : dirlookup (u.inode ip).ents name with
    | none =>
      dsimp only
      rw [wp_bind]
      refine (iput_held hu hip).mono fun _ v hv => wp_pure.mpr ⟨hv.1, fun hp => ?_, hv.2⟩
      rw [if_neg (hrest hp)]
      rfl
    | some k =>
      obtain ⟨e, he, hinum, hne, -⟩ := dirlookup_slot hk
      have hlive : Live s (slotInum (u.inode ip).ents k) := by
        rw [hinum]
        exact hs.entry ip hsdir e (hents ▸ he) hne
      dsimp only
      rw [wp_bind]
      refine (iget_held hu _).mono ?_
      rintro _ v ⟨hv, hvi, hvf⟩
      have hv' : Held s v (ip :: slotInum (u.inode ip).ents k :: H) :=
        { hv with ref := fun j => by rw [hv.ref, List.Perm.count_eq (.swap _ _ _)] }
      rw [wp_bind]
      refine (iput_held hv' hip).mono ?_
      rintro _ z ⟨hz, hzi, hzf⟩
      have hzu := hzi.trans hvi
      refine (ih hz hlive).mono fun r w hw => ⟨hw.1, fun hp => ?_, hw.2.2.1.trans hzu,
        hw.2.2.2.trans (hzf.trans hvf)⟩
      rw [if_neg (hrest hp), hw.2.1 hp, hzu]
      rfl

lemma namex_held (hs : Sound s) (h : Held s t H) (path : List UInt8) (parent : Bool) :
    wp (namex path parent) t fun r u => Walked s H parent r u ∧
      (parent → r = parentOf t path) ∧ u.inode = t.inode ∧ u.free = t.free := by
  have hstart : Live s (if path.head? = some slash then ROOTINO else t.cwd) := by
    split_ifs
    · exact hs.root
    · rw [h.cwd]
      exact hs.cwd
  simp only [namex, wp_bind, wp_get]
  refine (iget_held h _).mono ?_
  rintro _ u ⟨hu, hui, huf⟩
  rw [parentOf, ← hui, ← huf]
  exact namexLoop_held hs parent _ hu hstart

/-! ### Entries -/

/-- Only the slots and the indirect block of `d` may have changed. -/
structure Steady (t u : St) (d : ℕ) : Prop where
  others : ∀ i ≠ d, u.inode i = t.inode i
  own : { u.inode d with ents := (t.inode d).ents, indirect := (t.inode d).indirect } = t.inode d
  ref : u.ref = t.ref
  valid : ∀ i, 0 < t.ref i → u.valid i = t.valid i
  ninodes : u.ninodes = t.ninodes
  cwd : u.cwd = t.cwd
  ofile : u.ofile = t.ofile
  ftable : u.ftable = t.ftable

lemma Steady.refl (t : St) (d : ℕ) : Steady t t d :=
  ⟨fun _ _ => rfl, rfl, rfl, fun _ _ => rfl, rfl, rfl, rfl, rfl⟩

lemma Steady.trans {v : St} (h : Steady t u d) (h' : Steady u v d) : Steady t v d := by
  refine ⟨fun i hi => (h'.others i hi).trans (h.others i hi), ?_, h'.ref.trans h.ref,
    fun i hi => (h'.valid i (h.ref ▸ hi)).trans (h.valid i hi), h'.ninodes.trans h.ninodes,
    h'.cwd.trans h.cwd, h'.ofile.trans h.ofile, h'.ftable.trans h.ftable⟩
  rw [← h.own, ← h'.own]

lemma steady_free (t : St) (d n : ℕ) : Steady t { t with free := n } d :=
  ⟨fun _ _ => rfl, rfl, rfl, fun _ _ => rfl, rfl, rfl, rfl, rfl⟩

lemma steady_set (t : St) (d : ℕ) (l : List Entry) (b : Bool) :
    Steady t { t with
      inode := update t.inode d { t.inode d with ents := l, indirect := b } } d := by
  refine ⟨fun i hi => update_of_ne hi _ _, ?_, rfl, fun _ _ => rfl, rfl, rfl, rfl, rfl⟩
  dsimp only
  rw [update_self]

lemma balloc_steady (t : St) : wp balloc t fun _ u => ∃ n, u = { t with free := n } := by
  simp only [balloc, wp_bind, wp_get]
  split_ifs
  · exact wp_pure.mpr ⟨t.free, rfl⟩
  · rw [wp_bind, wp_set]
    exact wp_pure.mpr ⟨t.free - 1, rfl⟩

lemma bmap_steady (t : St) (d bn : ℕ) : wp (bmap d bn) t fun r u => Steady t u d ∧
    (u.inode d).ents = (t.inode d).ents ∧ (bn * EPB < (t.inode d).ents.length → r = true) := by
  simp only [bmap, wp_bind, wp_get]
  by_cases h1 : bn * EPB < (t.inode d).ents.length
  · rw [if_pos h1]
    exact wp_pure.mpr ⟨Steady.refl t d, rfl, fun _ => rfl⟩
  have halloc : ∀ v, Steady t v d → (v.inode d).ents = (t.inode d).ents → wp balloc v fun r u =>
      Steady t u d ∧ (u.inode d).ents = (t.inode d).ents ∧
        (bn * EPB < (t.inode d).ents.length → r = true) := by
    intro v hv hl
    refine (balloc_steady v).mono ?_
    rintro r _ ⟨n, rfl⟩
    exact ⟨hv.trans (steady_free v d n), hl, fun h => absurd h h1⟩
  rw [if_neg h1]
  split_ifs with h2 h3
  · exact halloc t (Steady.refl t d) rfl
  · exact halloc t (Steady.refl t d) rfl
  · rw [wp_bind]
    refine (balloc_steady t).mono ?_
    rintro r _ ⟨n, rfl⟩
    cases r with
    | false => exact wp_pure.mpr ⟨steady_free t d n, rfl, fun h => absurd h h1⟩
    | true =>
      rw [if_pos rfl, wp_bind, setInode, wp_modify]
      refine halloc _ ((steady_free t d n).trans (steady_set _ d _ _)) ?_
      dsimp only
      rw [update_self]

def written (l : List Entry) (k : ℕ) (e : Entry) : List Entry :=
  if k < l.length then l.set k e else l ++ [e]

lemma writeSlot_steady (t : St) (d k : ℕ) (e : Entry) : wp (writeSlot d k e) t fun r u =>
    Steady t u d ∧ (r = false → (u.inode d).ents = (t.inode d).ents) ∧
    (r = true → (u.inode d).ents = written (t.inode d).ents k e) ∧
    (k < (t.inode d).ents.length → (t.inode d).ents.length ≤ MAXENT → r = true) := by
  simp only [writeSlot, wp_bind, wp_get]
  by_cases h1 : (t.inode d).ents.length < k
  · rw [if_pos h1]
    exact wp_pure.mpr ⟨Steady.refl t d, fun _ => rfl, by simp,
      fun h => by omega⟩
  rw [if_neg h1]
  by_cases h2 : MAXENT < k + 1
  · rw [if_pos h2]
    exact wp_pure.mpr ⟨Steady.refl t d, fun _ => rfl, by simp,
      fun h => by omega⟩
  rw [if_neg h2, wp_bind]
  refine (bmap_steady t d (k / EPB)).mono ?_
  rintro r u ⟨hu, hl, hr⟩
  cases r with
  | false =>
    refine wp_pure.mpr ⟨hu, fun _ => hl, by simp, fun h => ?_⟩
    exact absurd (hr ((Nat.div_mul_le_self k EPB).trans_lt h)) Bool.false_ne_true
  | true =>
    rw [if_pos rfl]
    simp only [wp_bind, wp_get, setInode]
    rw [wp_modify, wp_pure]
    refine ⟨hu.trans (steady_set u d _ _), by simp, fun _ => ?_,
      fun _ _ => rfl⟩
    dsimp only
    rw [update_self, hl]
    rfl

lemma bounce_steady (t : St) (d j : ℕ) : wp (iget j) t fun _ v => wp (iput j) v fun _ u =>
    Steady t u d ∧ u.inode = t.inode := by
  have hkeep : ¬ ((update t.ref j (t.ref j + 1)) j = 1 ∧
      (if t.ref j = 0 then update t.valid j false else t.valid) j = true ∧
      (t.inode j).nlink = 0) := by
    rintro ⟨h1, h2, -⟩
    rw [update_self] at h1
    rw [if_pos (by omega), update_self] at h2
    cases h2
  rw [iget, wp_modify]
  simp only [iput, wp_bind, wp_get]
  rw [if_neg hkeep, wp_modify]
  refine ⟨⟨fun _ _ => rfl, rfl, ?_, fun i hi => ?_, rfl, rfl, rfl, rfl⟩, rfl⟩
  · dsimp only
    rw [update_idem, update_self, Nat.add_sub_cancel, update_eq_self]
  · dsimp only
    split_ifs with h0
    · exact update_of_ne (fun h => by rw [h] at hi; omega) _ _
    · rfl

lemma dirlink_steady (t : St) (d : ℕ) (name : Name) (inum : ℕ) :
    wp (dirlink d name inum) t fun r u => Steady t u d ∧
      (r = false → (u.inode d).ents = (t.inode d).ents) := by
  simp only [dirlink, wp_bind, wp_get]
  cases hk : dirlookup (t.inode d).ents name with
  | some k =>
    dsimp only
    rw [wp_bind]
    refine (bounce_steady t d _).mono fun _ v hv => ?_
    rw [wp_bind]
    exact hv.mono fun _ u hu => wp_pure.mpr ⟨hu.1, fun _ => by rw [hu.2]⟩
  | none => exact (writeSlot_steady t d _ _).mono fun r u hu => ⟨hu.1, hu.2.1⟩

lemma seen_steady (hu : Steady t u d) (hl : (u.inode d).ents = (t.inode d).ents) :
    seen (u.inode i) = seen (t.inode i) := by
  by_cases hi : i = d
  · subst hi
    rw [← hu.own, ← hl]
    rfl
  · rw [hu.others i hi]

lemma Held.steady (h : Held s t H) (hu : Steady t u d)
    (hl : (u.inode d).ents = (t.inode d).ents) : Held s u H :=
  ⟨fun i => (seen_steady hu hl).trans (h.seen i), fun i => hu.ref ▸ h.ref i,
    hu.ninodes.trans h.ninodes, hu.cwd.trans h.cwd, hu.ofile.trans h.ofile,
    hu.ftable.trans h.ftable⟩

/-! ### sys_link -/

def relinked (s : St) (ip : ℕ) (n : ℤ) : St :=
  { s with inode := update s.inode ip { s.inode ip with nlink := n } }

lemma setNlink_held {n m : ℤ} (h : Held (relinked s ip n) t H) (hip : (s.inode ip).type ≠ .free) :
    wp (setNlink ip m) t fun _ u => Held (relinked s ip (short m)) u H := by
  simp only [setNlink, wp_bind, wp_get, setInode]
  rw [wp_modify]
  refine { h with seen := fun i => ?_ }
  have hi := h.seen i
  simp only [relinked] at hi ⊢
  by_cases hii : i = ip
  · subst hii
    rw [update_self] at hi
    rw [update_self, update_self]
    obtain ⟨h1, h2, h3, -, h5, h6⟩ := seen_eq hi hip
    dsimp only at h1 h2 h3 h5 h6
    simp only [seen, h1, h2, h3, h5, h6]
  · rw [update_of_ne hii] at hi
    rw [update_of_ne hii, update_of_ne hii]
    exact hi

lemma relinked_self (s : St) (ip : ℕ) : relinked s ip (s.inode ip).nlink = s := by
  rw [relinked,
    show ({ s.inode ip with nlink := (s.inode ip).nlink } : Inode) = s.inode ip from rfl,
    update_eq_self]

lemma Live.relinked {n : ℤ} (h : Live s i) (hn : n ≠ 0) : Live (relinked s ip n) i := by
  by_cases hi : i = ip
  · subst hi
    refine ⟨?_, .inl ?_⟩
    · rw [DirFail.relinked]
      dsimp only
      rw [update_self]
      exact h.1
    · rw [DirFail.relinked]
      dsimp only
      rwa [update_self]
  · rw [Live, DirFail.relinked]
    dsimp only
    rw [update_of_ne hi]
    exact h

lemma Sound.relinked {n : ℤ} (h : Sound s) (hip : (s.inode ip).type ≠ .dir) (hn : n ≠ 0) :
    Sound (relinked s ip n) := by
  refine ⟨fun d hd e he hne => ?_, h.root.relinked hn, h.cwd.relinked hn⟩
  have hdip : d ≠ ip := by
    rintro rfl
    rw [DirFail.relinked] at hd
    dsimp only at hd
    rw [update_self] at hd
    exact hip hd
  rw [DirFail.relinked] at hd he
  dsimp only at hd he
  rw [update_of_ne hdip] at hd he
  exact (h.entry d hd e he hne).relinked hn

lemma short_back {n : ℤ} (h : 0 ≤ n ∧ n < 2 ^ 15) :
    short (n + 1) ≠ 0 ∧ short (short (n + 1) - 1) = n := by
  have key : ∀ m : ℕ, m = 65536 →
      Int.bmod (n + 1) m ≠ 0 ∧ Int.bmod (Int.bmod (n + 1) m - 1) m = n := by
    intro m hm
    have hdef : ∀ x : ℤ, Int.bmod x m = if x % 65536 < 32768 then x % 65536 else
        x % 65536 - 65536 := by
      intro x
      rw [Int.bmod_def]
      subst hm
      split_ifs <;> omega
    rw [hdef, hdef]
    split_ifs <;> omega
  exact key _ (by norm_num)

lemma relinked_inode (s : St) (ip : ℕ) (n : ℤ) :
    (relinked s ip n).inode ip = { s.inode ip with nlink := n } := update_self _ _ _

def Undone (s : St) (r : ℤ) (u : St) : Prop := r = -1 → Held s u []

lemma linkBad_undone (hs : Wf s) (hip : Live s ip)
    (h : Held (relinked s ip (short ((s.inode ip).nlink + 1))) t [ip]) :
    wp (linkBad ip) t (Undone s) := by
  obtain ⟨-, hback⟩ := short_back (hs.nlink ip)
  have htype : ((relinked s ip (short ((s.inode ip).nlink + 1))).inode ip).type ≠ .free := by
    rw [relinked_inode]
    exact hip.1
  simp only [linkBad, wp_bind]
  refine (ilock_held h htype).mono ?_
  rintro _ u ⟨hu, -⟩
  have hn : (u.inode ip).nlink = short ((s.inode ip).nlink + 1) := by
    have := (seen_eq (hu.seen ip) htype).2.2.2.1
    rwa [relinked_inode] at this
  rw [wp_get, hn]
  refine (setNlink_held hu hip.1).mono fun _ v hv => ?_
  rw [hback, relinked_self] at hv
  exact (iput_held hv hip).mono fun _ w hw => wp_pure.mpr fun _ => hw.1

lemma linkNew_undone (hs : Wf s) (hip : Live s ip) (hdir : (s.inode ip).type ≠ .dir)
    (h : Held (relinked s ip (short ((s.inode ip).nlink + 1))) t [ip]) (new : List UInt8) :
    wp (linkNew ip new) t (Undone s) := by
  have hsound := hs.toSound.relinked hdir (short_back (hs.nlink ip)).1
  rw [linkNew, wp_bind]
  refine (namex_held hsound h new true).mono ?_
  rintro r u ⟨hu, -⟩
  cases r with
  | none => exact linkBad_undone hs hip hu
  | some r =>
    obtain ⟨dp, name⟩ := r
    obtain ⟨hu, hdp, -⟩ := hu
    dsimp only
    rw [wp_bind]
    refine (ilock_held hu hdp.1).mono ?_
    rintro _ v ⟨hv, -⟩
    rw [wp_bind]
    refine (dirlink_steady v dp name ip).mono ?_
    rintro r w ⟨hw, hl⟩
    cases r with
    | true =>
      rw [if_pos rfl, wp_bind]
      refine (iput_returns dp w).mono fun _ _ _ => ?_
      rw [wp_bind]
      exact (iput_returns ip _).mono fun _ _ _ => wp_pure.mpr (by simp [Undone])
    | false =>
      rw [if_neg Bool.false_ne_true, wp_bind]
      exact (iput_held (hv.steady hw (hl rfl)) hdp).mono fun _ x hx => linkBad_undone hs hip hx.1

lemma sysLink_undone (hs : Wf s) (old new : Option (List UInt8)) :
    wp (sysLink old new) s (Undone s) := by
  cases old with
  | none => exact wp_pure.mpr fun _ => Held.refl s
  | some old =>
    cases new with
    | none => exact wp_pure.mpr fun _ => Held.refl s
    | some new =>
      simp only [sysLink, namei, wp_bind]
      refine (namex_held hs.toSound (Held.refl s) old false).mono ?_
      rintro r t ⟨ht, -⟩
      rw [wp_pure]
      cases r with
      | none => exact wp_pure.mpr fun _ => ht
      | some r =>
        obtain ⟨ip, name⟩ := r
        obtain ⟨ht, hip, -⟩ := ht
        simp only [Option.map_some, wp_bind]
        refine (ilock_held ht hip.1).mono ?_
        rintro _ u ⟨hu, -⟩
        rw [wp_get]
        obtain ⟨htype, -, -, hnlink, -⟩ := seen_eq (hu.seen ip) hip.1
        by_cases hdir : (u.inode ip).type = .dir
        · rw [if_pos hdir, wp_bind]
          exact (iput_held hu hip).mono fun _ v hv => wp_pure.mpr fun _ => hv.1
        · rw [if_neg hdir, wp_bind, hnlink]
          have hu' : Held (relinked s ip (s.inode ip).nlink) u [ip] := by rwa [relinked_self]
          exact (setNlink_held hu' hip.1).mono fun _ v hv =>
            linkNew_undone hs hip (htype ▸ hdir) hv new

/-! ### sys_unlink -/

lemma unlinkSlot_returns (t : St) {dp k : ℕ} (ip : ℕ) (hk : k < (t.inode dp).ents.length)
    (hsize : (t.inode dp).ents.length ≤ MAXENT) :
    wp (unlinkSlot dp k ip) t fun r _ => r = 0 := by
  rw [unlinkSlot, wp_bind]
  refine (writeSlot_steady t dp k _).mono ?_
  rintro r u ⟨-, -, -, hr⟩
  rw [if_pos (hr hk hsize)]
  have hend : ∀ v : St, wp (do
      iput dp
      setNlink ip (((← get).inode ip).nlink - 1)
      iput ip
      return (0 : ℤ)) v fun r _ => r = 0 := by
    intro v
    rw [wp_bind]
    refine (iput_returns dp v).mono fun _ w _ => ?_
    simp only [wp_bind, wp_get, setNlink, setInode]
    rw [wp_modify]
    exact (iput_returns ip _).mono fun _ _ _ => wp_pure.mpr rfl
  simp only [wp_bind, wp_get]
  split_ifs
  · simp only [wp_bind, wp_get, setNlink, setInode]
    rw [wp_modify]
    simpa only [wp_bind, wp_get, setNlink, setInode] using hend _
  · simpa only [wp_bind, wp_get, setNlink, setInode] using hend _

lemma sysUnlink_undone (hs : Wf s) (path : Option (List UInt8)) :
    wp (sysUnlink path) s (Undone s) := by
  cases path with
  | none => exact wp_pure.mpr fun _ => Held.refl s
  | some path =>
    rw [sysUnlink, wp_bind]
    refine (namex_held hs.toSound (Held.refl s) path true).mono ?_
    rintro r t ⟨ht, -⟩
    cases r with
    | none => exact wp_pure.mpr fun _ => ht
    | some r =>
      obtain ⟨dp, name⟩ := r
      obtain ⟨ht, hdp, hdir⟩ := ht
      have hbad : ∀ u, Held s u [dp] → wp (do
          iput dp
          return (-1 : ℤ)) u (Undone s) := by
        intro u hu
        rw [wp_bind]
        exact (iput_held hu hdp).mono fun _ v hv => wp_pure.mpr fun _ => hv.1
      dsimp only
      rw [wp_bind]
      refine (ilock_held ht hdp.1).mono ?_
      rintro _ u ⟨hu, -⟩
      rw [wp_bind, wp_get]
      split_ifs with hdot
      · exact hbad u hu
      obtain ⟨-, -, -, -, hents, -⟩ := seen_eq (hu.seen dp) hdp.1
      cases hk : dirlookup (u.inode dp).ents name with
      | none => exact hbad u hu
      | some k =>
        obtain ⟨e, he, hinum, hne, hname, hklen⟩ := dirlookup_slot hk
        rw [hents] at he
        have hlive := hs.entry dp (hdir rfl) e he hne
        obtain ⟨hd1, hd2⟩ := not_or.mp hdot
        have hlink := hs.linked dp (hdir rfl) e he hne (hname ▸ hd1) (hname ▸ hd2)
        dsimp only
        rw [hinum, wp_bind]
        refine (iget_held hu e.inum).mono fun _ v hv => ?_
        rw [wp_bind]
        refine (ilock_held hv.1 hlive.1).mono ?_
        rintro _ w ⟨hw, hwi⟩
        obtain ⟨-, -, -, hnlink, -⟩ := seen_eq (hw.seen e.inum) hlive.1
        simp only [wp_bind, wp_get]
        rw [if_neg (by omega)]
        split_ifs
        · simp only [wp_pure, wp_bind]
          exact (iput_held hw hlive).mono fun _ x hx => by
            simpa only [wp_bind, wp_pure] using hbad x hx.1
        · have hwd : (w.inode dp).ents = (s.inode dp).ents := (seen_eq (hw.seen dp) hdp.1).2.2.2.2.1
          refine (unlinkSlot_returns w e.inum ?_ ?_).mono ?_
          · rw [hwd, ← hents]
            exact hklen
          · rw [hwd]
            exact hs.size dp (hdir rfl)
          · rintro r x rfl
            exact fun h => absurd h (by decide)

/-! ### Room for an entry -/

/-- The blocks that block `bn` of a directory takes, where it is not there yet. -/
def needs (x : Inode) (bn : ℕ) : ℕ := if bn < NDIRECT ∨ x.indirect then 1 else 2

lemma balloc_iff (t : St) : wp balloc t fun r u =>
    (r = true ↔ 0 < t.free) ∧ u = { t with free := t.free - 1 } := by
  simp only [balloc, wp_bind, wp_get]
  split_ifs with h
  · exact wp_pure.mpr ⟨by simp [h], by cases t; simp_all⟩
  · rw [wp_bind, wp_set]
    exact wp_pure.mpr ⟨by simp [Nat.pos_of_ne_zero h], rfl⟩

lemma bmap_iff (t : St) (d bn : ℕ) : wp (bmap d bn) t fun r _ =>
    r = true ↔ bn * EPB < (t.inode d).ents.length ∨ needs (t.inode d) bn ≤ t.free := by
  simp only [bmap, wp_bind, wp_get, needs]
  by_cases h1 : bn * EPB < (t.inode d).ents.length
  · rw [if_pos h1]
    exact wp_pure.mpr (iff_of_true rfl (.inl h1))
  rw [if_neg h1]
  simp only [h1, false_or]
  split_ifs with h2 h3 h4 h5 h6
  · exact (balloc_iff t).mono fun r _ hr => hr.1
  · exact absurd (.inl h2) h3
  · exact (balloc_iff t).mono fun r _ hr => hr.1
  · exact absurd (.inr h4) h5
  · exact absurd h6 (not_or.mpr ⟨h2, h4⟩)
  · rw [wp_bind]
    refine (balloc_iff t).mono ?_
    rintro r _ ⟨hr, rfl⟩
    cases r with
    | false => exact wp_pure.mpr (iff_of_false Bool.false_ne_true fun h => by simp at hr; omega)
    | true =>
      rw [if_pos rfl, wp_bind, setInode, wp_modify]
      refine (balloc_iff _).mono fun r _ h => h.1.trans ?_
      have := hr.mp rfl
      change 0 < t.free - 1 ↔ _
      omega

/-- There is room for an entry more in the directory `dp`. -/
def Room (s : St) (dp : ℕ) : Prop :=
  let x := s.inode dp
  let n := x.ents.length
  (∃ e ∈ x.ents, e.inum = 0) ∨
    n < MAXENT ∧ (n / EPB * EPB < n ∨ needs x (n / EPB) ≤ s.free)

/-- A new entry is made exactly if there is room for it. -/
lemma dirlink_iff (t : St) (d : ℕ) (inum : ℕ) (hnone : dirlookup (t.inode d).ents name = none)
    (hsize : (t.inode d).ents.length ≤ MAXENT) :
    wp (dirlink d name inum) t fun r u => (r = true ↔ Room t d) ∧
      ∀ i ≠ d, u.inode i = t.inode i := by
  simp only [dirlink, wp_bind, wp_get, hnone]
  refine ((writeSlot_steady t d _ _).and (Q := fun r u => _) ?_).mono
    fun r u hu => ⟨hu.2, hu.1.1.others⟩
  simp only [writeSlot, wp_bind, wp_get]
  cases hk : (t.inode d).ents.findIdx? fun e => e.inum = 0 with
  | some k =>
    obtain ⟨hlt, he, -⟩ := List.findIdx?_eq_some_iff_getElem.mp hk
    have hroom : Room t d := .inl ⟨_, List.getElem_mem hlt, by simpa using he⟩
    rw [Option.getD_some, if_neg (by omega), if_neg (by omega), wp_bind]
    refine (bmap_iff t d (k / EPB)).mono fun r u hr => ?_
    obtain rfl : r = true := hr.mpr (.inl ((Nat.div_mul_le_self _ _).trans_lt hlt))
    simp only [if_true, wp_bind, wp_get, setInode]
    rw [wp_modify, wp_pure]
    exact iff_of_true rfl hroom
  | none =>
    have hfull : ¬ ∃ e ∈ (t.inode d).ents, e.inum = 0 := by
      rintro ⟨e, he, h0⟩
      have := List.findIdx?_eq_none_iff.mp hk e he
      simp [h0] at this
    have hroom : Room t d ↔ (t.inode d).ents.length < MAXENT ∧
        ((t.inode d).ents.length / EPB * EPB < (t.inode d).ents.length ∨
          needs (t.inode d) ((t.inode d).ents.length / EPB) ≤ t.free) := or_iff_right hfull
    rw [Option.getD_none, if_neg (lt_irrefl _), hroom]
    by_cases hmax : MAXENT < (t.inode d).ents.length + 1
    · rw [if_pos hmax]
      exact wp_pure.mpr (iff_of_false Bool.false_ne_true fun h => by omega)
    rw [if_neg hmax, wp_bind]
    refine (bmap_iff t d _).mono fun r u hr => ?_
    cases r with
    | false =>
      refine wp_pure.mpr (iff_of_false Bool.false_ne_true fun h => ?_)
      exact Bool.false_ne_true (hr.mpr h.2)
    | true =>
      simp only [if_true, wp_bind, wp_get, setInode]
      rw [wp_modify, wp_pure]
      exact iff_of_true rfl ⟨by omega, hr.mp rfl⟩

/-! ### create -/

/-- The new inode `ip` has been made, with a reference to it and one to the directory. -/
structure Making (s t : St) (type : Ty) (ip dp : ℕ) : Prop where
  seen : ∀ i ≠ ip, seen (t.inode i) = seen (s.inode i)
  type : (t.inode ip).type = type
  ref : ∀ i, t.ref i = s.ref i + [ip, dp].count i
  valid : t.valid ip = true
  ninodes : t.ninodes = s.ninodes
  cwd : t.cwd = s.cwd
  ofile : t.ofile = s.ofile
  ftable : t.ftable = s.ftable

lemma Steady.type (hu : Steady t u d) : (u.inode i).type = (t.inode i).type := by
  by_cases hi : i = d
  · subst hi
    rw [← hu.own]
  · rw [hu.others i hi]

lemma Making.steady {type : Ty} (h : Making s t type ip dp) (hu : Steady t u d)
    (hd : d = ip ∨ (u.inode d).ents = (t.inode d).ents) : Making s u type ip dp := by
  refine ⟨fun i hi => ?_, hu.type.trans h.type, fun i => hu.ref ▸ h.ref i, ?_,
    hu.ninodes.trans h.ninodes, hu.cwd.trans h.cwd, hu.ofile.trans h.ofile,
    hu.ftable.trans h.ftable⟩
  · rw [← h.seen i hi]
    rcases hd with rfl | hl
    · rw [hu.others i hi]
    · exact seen_steady hu hl
  · rw [hu.valid ip ?_, h.valid]
    rw [h.ref, List.count_cons_self]
    omega

def Made (s u : St) (type : Ty) (ip : ℕ) : Prop :=
  (u.inode ip).type = type ∧ u.ofile = s.ofile ∧ u.ftable = s.ftable

lemma createLinks_making {type ty : Ty} (h : Making s t ty ip dp) (name : Name) :
    wp (createLinks type ip dp name) t fun r u =>
      (r = false → Making s u ty ip dp) ∧ (r = true → Made s u ty ip) := by
  have hlast : ∀ v, Making s v ty ip dp → wp (dirlink dp name ip) v fun r u =>
      (r = false → Making s u ty ip dp) ∧ (r = true → Made s u ty ip) := by
    intro v hv
    refine (dirlink_steady v dp name ip).mono ?_
    rintro r u ⟨hu, hl⟩
    exact ⟨fun hr => hv.steady hu (.inr (hl hr)), fun _ => ⟨hu.type.trans hv.type,
      hu.ofile.trans hv.ofile, hu.ftable.trans hv.ftable⟩⟩
  rw [createLinks]
  split_ifs
  · rw [wp_bind]
    refine (dirlink_steady t ip dot ip).mono ?_
    rintro r u ⟨hu, -⟩
    have hu := h.steady hu (.inl rfl)
    cases r with
    | false => exact wp_pure.mpr ⟨fun _ => hu, by simp⟩
    | true =>
      rw [if_pos rfl, wp_bind]
      refine (dirlink_steady u ip dotdot dp).mono ?_
      rintro r v ⟨hv, -⟩
      have hv := hu.steady hv (.inl rfl)
      cases r with
      | false => exact wp_pure.mpr ⟨fun _ => hv, by simp⟩
      | true => exact hlast v hv
  · exact hlast t h

/-- The way out of `create`: the new inode is freed again. -/
lemma iput_making {type : Ty} (h : Making s t type ip dp) (hfree : (s.inode ip).type = .free)
    (href : s.ref ip = 0) (hne : ip ≠ dp) (hn : (t.inode ip).nlink = 0) :
    wp (iput ip) t fun _ u => Held s u [dp] := by
  have hone : t.ref ip = 1 := by
    rw [h.ref, href, List.count_cons_self, List.count_cons_of_ne hne.symm]
    rfl
  simp only [iput, wp_bind, wp_get]
  rw [if_pos ⟨hone, h.valid, hn⟩, wp_bind, itrunc, wp_modify, wp_bind, wp_modify, wp_modify]
  refine { h with seen := fun i => ?_, ref := fun i => ?_ }
  · dsimp only
    by_cases hi : i = ip
    · subst hi
      rw [update_self, seen_free rfl, seen_free hfree]
    · rw [update_of_ne hi, update_of_ne hi]
      exact h.seen i hi
  · dsimp only
    by_cases hi : i = ip
    · subst hi
      rw [update_self, hone, href, List.count_cons_of_ne hne.symm]
      rfl
    · rw [update_of_ne hi, h.ref, List.count_cons_of_ne (Ne.symm hi)]

lemma made_making (type : Ty) {x : Inode} {valid : ℕ → Bool} (h : Held s t [dp])
    (hx : x.type = type) (hv : valid ip = true) :
    Making s { t with
      inode := update t.inode ip x, ref := update t.ref ip (t.ref ip + 1)
      valid := valid } type ip dp := by
  refine ⟨fun i hi => ?_, ?_, fun i => ?_, hv, h.ninodes, h.cwd, h.ofile, h.ftable⟩
  · dsimp only
    rw [update_of_ne hi]
    exact h.seen i
  · dsimp only
    rw [update_self]
    exact hx
  · dsimp only
    by_cases hi : i = ip
    · subst hi
      rw [update_self, h.ref, List.count_cons_self, Nat.add_assoc]
    · rw [update_of_ne hi, h.ref, List.count_cons_of_ne (Ne.symm hi)]

lemma Making.nlink {type : Ty} (h : Making s t type ip dp) (n : ℤ) :
    Making s { t with
      inode := update t.inode ip { t.inode ip with nlink := short n } } type ip dp := by
  refine { h with seen := fun i hi => ?_, type := ?_ }
  · dsimp only
    rw [update_of_ne hi]
    exact h.seen i hi
  · dsimp only
    rw [update_self]
    exact h.type

/-- What `create` has done: nothing, found an inode, or made one. -/
def Created (s : St) (type : Ty) (r : Option ℕ) (u : St) : Prop :=
  match r with
  | none => Held s u []
  | some ip => (Held s u [ip] ∧ Live s ip ∧ type = .file) ∨
      ((s.inode ip).type = .free ∧ Made s u type ip)

def Fits (s : St) (dp : ℕ) : Prop :=
  (∃ i < s.ninodes, i ≠ 0 ∧ (s.inode i).type = .free) ∧ Room s dp

/-- A new file, if one is made, has its link, and one is made exactly where the entry fits. -/
lemma createNew_created (hs : Wf s) (hdp : Live s dp) (hdir : (s.inode dp).type = .dir)
    (h : Held s t [dp]) (hi : t.inode = s.inode) (hf : t.free = s.free)
    (hnone : dirlookup (s.inode dp).ents name = none) {type : Ty} (htype : type ≠ .free)
    (major minor : ℤ) : wp (createNew dp name type major minor) t fun r u => Created s type r u ∧
      (type = .file → (Fits s dp ↔ ∃ ip ∈ r, (s.inode ip).type = .free) ∧
        ∀ ip ∈ r, (u.inode ip).nlink = 1) := by
  simp only [createNew, ialloc, wp_bind, wp_get]
  rw [hi, h.ninodes]
  cases hfind : (List.range s.ninodes).find? fun i => i ≠ 0 ∧ (s.inode i).type = .free with
  | none =>
    dsimp only
    rw [wp_pure]
    simp only [wp_bind]
    refine (iput_held h hdp).mono fun _ u hu => wp_pure.mpr ⟨hu.1, fun _ =>
      ⟨iff_of_false ?_ (by simp), by simp⟩⟩
    rintro ⟨⟨i, hlt, h0, hfree⟩, -⟩
    have := List.find?_eq_none.mp hfind i (List.mem_range.mpr hlt)
    simp [h0, hfree] at this
  | some ip =>
    have hip := List.find?_some hfind
    simp only [decide_eq_true_eq] at hip
    have hlt := List.mem_range.mp (List.mem_of_find?_eq_some hfind)
    have hfree := hip.2
    have href := hs.free ip hfree
    have hne : ip ≠ dp := fun e => hdp.1 (e ▸ hfree)
    dsimp only
    rw [wp_bind, setInode, wp_modify, wp_bind, iget, wp_modify, wp_pure]
    simp only [ilock, wp_bind, wp_get, setInode]
    rw [if_neg (by rw [update_self]; exact htype), wp_modify, wp_modify]
    dsimp only
    rw [update_idem]
    generalize hv : ({ t with inode := _, ref := _, valid := _ } : St) = v
    have hmaking : Making s v type ip dp := by
      rw [← hv, hi]
      exact hi ▸ made_making type h (by rw [update_self]) (by rw [update_self])
    have hlinks : wp (createLinks type ip dp name) v fun r u => type = .file →
        (r = true ↔ Room s dp) ∧ (u.inode ip).nlink = 1 := by
      by_cases hfile : type = .file
      · have hvdp : v.inode dp = s.inode dp := by
          rw [← hv]
          dsimp only
          rw [update_of_ne hne.symm, hi]
        have hroom : Room v dp ↔ Room s dp := by
          unfold Room
          rw [hvdp, show v.free = s.free by rw [← hv]; exact hf]
        rw [createLinks, if_neg (by rw [hfile]; decide)]
        refine (dirlink_iff v dp ip (by rw [hvdp]; exact hnone)
          (by rw [hvdp]; exact hs.size dp hdir)).mono ?_
        rintro r u ⟨hr, hothers⟩ -
        refine ⟨hr.trans hroom, ?_⟩
        rw [hothers ip hne, ← hv]
        dsimp only
        rw [update_self, update_self]
      · exact (createLinks_making hmaking name).mono fun _ _ _ hc => absurd hc hfile
    refine ((createLinks_making hmaking name).and hlinks).mono ?_
    rintro r u ⟨⟨hfail, hmade⟩, hexact⟩
    cases r with
    | true =>
      obtain ⟨h1, h2, h3⟩ := hmade rfl
      have hend : ∀ v : St, v.inode ip = u.inode ip → v.ofile = u.ofile → v.ftable = u.ftable →
          wp (do
            iput dp
            return some ip) v fun r u => Created s type r u ∧ (type = .file →
              (Fits s dp ↔ ∃ ip ∈ r, (s.inode ip).type = .free) ∧
                ∀ ip ∈ r, (u.inode ip).nlink = 1) := by
        intro v e1 e2 e3
        rw [wp_bind]
        refine (iput_returns dp v).mono ?_
        rintro _ w ⟨g1, g2, g3⟩
        have hw : w.inode ip = u.inode ip := (g3 ip hne).trans e1
        refine wp_pure.mpr ⟨.inr ⟨hfree, by rw [hw, h1], g1.trans (e2.trans h2),
          g2.trans (e3.trans h3)⟩, fun ht => ⟨iff_of_true ?_ ⟨ip, rfl, hfree⟩, ?_⟩⟩
        · exact ⟨⟨ip, hlt, hip⟩, (hexact ht).1.mp rfl⟩
        · rintro _ ⟨⟩
          rw [hw]
          exact (hexact ht).2
      rw [if_pos rfl]
      split_ifs
      · simp only [setNlink, setInode, wp_bind, wp_get]
        rw [wp_modify]
        exact wp_bind.mp (hend { u with inode := update u.inode dp _ }
          (update_of_ne hne _ _) rfl rfl)
      · exact hend u rfl rfl rfl
    | false =>
      rw [if_neg Bool.false_ne_true]
      simp only [setNlink, setInode, wp_bind, wp_get]
      rw [wp_modify]
      refine (iput_making ((hfail rfl).nlink 0) hfree href hne ?_).mono fun _ v hv => ?_
      · dsimp only
        rw [update_self]
        exact (by decide : short 0 = 0)
      · refine (iput_held hv hdp).mono fun _ w hw => wp_pure.mpr ⟨hw.1, fun ht =>
          ⟨iff_of_false (fun hc => ?_) (by simp), by simp⟩⟩
        exact Bool.false_ne_true ((hexact ht).1.mpr hc.2)

/-- The path leads to a directory that has no such name, and a new one fits. -/
def NewFile (s : St) (path : List UInt8) : Prop :=
  ∃ dp name, parentOf s path = some (dp, name) ∧ dirlookup (s.inode dp).ents name = none ∧
    Fits s dp

lemma create_created (hs : Wf s) (path : List UInt8) {type : Ty} (htype : type ≠ .free)
    (major minor : ℤ) : wp (create path type major minor) s fun r u => Created s type r u ∧
      (type = .file → (NewFile s path ↔ ∃ ip ∈ r, (s.inode ip).type = .free) ∧
        ∀ ip ∈ r, (s.inode ip).type = .free → (u.inode ip).nlink = 1) := by
  rw [create, wp_bind]
  refine (namex_held hs.toSound (Held.refl s) path true).mono ?_
  rintro r t ⟨ht, hr, hti, htf⟩
  replace hr := hr rfl
  cases r with
  | none =>
    refine wp_pure.mpr ⟨ht, fun _ => ⟨iff_of_false ?_ (by simp), by simp⟩⟩
    rintro ⟨dp, name, hpar, -⟩
    rw [← hr] at hpar
    cases hpar
  | some r =>
    obtain ⟨dp, name⟩ := r
    obtain ⟨ht, hdp, hdir⟩ := ht
    have hnew : NewFile s path ↔ dirlookup (s.inode dp).ents name = none ∧ Fits s dp := by
      unfold NewFile
      simp only [← hr, Option.some.injEq, Prod.mk.injEq]
      exact ⟨fun ⟨_, _, ⟨rfl, rfl⟩, hx⟩ => hx, fun hx => ⟨_, _, ⟨rfl, rfl⟩, hx⟩⟩
    rw [hnew]
    dsimp only
    rw [wp_bind]
    refine (ilock_held ht hdp.1).mono ?_
    rintro _ u ⟨hu, hui, huf⟩
    replace hui := hui.trans hti
    rw [wp_bind, wp_get, hui]
    cases hk : dirlookup (s.inode dp).ents name with
    | none =>
      simp only [true_and]
      exact (createNew_created hs hdp (hdir rfl) hu hui (huf.trans htf) hk htype major minor).mono
        fun r v hv => ⟨hv.1, fun hf => ⟨(hv.2 hf).1, fun ip hip _ => (hv.2 hf).2 ip hip⟩⟩
    | some k =>
      obtain ⟨e, he, hinum, hne, -⟩ := dirlookup_slot hk
      have hlive := hs.entry dp (hdir rfl) e he hne
      simp only [reduceCtorEq, false_and, false_iff]
      rw [hinum, wp_bind]
      refine (iget_held hu e.inum).mono fun _ v hv => ?_
      have hv' : Held s v [dp, e.inum] :=
        { hv.1 with ref := fun j => by rw [hv.1.ref, List.Perm.count_eq (.swap _ _ _)] }
      rw [wp_bind]
      refine (iput_held hv' hdp).mono fun _ w hw => ?_
      rw [wp_bind]
      refine (ilock_held hw.1 hlive.1).mono ?_
      rintro _ x ⟨hx, -⟩
      rw [wp_bind, wp_get]
      split_ifs with hfile
      · refine wp_pure.mpr ⟨.inl ⟨hx, hlive, hfile.1⟩, fun _ => ?_⟩
        simp [hlive.1]
      · rw [wp_bind]
        exact (iput_held hx hlive).mono fun _ y hy => wp_pure.mpr ⟨hy.1, by simp⟩

lemma make_undone (hs : Wf s) (path : Option (List UInt8)) {type : Ty} (htype : type ≠ .free)
    (major minor : ℤ) : wp (make path type major minor) s (Undone s) := by
  cases path with
  | none => exact wp_pure.mpr fun _ => Held.refl s
  | some path =>
    simp only [make, wp_bind]
    refine (create_created hs path htype major minor).mono fun r t ht => ?_
    cases r with
    | none => exact wp_pure.mpr fun _ => ht.1
    | some ip =>
      rw [wp_bind]
      exact (iput_returns ip t).mono fun _ _ _ => wp_pure.mpr (by simp [Undone])

inductive Call
  | link (old new : Option (List UInt8))
  | unlink (path : Option (List UInt8))
  | mkdir (path : Option (List UInt8))
  | mknod (path : Option (List UInt8)) (major minor : ℤ)

def Call.exec : Call → M ℤ
  | .link old new => sysLink old new
  | .unlink path => sysUnlink path
  | .mkdir path => sysMkdir path
  | .mknod path major minor => sysMknod path major minor

/-- **Failed directory operations change nothing visible.** In a well-formed file system, with any
number of free inodes and blocks, every call returns; if it returns -1, the type, link count, device
numbers, entries and contents of every inode that is allocated, the set of those inodes and all
reference counts are as before. -/
theorem failed_call_unseen (s : St) (hs : Wf s) (c : Call) : ∃ r t, c.exec s = .ok (r, t) ∧
    (r = -1 → (∀ i, seen (t.inode i) = seen (s.inode i)) ∧ t.ref = s.ref) := by
  have hc : wp c.exec s (Undone s) := by
    cases c with
    | link old new => exact sysLink_undone hs old new
    | unlink path => exact sysUnlink_undone hs path
    | mkdir path => exact make_undone hs path (by decide) 0 0
    | mknod path major minor => exact make_undone hs path (by decide) _ _
  obtain ⟨r, t, hrun, hu⟩ := hc
  exact ⟨r, t, hrun, fun hr => ⟨(hu hr).seen, funext fun i => by simpa using (hu hr).ref i⟩⟩

/-- A root directory, the working directory of the process, `n` free blocks, and a file table whose
entries are in use `k` times. -/
def small (n k : ℕ) : St where
  ninodes := 8
  free := n
  inode i := if i = 1 then ⟨.dir, 0, 0, 1, [⟨1, dot⟩, ⟨1, dotdot⟩], [], false⟩ else Inode.empty
  ref i := if i = 1 then 1 + NFILE * k else 0
  valid _ := false
  cwd := 1
  ofile _ := none
  ftable _ := ⟨if k = 0 then .FD_NONE else .FD_INODE, k, 1, 0, 0, true, false⟩

lemma small_dir {n k : ℕ} (h : ((small n k).inode i).type = .dir) : i = 1 := by
  by_contra hi
  simp [small, hi, Inode.empty] at h

lemma small_wf (n k : ℕ) : Wf (small n k) := by
  have hroot : Live (small n k) 1 := ⟨by simp [small], .inl (by simp [small])⟩
  have hents : ∀ e ∈ ((small n k).inode 1).ents, e.inum = 1 ∧ (e.name = dot ∨ e.name = dotdot) := by
    simp [small]
  refine ⟨⟨fun d hd e he _ => ?_, hroot, hroot⟩, fun d hd e he _ h1 h2 => ?_, fun i hi => ?_,
    fun i => ?_, fun d hd => ?_, fun f hf => ?_⟩
  · rw [small_dir hd] at he
    rw [(hents e he).1]
    exact hroot
  · rw [small_dir hd] at he
    exact absurd (hents e he).2 (not_or.mpr ⟨h1, h2⟩)
  · have h1 : i ≠ 1 := by
      rintro rfl
      exact hroot.1 hi
    simp [small, h1]
  · by_cases h1 : i = 1 <;> simp [small, h1, Inode.empty]
  · rw [small_dir hd]
    exact (by decide : 2 ≤ MAXENT)
  · simp only [small] at hf ⊢
    rw [if_pos hf]

theorem failed_call_unseen_full : ∃ t, sysMkdir (some [47, 97]) (small 0 0) = .ok (-1, t) ∧
    ∀ i, seen (t.inode i) = seen ((small 0 0).inode i) := by
  have hrun : (sysMkdir (some [47, 97]) (small 0 0)).toOption.map Prod.fst = some (-1) := by
    decide +kernel
  obtain ⟨r, t, ht, hsame⟩ := failed_call_unseen (small 0 0) (small_wf 0 0) (.mkdir (some [47, 97]))
  rw [show sysMkdir (some [47, 97]) (small 0 0) = .ok (r, t) from ht] at hrun
  obtain rfl : r = -1 := Option.some.inj hrun
  exact ⟨t, ht, (hsame rfl).1⟩

/-! ### sys_open -/

lemma filealloc_spec (t : St) : wp filealloc t fun r u =>
    (r = none → u = t ∧ ∀ f, (t.ftable f).ref ≠ 0) ∧
    ∀ f, r = some f → (t.ftable f).ref = 0 ∧
      u = { t with ftable := update t.ftable f { t.ftable f with ref := 1 } } := by
  simp only [filealloc, wp_bind, wp_get]
  cases hf : (List.finRange NFILE).find? fun f => (t.ftable f).ref = 0 with
  | none =>
    refine wp_pure.mpr ⟨fun _ => ⟨rfl, fun f h => ?_⟩,
      fun _ h => absurd h.symm (Option.some_ne_none _)⟩
    have := List.find?_eq_none.mp hf f (List.mem_finRange f)
    simp [h] at this
  | some f =>
    dsimp only
    rw [wp_bind, wp_set]
    refine wp_pure.mpr ⟨fun h => absurd h (Option.some_ne_none _), fun g hg => ?_⟩
    cases hg
    exact ⟨by simpa using List.find?_some hf, rfl⟩

lemma fdalloc_spec (t : St) (f : Fin NFILE) : wp (fdalloc f) t fun r u =>
    (r = none → u = t ∧ ∀ fd, t.ofile fd ≠ none) ∧
    ∀ fd, r = some fd → u = { t with ofile := update t.ofile fd (some f) } := by
  simp only [fdalloc, wp_bind, wp_get]
  cases hfd : (List.finRange NOFILE).find? fun fd => t.ofile fd = none with
  | none =>
    refine wp_pure.mpr ⟨fun _ => ⟨rfl, fun fd h => ?_⟩,
      fun _ h => absurd h.symm (Option.some_ne_none _)⟩
    have := List.find?_eq_none.mp hfd fd (List.mem_finRange fd)
    simp [h] at this
  | some fd =>
    dsimp only
    rw [wp_bind, wp_set]
    refine wp_pure.mpr ⟨fun h => absurd h (Option.some_ne_none _), fun g hg => ?_⟩
    cases hg
    rfl

lemma fileclose_new (t : St) {f : Fin NFILE} (href : (t.ftable f).ref = 0)
    (htype : (t.ftable f).type = .FD_NONE) :
    wp (fileclose f) { t with ftable := update t.ftable f { t.ftable f with ref := 1 } }
      fun _ u => u = t := by
  simp only [fileclose, wp_bind, wp_get, update_self]
  rw [if_neg (lt_irrefl 1), wp_bind, wp_modify, if_pos trivial, wp_bind, wp_modify,
    if_neg (by rw [htype]; decide), wp_pure]
  have hback : ({ t.ftable f with ref := 0, type := .FD_NONE } : File) = t.ftable f := by
    cases hF : t.ftable f
    simp_all
  dsimp only
  rw [update_idem, update_idem, hback, update_eq_self]

lemma openFile_returns (ip : ℕ) (f : Fin NFILE) (omode : ℕ) (t : St) :
    wp (openFile ip f omode) t fun _ _ => True := by
  simp only [openFile, wp_bind, wp_get]
  rw [wp_modify]
  by_cases htrunc : omode &&& O_TRUNC ≠ 0 ∧ (t.inode ip).type = .file
  · rw [if_pos htrunc, itrunc, wp_modify]
    trivial
  · rw [if_neg htrunc, wp_pure]
    trivial

lemma openRest_returns (t : St) (ip omode : ℕ) (hf : ∃ f, (t.ftable f).ref = 0)
    (hfd : ∃ fd, t.ofile fd = none) : wp (openRest ip omode) t fun r _ => 0 ≤ r := by
  rw [openRest, wp_bind]
  refine (filealloc_spec t).mono ?_
  rintro r u ⟨hnone, hsome⟩
  cases r with
  | none =>
    obtain ⟨f, hf⟩ := hf
    exact absurd hf ((hnone rfl).2 f)
  | some f =>
    obtain ⟨-, rfl⟩ := hsome f rfl
    dsimp only
    rw [wp_bind]
    refine (fdalloc_spec _ f).mono ?_
    rintro r v ⟨hnone, hsome⟩
    cases r with
    | none =>
      obtain ⟨fd, hfd⟩ := hfd
      exact absurd hfd ((hnone rfl).2 fd)
    | some fd =>
      dsimp only
      rw [wp_bind]
      exact (openFile_returns ip f omode v).mono fun _ _ _ => wp_pure.mpr (Int.natCast_nonneg _)

lemma openRest_undone (hs : Wf s) (hip : Live s ip) (h : Held s t [ip]) (omode : ℕ) :
    wp (openRest ip omode) t (Undone s) := by
  rw [openRest, wp_bind]
  refine (filealloc_spec t).mono ?_
  rintro r u ⟨hnone, hsome⟩
  cases r with
  | none =>
    obtain ⟨rfl, -⟩ := hnone rfl
    dsimp only
    rw [wp_bind]
    exact (iput_held h hip).mono fun _ v hv => wp_pure.mpr fun _ => hv.1
  | some f =>
    obtain ⟨href, rfl⟩ := hsome f rfl
    dsimp only
    rw [wp_bind]
    refine (fdalloc_spec _ f).mono ?_
    rintro r v ⟨hnone, -⟩
    cases r with
    | none =>
      obtain ⟨rfl, -⟩ := hnone rfl
      dsimp only
      rw [wp_bind]
      have htype : (t.ftable f).type = .FD_NONE := by
        rw [h.ftable] at href ⊢
        exact hs.files f href
      refine (fileclose_new t href htype).mono ?_
      rintro _ _ rfl
      rw [wp_bind]
      exact (iput_held h hip).mono fun _ v hv => wp_pure.mpr fun _ => hv.1
    | some fd =>
      dsimp only
      rw [wp_bind]
      refine (openFile_returns ip f omode v).mono fun _ _ _ => wp_pure.mpr fun hr => ?_
      omega

/-- Opening the path makes a new file: its directory is there and has no such name, there is a free
inode, and there is room for the entry. -/
def Creates (s : St) (path : List UInt8) (omode : ℕ) : Prop :=
  omode &&& O_CREATE ≠ 0 ∧ NewFile s path

structure Fresh (s u : St) (ip : ℕ) : Prop where
  unused : (s.inode ip).type = .free
  type : (u.inode ip).type = .file
  nlink : (u.inode ip).nlink = 1

def Opened (s : St) (path : List UInt8) (omode : ℕ) (r : Option ℕ) (t : St) : Prop :=
  match r with
  | none => Held s t [] ∧ ¬ Creates s path omode
  | some ip => (Held s t [ip] ∧ Live s ip ∧ ¬ Creates s path omode) ∨
      (Creates s path omode ∧ Made s t .file ip ∧ Fresh s t ip)

lemma openInode_opened (hs : Wf s) (path : List UInt8) (omode : ℕ) :
    wp (openInode path omode) s (Opened s path omode) := by
  rw [openInode]
  split_ifs with hmode
  · refine (create_created hs path (show Ty.file ≠ .free by decide) 0 0).mono ?_
    rintro r t ⟨hc, hexact⟩
    obtain ⟨hiff, hlink⟩ := hexact rfl
    cases r with
    | none =>
      refine ⟨hc, fun hcr => ?_⟩
      obtain ⟨ip, hip, -⟩ := hiff.mp hcr.2
      cases hip
    | some ip =>
      rcases hc with ⟨h1, h2, -⟩ | ⟨h1, h2⟩
      · refine .inl ⟨h1, h2, fun hcr => ?_⟩
        obtain ⟨_, ⟨⟩, hfree⟩ := hiff.mp hcr.2
        exact h2.1 hfree
      · exact .inr ⟨⟨hmode, hiff.mpr ⟨ip, rfl, h1⟩⟩, h2, h1, h2.1, hlink ip rfl h1⟩
  · have hcr : ¬ Creates s path omode := fun hc => hmode hc.1
    simp only [namei, wp_bind]
    refine (namex_held hs.toSound (Held.refl s) path false).mono ?_
    rintro r t ⟨ht, -⟩
    rw [wp_pure]
    cases r with
    | none => exact wp_pure.mpr ⟨ht, hcr⟩
    | some r =>
      obtain ⟨ip, name⟩ := r
      obtain ⟨ht, hip, -⟩ := ht
      simp only [Option.map_some, wp_bind]
      refine (ilock_held ht hip.1).mono ?_
      rintro _ u ⟨hu, -⟩
      rw [wp_get]
      split_ifs
      · rw [wp_bind]
        exact (iput_held hu hip).mono fun _ v hv => wp_pure.mpr ⟨hv.1, hcr⟩
      · exact wp_pure.mpr (.inl ⟨hu, hip, hcr⟩)

lemma openRest_fails (hs : Wf s) (h : Fresh s t ip) (hfiles : t.ftable = s.ftable)
    (hno : ¬ ((∃ f, (t.ftable f).ref = 0) ∧ ∃ fd, t.ofile fd = none)) (omode : ℕ) :
    wp (openRest ip omode) t fun r u => r = -1 ∧ (u.inode ip).type = .file := by
  have hput : wp (iput ip) t fun _ u => (u.inode ip).type = .file := by
    simp only [iput, wp_bind, wp_get]
    rw [if_neg (by rw [h.nlink]; simp), wp_modify]
    exact h.type
  rw [openRest, wp_bind]
  refine (filealloc_spec t).mono ?_
  rintro r u ⟨hnone, hsome⟩
  cases r with
  | none =>
    obtain ⟨rfl, -⟩ := hnone rfl
    dsimp only
    rw [wp_bind]
    exact hput.mono fun _ _ hv => wp_pure.mpr ⟨rfl, hv⟩
  | some f =>
    obtain ⟨href, rfl⟩ := hsome f rfl
    dsimp only
    rw [wp_bind]
    have hfd : ∀ fd, t.ofile fd ≠ none := fun fd hfd => hno ⟨⟨f, href⟩, fd, hfd⟩
    simp only [fdalloc, wp_bind, wp_get]
    have hfull : (List.finRange NOFILE).find? (fun fd => t.ofile fd = none) = none := by
      rw [List.find?_eq_none]
      intro fd _
      simpa using hfd fd
    rw [hfull]
    dsimp only
    rw [wp_pure]
    dsimp only
    rw [wp_bind]
    refine (fileclose_new t href (hs.files f (hfiles ▸ href) ▸ by rw [hfiles])).mono ?_
    rintro _ _ rfl
    rw [wp_bind]
    exact hput.mono fun _ _ hv => wp_pure.mpr ⟨rfl, hv⟩

/-- **A failed open has no effect**, exactly if there are a free file and a free descriptor whenever
it makes a new file: every `open` returns; a result of -1 leaves the inodes, their reference counts,
the descriptors and the file table as they were under this condition, and only then. -/
theorem failed_open_unseen (s : St) (hs : Wf s) (path : Option (List UInt8)) (omode : ℕ) :
    ∃ r t, sysOpen path omode s = .ok (r, t) ∧
      ((r = -1 → (∀ i, seen (t.inode i) = seen (s.inode i)) ∧ t.ref = s.ref ∧ t.ofile = s.ofile ∧
          t.ftable = s.ftable) ↔
        ∀ p ∈ path, Creates s p omode →
          (∃ f, (s.ftable f).ref = 0) ∧ ∃ fd, s.ofile fd = none) := by
  have hundone : ∀ {r : ℤ} {t : St}, Undone s r t → r = -1 →
      (∀ i, seen (t.inode i) = seen (s.inode i)) ∧ t.ref = s.ref ∧ t.ofile = s.ofile ∧
        t.ftable = s.ftable := fun hu hr =>
    ⟨(hu hr).seen, funext fun i => by simpa using (hu hr).ref i, (hu hr).ofile, (hu hr).ftable⟩
  suffices hopen : wp (sysOpen path omode) s fun r t =>
      (r = -1 → (∀ i, seen (t.inode i) = seen (s.inode i)) ∧ t.ref = s.ref ∧ t.ofile = s.ofile ∧
          t.ftable = s.ftable) ↔
        ∀ p ∈ path, Creates s p omode →
          (∃ f, (s.ftable f).ref = 0) ∧ ∃ fd, s.ofile fd = none from hopen
  cases path with
  | none => exact wp_pure.mpr (iff_of_true (hundone fun _ => Held.refl s) (by simp))
  | some path =>
    simp only [sysOpen, wp_bind, Option.mem_some_iff, forall_eq']
    refine (openInode_opened hs path omode).mono fun r t ht => ?_
    cases r with
    | none =>
      exact wp_pure.mpr (iff_of_true (hundone fun _ => ht.1) fun hc => absurd hc ht.2)
    | some ip =>
      simp only [wp_bind, wp_get]
      rcases ht with ⟨ht, hip, hno⟩ | ⟨hcreates, ⟨htype, hofile, hftable⟩, hfresh⟩
      · split_ifs
        · rw [wp_bind]
          exact (iput_held ht hip).mono fun _ u hu => wp_pure.mpr
            (iff_of_true (hundone fun _ => hu.1) fun hc => absurd hc hno)
        · exact (openRest_undone hs hip ht omode).mono fun _ u hu =>
            iff_of_true (hundone hu) fun hc => absurd hc hno
      · rw [if_neg (by rw [htype]; simp)]
        by_cases hroom : (∃ f, (s.ftable f).ref = 0) ∧ ∃ fd, s.ofile fd = none
        · refine (openRest_returns t ip omode (hftable ▸ hroom.1) (hofile ▸ hroom.2)).mono
            fun r u hr => iff_of_true (fun h => ?_) fun _ => hroom
          omega
        · refine (openRest_fails hs hfresh hftable (by rw [hftable, hofile]; exact hroom)
            omode).mono ?_
          rintro r u ⟨rfl, hfile⟩
          refine iff_of_false (fun h => ?_) fun h => hroom (h hcreates)
          have hseen := (h rfl).1 ip
          rw [seen_free hfresh.unused] at hseen
          unfold seen at hseen
          rw [if_neg (by rw [hfile]; decide)] at hseen
          cases hseen

theorem failed_open_unseen_missing :
    ∃ t, sysOpen (some [47, 97]) O_RDONLY (small 9 0) = .ok (-1, t) ∧
    ∀ i, seen (t.inode i) = seen ((small 9 0).inode i) := by
  have hrun : (sysOpen (some [47, 97]) O_RDONLY (small 9 0)).toOption.map Prod.fst = some (-1) := by
    decide +kernel
  obtain ⟨r, t, ht, hsame⟩ := failed_open_unseen (small 9 0) (small_wf 9 0) (some [47, 97]) O_RDONLY
  rw [ht] at hrun
  obtain rfl : r = -1 := Option.some.inj hrun
  refine ⟨t, ht, (hsame.mpr (fun p _ h => ?_) rfl).1⟩
  exact absurd (show O_RDONLY &&& O_CREATE = 0 by decide) h.1

/-- **A failed open can leave a file.** With a full file table, `open("/a", O_CREATE | O_RDWR)`
returns -1 after `create` has made the file `/a`. -/
theorem failed_open_creates : Wf (small 9 1) ∧ ((small 9 1).inode 2).type = .free ∧
    ∃ t, sysOpen (some [47, 97]) (O_CREATE ||| O_RDWR) (small 9 1) = .ok (-1, t) ∧
      (t.inode 2).type = .file ∧
      (t.inode 1).ents = [⟨1, dot⟩, ⟨1, dotdot⟩, ⟨2, [97]⟩] := by
  have hrun : (sysOpen (some [47, 97]) (O_CREATE ||| O_RDWR) (small 9 1)).toOption.map
      (fun r => (r.1, (r.2.inode 2).type, (r.2.inode 1).ents)) =
      some (-1, .file, [⟨1, dot⟩, ⟨1, dotdot⟩, ⟨2, [97]⟩]) := by
    decide +kernel
  refine ⟨small_wf 9 1, rfl, ?_⟩
  cases h : sysOpen (some [47, 97]) (O_CREATE ||| O_RDWR) (small 9 1) with
  | error e =>
    rw [h] at hrun
    cases hrun
  | ok x =>
    obtain ⟨r, t⟩ := x
    rw [h] at hrun
    obtain ⟨hr, htree⟩ := Prod.mk.inj (Option.some.inj hrun)
    obtain ⟨htype, hents⟩ := Prod.mk.inj htree
    obtain rfl : r = -1 := hr
    exact ⟨t, rfl, htype, hents⟩

end Xv6.DirFail
