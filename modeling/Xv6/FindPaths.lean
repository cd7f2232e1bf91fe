import Mathlib.Data.List.GetD
import Xv6.FindModel

/-!
What `find` handles: the paths of the regular files below its starting path.

A call of `find` for a directory keeps a descriptor while it visits the entries, so that a file
below `k` directories needs `k + 1` descriptors. The paths that are handled are those of the files
with the name for which there are enough of them, each once.
-/

namespace Xv6.Find

open Function Bytes CString FsLayout FsCode FsPath Params
open FsImage (Blocks)
open FsModel (St Ent exec)
open FsFile (Accessible)
open Alone (alone)

variable {fs : Fs} {target path name : List UInt8} {w : World} {i j : ℕ}

/-! ### Trees -/

def Child (de : Dirent) : Prop := de.inum ≠ 0 ∧ de.name ≠ [46] ∧ de.name ≠ [46, 46]

/-- The names of a directory are strings of 1 to `DIRSIZ` bytes without a slash, and no two are the
same. -/
structure Fs.Wf (fs : Fs) : Prop where
  fits : ∀ {i entries}, fs.inode i = some (.dir entries) → ∀ de ∈ entries, de.inum ≠ 0 →
    de.name ≠ [] ∧ de.name.length ≤ DIRSIZ ∧ 0 ∉ de.name ∧ slash ∉ de.name
  distinct : ∀ {i entries}, fs.inode i = some (.dir entries) →
    entries.Pairwise fun de de' => de.inum ≠ 0 → de'.inum ≠ 0 → de.name ≠ de'.name

/-- The names on a way down from the directory `i` to `j`. -/
inductive Path (fs : Fs) : ℕ → List (List UInt8) → ℕ → Prop
  | nil (i : ℕ) : Path fs i [] i
  | cons {i j : ℕ} {entries : List Dirent} {de : Dirent} {names : List (List UInt8)} :
      fs.inode i = some (.dir entries) → de ∈ entries → Child de → Path fs de.inum names j →
      Path fs i (de.name :: names) j

def extend (path : List UInt8) (names : List (List UInt8)) : List UInt8 :=
  path ++ names.flatMap (slash :: ·)

@[simp] lemma extend_nil (path : List UInt8) : extend path [] = path := by simp [extend]

@[simp] lemma extend_cons (path name : List UInt8) (names : List (List UInt8)) :
    extend path (name :: names) = extend (path ++ slash :: name) names := by
  simp [extend]

/-! ### Strings -/

lemma cstr_of {p : ℕ → UInt8} {l : List UInt8} {k : ℕ} (hl : 0 ∉ l) (hp : ∀ x < l.length,
    p x = l.getD x 0) (hend : p l.length = 0) (hk : l.length < k) : cstr p k = l := by
  induction l generalizing p k with
  | nil =>
    obtain ⟨k, rfl⟩ : ∃ m, k = m + 1 := ⟨k - 1, by simp at hk; omega⟩
    exact (cstr_eq_nil (Nat.succ_pos k)).mpr hend
  | cons c l ih =>
    obtain ⟨k, rfl⟩ : ∃ m, k = m + 1 := ⟨k - 1, by simp at hk; omega⟩
    have hc : p 0 = c := hp 0 (Nat.succ_pos _)
    have hne : c ≠ 0 := fun h => hl (by simp [h])
    rw [cstr, hc, if_neg hne, ih (fun h => hl (List.mem_cons_of_mem _ h))
      (fun x hx => hp (x + 1) (by simpa using hx)) hend (by simpa using hk)]

def Prefixed (path : List UInt8) (buf : Buf BUFSIZE) : Prop :=
  ∀ x ≤ path.length, buf.get x = (path ++ [slash]).getD x 0

lemma prefixed_strcpy (junk : Buf BUFSIZE) (h : path.length + 1 ≤ BUFSIZE) :
    Prefixed path ((strcpy junk path).set path.length slash) := by
  intro x hx
  rcases hx.lt_or_eq with hx | rfl
  · have hxB : x < BUFSIZE := by omega
    rw [Buf.get_set_ne _ hx.ne', Buf.get_of_lt _ hxB, strcpy, if_pos (by simpa using hx.le),
      List.getD_append _ _ _ _ hx]
  · rw [Buf.get_set_self _ (by omega), List.getD_append_right _ _ _ _ le_rfl, Nat.sub_self]
    rfl

lemma bytes_name (de : Dirent) {x : ℕ} (hx : x < DIRSIZ) :
    de.bytes.get (2 + x) = de.name.getD x 0 := by
  have hx' : 2 + x < DESIZE := by
    unfold DIRSIZ at hx
    unfold DESIZE
    omega
  rw [Dirent.bytes, Buf.get_setLE_out _ (.inr (by omega)), Buf.get_of_lt _ hx']
  dsimp only
  rw [Nat.add_sub_cancel_left, List.getD_eq_getElem?_getD]

lemma prefixed_name {buf : Buf BUFSIZE} (hbuf : Prefixed path buf) (hpath : 0 ∉ path)
    (hroom : path.length + 1 + DIRSIZ + 1 ≤ BUFSIZE) {de : Dirent} (hlen : de.name.length ≤ DIRSIZ)
    (hnul : 0 ∉ de.name) {b : Buf BUFSIZE}
    (hb : b = (buf.blit (path.length + 1) de.bytes 2 DIRSIZ).set (path.length + 1 + DIRSIZ) 0) :
    Prefixed path b ∧ strAt b (path.length + 1) = de.name ∧
      strAt b 0 = path ++ slash :: de.name := by
  have hpre : Prefixed path b := by
    intro x hx
    rw [hb, Buf.get_set_ne _ (by omega), Buf.get_blit_out _ _ (by omega)]
    exact hbuf x hx
  have hname : ∀ x ≤ DIRSIZ, b.get (path.length + 1 + x) = de.name.getD x 0 := by
    intro x hx
    rcases hx.lt_or_eq with hx | rfl
    · rw [hb, Buf.get_set_ne _ (by omega), Buf.get_blit_in _ _ hx (by omega), bytes_name de hx]
    · rw [hb, Buf.get_set_self _ (by omega), List.getD_eq_default _ _ hlen]
  refine ⟨hpre, ?_, ?_⟩
  · refine cstr_of hnul (fun x hx => hname x (by omega)) ?_ (by omega)
    rw [hname _ hlen, List.getD_eq_default _ _ le_rfl]
  · have hall : ∀ x ≤ path.length + 1 + DIRSIZ, b.get (0 + x) =
        (path ++ slash :: de.name).getD x 0 := by
      intro x hx
      rw [Nat.zero_add, List.append_cons]
      rcases Nat.lt_or_ge path.length x with hlt | hle
      · obtain ⟨y, rfl⟩ := Nat.exists_eq_add_of_le hlt
        rw [List.getD_append_right _ _ _ _ (by simp), hname y (by omega)]
        simp
      · rw [List.getD_append _ _ _ _ (by simpa using Nat.lt_succ_of_le hle), hpre x hle]
    have hlen' : (path ++ slash :: de.name).length = path.length + 1 + de.name.length := by
      simp only [List.length_append, List.length_cons]
      omega
    refine cstr_of ?_ (fun x hx => hall x (by omega)) ?_ (by omega)
    · simp only [List.mem_append, List.mem_cons, not_or]
      exact ⟨hpath, by decide, hnul⟩
    · rw [hall _ (by omega), List.getD_eq_default _ _ le_rfl]

/-! ### Resolving the paths -/

lemma splitOn_append (p q : List UInt8) :
    (p ++ slash :: q).splitOn slash = p.splitOn slash ++ q.splitOn slash := by
  induction p with
  | nil =>
    exact (List.splitOnP_cons_eq_if_modifyHead slash q).trans (if_pos (beq_self_eq_true slash))
  | cons c p ih =>
    have h : ∀ l : List UInt8, (c :: l).splitOn slash =
        if c == slash then [] :: l.splitOn slash else (l.splitOn slash).modifyHead (c :: ·) :=
      fun l => List.splitOnP_cons_eq_if_modifyHead c l
    rw [List.cons_append, h, h, ih]
    split_ifs with hc
    · rfl
    · cases hp : p.splitOn slash with
      | nil => exact absurd hp (List.splitOnP_ne_nil _ _)
      | cons a l => rfl

lemma elems_child (hname : name ≠ []) (hs : slash ∉ name) (hlen : name.length ≤ DIRSIZ)
    (path : List UInt8) : elems (path ++ slash :: name) = elems path ++ [name] := by
  have hsplit : name.splitOn slash = [name] := List.splitOnP_eq_singleton fun x hx => by
    simpa using fun h : x = slash => hs (h ▸ hx)
  rw [elems_eq, elems_eq, components, components, parts, splitOn_append, List.filter_append,
    hsplit, List.map_append, List.filter_cons_of_pos (by simpa using hname)]
  simp [parts, List.take_of_length_le hlen]

lemma namexLoop_append (names : List (List UInt8)) (name : List UInt8) (i : ℕ) :
    namexLoop fs (names ++ [name]) i = (namexLoop fs names i).bind (namexLoop fs [name]) := by
  induction names generalizing i with
  | nil => rfl
  | cons c names ih =>
    rw [List.cons_append, namexLoop, namexLoop]
    cases fs.inode i with
    | none => rfl
    | some ip =>
      cases ip with
      | dir entries =>
        dsimp only
        cases dirlookup entries c with
        | none => rfl
        | some k => exact ih k
      | _ => rfl

lemma dirlookup_eq {entries : List Dirent} {de : Dirent} (hmem : de ∈ entries)
    (hlive : de.inum ≠ 0) (hd : entries.Pairwise fun de de' => de.inum ≠ 0 → de'.inum ≠ 0 →
      de.name ≠ de'.name) : dirlookup entries de.name = some de.inum := by
  induction entries with
  | nil => cases hmem
  | cons a entries ih =>
    obtain ⟨ha, hd⟩ := List.pairwise_cons.mp hd
    rw [dirlookup, List.find?_cons]
    rcases List.mem_cons.mp hmem with rfl | hmem
    · simp [hlive]
    · have hne : ¬ (a.inum ≠ 0 ∧ a.name = de.name) := fun h => ha de hmem h.1 hlive h.2
      rw [decide_eq_false hne]
      exact ih hmem hd

lemma namei_child (hwf : fs.Wf) (hpath : path ≠ []) (hi : namei fs path = some i)
    {entries : List Dirent} (hdir : fs.inode i = some (.dir entries)) {de : Dirent}
    (hmem : de ∈ entries) (hlive : de.inum ≠ 0) :
    namei fs (path ++ slash :: de.name) = some de.inum := by
  obtain ⟨h1, h2, -, h4⟩ := hwf.fits hdir de hmem hlive
  have hhead : (path ++ slash :: de.name).head? = path.head? := by
    cases path with
    | nil => exact absurd rfl hpath
    | cons c cs => rfl
  unfold namei at hi ⊢
  rw [hhead, elems_child h1 h4 h2, namexLoop_append, hi, Option.bind_some, namexLoop, hdir]
  dsimp only
  rw [dirlookup_eq hmem hlive (hwf.distinct hdir)]
  rfl

/-! ### The files of a disk -/

def ofDisk (sb : Superblock) (blk : Blocks) (cwd : ℕ) : Fs where
  inode i :=
    let d := FsImage.inode sb blk i
    if d.type = T_DIR then some (.dir ((List.range' 0 (d.size / DESIZE)).map (entry sb blk i)))
    else if d.type = T_FILE then some .file
    else if d.type = T_DEVICE then some (.device (Int.bmod d.major (2 ^ 16)))
    else none
  cwd := cwd

lemma dirlookup_entries (sb : Superblock) (blk : Blocks) (j : ℕ) (name : List UInt8) (m k : ℕ) :
    dirlookup ((List.range' k m).map (entry sb blk j)) name = findEntry sb blk j name m k := by
  induction m generalizing k with
  | zero => rfl
  | succ m ih =>
    rw [List.range'_succ, List.map_cons, dirlookup, List.find?_cons, findEntry]
    by_cases h : (entry sb blk j k).inum ≠ 0 ∧ (entry sb blk j k).name = name
    · rw [decide_eq_true h, if_pos h]
      rfl
    · rw [decide_eq_false h, if_neg h, ← ih (k + 1)]
      rfl

lemma namexLoop_resolve (sb : Superblock) (blk : Blocks) (cwd : ℕ) (names : List (List UInt8))
    (i : ℕ) : namexLoop (ofDisk sb blk cwd) names i = resolve sb blk names i := by
  induction names generalizing i with
  | nil => rfl
  | cons name names ih =>
    rw [namexLoop, resolve]
    by_cases hdir : (FsImage.inode sb blk i).type = T_DIR
    · have hi : (ofDisk sb blk cwd).inode i = some (.dir ((List.range' 0
          ((FsImage.inode sb blk i).size / DESIZE)).map (entry sb blk i))) := if_pos hdir
      rw [hi, if_pos hdir, lookup]
      dsimp only
      rw [dirlookup_entries]
      exact congrArg _ (funext ih)
    · have hi : ∀ entries, (ofDisk sb blk cwd).inode i ≠ some (.dir entries) := by
        intro entries h
        simp only [ofDisk, if_neg hdir] at h
        split_ifs at h <;> cases h
      rw [if_neg hdir]
      cases h : (ofDisk sb blk cwd).inode i with
      | none => rfl
      | some ip =>
        cases ip with
        | dir entries => exact absurd h (hi entries)
        | _ => rfl

/-- **Paths are resolved as in the kernel.** On every disk with a well-formed tree, in every state
from which path resolution can start and for every path: the kernel's `namei`, block by block and
reference by reference, returns the inode that `find`'s view of the directories gives for the path,
or fails where that view has none, and it leaves the blocks as they are. -/
theorem namei_ofDisk {n : ℕ} {p : Fin n} {s : St n} {sb : Superblock} {cwd : Ent} (hsb : sb.Ok)
    (h : Ready sb p cwd s) (path : List UInt8) :
    alone (exec p) Accessible (FsCode.namei sb path) s fun r s' =>
      (r.map fun e => (s'.itable e).inum) =
        Find.namei (ofDisk sb s.blk (s.itable cwd).inum) path ∧ s'.blk = s.blk := by
  refine (namei_at hsb h path).mono ?_
  rintro r s' ⟨hl, hr⟩
  refine ⟨?_, hl.rest.blk⟩
  have hstart : (if path.head? = some slash then ROOTINO
      else (ofDisk sb s.blk (s.itable cwd).inum).cwd) = start s cwd path := rfl
  rw [Find.namei, hstart, elems_eq, namexLoop_resolve]
  cases hres : resolve sb s.blk (components path) (start s cwd path) with
  | none =>
    rw [hres] at hr
    rw [hr.1, Option.map_none]
  | some i =>
    rw [hres] at hr
    obtain ⟨e, rfl, -, hi, -⟩ := hr
    rw [Option.map_some, hi]

theorem namei_ofDisk_crowd : Ready crowdSb 0 ⟨0, by decide⟩ (crowd 1) ∧
    Find.namei (ofDisk crowdSb crowdBlocks 1) longPath = some 3 ∧
    alone (exec 0) Accessible (FsCode.namei crowdSb longPath) (crowd 1) fun r s' =>
      ∃ e, r = some e ∧ (s'.itable e).inum = 3 := by
  have hres : Find.namei (ofDisk crowdSb crowdBlocks 1) longPath = some 3 := by
    rw [Find.namei, elems_eq, namexLoop_resolve]
    decide +kernel
  refine ⟨crowd_ready, hres, (namei_ofDisk crowd_ok crowd_ready longPath).mono ?_⟩
  rintro r s' ⟨hr, -⟩
  exact Option.map_eq_some_iff.mp (hr.trans hres)

/-! ### The last component -/

lemma lastPart_child (hs : slash ∉ name) (path : List UInt8) :
    lastPart (path ++ slash :: name) = name := by
  have h : ∀ x ∈ name.reverse, decide (x ≠ slash) = true := fun x hx =>
    decide_eq_true fun e => hs (e ▸ List.mem_reverse.mp hx)
  rw [lastPart, List.reverse_append, List.reverse_cons, List.append_assoc,
    List.takeWhile_append_of_pos h]
  simp

lemma extend_inj {name' : List UInt8} (hs : slash ∉ name) (hs' : slash ∉ name')
    {names names' : List (List UInt8)}
    (h : extend (path ++ slash :: name) names = extend (path ++ slash :: name') names') :
    name = name' := by
  have hcut : ∀ (n : List UInt8) (l : List (List UInt8)), slash ∉ n →
      (n ++ l.flatMap (slash :: ·)).takeWhile (· ≠ slash) = n := by
    intro n l hn
    have hall : ∀ x ∈ n, decide (x ≠ slash) = true := fun x hx =>
      decide_eq_true fun e => hn (e ▸ hx)
    rw [List.takeWhile_append_of_pos hall]
    cases l <;> simp
  simp only [extend, List.append_assoc, List.cons_append, List.append_cancel_left_eq,
    List.cons.injEq, true_and] at h
  rw [← hcut name names hs, h, hcut name' names' hs']

/-! ### One call -/

/-- A list of the paths that are handled below `path`, which is the inode `i`, with `m` files that
can be open. -/
structure Finds (fs : Fs) (target path : List UInt8) (i m : ℕ) (out : List (List UInt8)) : Prop
    where
  nodup : out.Nodup
  mem : ∀ s, s ∈ out ↔ ∃ names j, Path fs i names j ∧ fs.inode j = some .file ∧
    names.length < m ∧ s = extend path names ∧ lastPart s = target

/-- A call that has handled `out` and has closed what it has opened. -/
structure Handles (w : World) (out : List (List UInt8)) (w' : World) : Prop where
  ofile : w'.ofile = w.ofile
  files : w'.files = w.files
  handled : w'.handled = w.handled ++ out

lemma scanDir_spec (fs : Fs) (target : List UInt8) (visit : List UInt8 → World → Option World)
    {entries : List Dirent} {m : ℕ} (hpath : 0 ∉ path)
    (hroom : path.length + 1 + DIRSIZ + 1 ≤ BUFSIZE)
    (hfits : ∀ de ∈ entries, de.inum ≠ 0 →
      de.name ≠ [] ∧ de.name.length ≤ DIRSIZ ∧ 0 ∉ de.name ∧ slash ∉ de.name)
    (hd : entries.Pairwise fun de de' => de.inum ≠ 0 → de'.inum ≠ 0 → de.name ≠ de'.name)
    (hvisit : ∀ de ∈ entries, Child de → ∀ u : World, u.ofile = w.ofile → u.files = w.files →
      ∃ out u', visit (path ++ slash :: de.name) u = some u' ∧ Handles u out u' ∧
        Finds fs target (path ++ slash :: de.name) de.inum m out)
    {buf : Buf BUFSIZE} (hbuf : Prefixed path buf) :
    ∃ out w', scanDir visit (path.length + 1) entries buf w = some w' ∧ Handles w out w' ∧
      out.Nodup ∧ ∀ s, s ∈ out ↔ ∃ de ∈ entries, Child de ∧ ∃ names j, Path fs de.inum names j ∧
        fs.inode j = some .file ∧ names.length < m ∧
        s = extend (path ++ slash :: de.name) names ∧ lastPart s = target := by
  induction entries generalizing w buf with
  | nil => exact ⟨[], w, rfl, ⟨rfl, rfl, by simp⟩, .nil, by simp⟩
  | cons de entries ih =>
    obtain ⟨hde, hd⟩ := List.pairwise_cons.mp hd
    have hfits' := fun x hx => hfits x (List.mem_cons_of_mem de hx)
    have hvisit' := fun x hx => hvisit x (List.mem_cons_of_mem de hx)
    rw [scanDir]
    by_cases h0 : de.inum = 0
    · -- a free entry
      obtain ⟨out, w', hrun, hh, hn, hm⟩ := ih hfits' hd hvisit' hbuf
      refine ⟨out, w', by rw [if_pos h0]; exact hrun, hh, hn, fun s => ?_⟩
      rw [hm, List.exists_mem_cons_iff]
      exact (or_iff_right fun h => h.1.1 h0).symm
    · obtain ⟨h1, h2, h3, h4⟩ := hfits de List.mem_cons_self h0
      obtain ⟨hpre, hname, hfull⟩ := prefixed_name hbuf hpath hroom h2 h3 rfl
      rw [if_neg h0]
      dsimp only
      rw [hname, hfull]
      by_cases hdot : de.name = [46] ∨ de.name = [46, 46]
      · -- the directory itself or its parent
        obtain ⟨out, w', hrun, hh, hn, hm⟩ := ih hfits' hd hvisit' hpre
        refine ⟨out, w', by rw [if_pos hdot]; exact hrun, hh, hn, fun s => ?_⟩
        rw [hm, List.exists_mem_cons_iff]
        exact (or_iff_right fun h => hdot.elim h.1.2.1 h.1.2.2).symm
      · have hchild : Child de := ⟨h0, not_or.mp hdot⟩
        obtain ⟨out₁, u, hrun₁, hh₁, hf₁⟩ := hvisit de List.mem_cons_self hchild w rfl rfl
        obtain ⟨out₂, w', hrun₂, hh₂, hn₂, hm₂⟩ := ih hfits' hd
          (fun x hx hc v h5 h6 => hvisit' x hx hc v (h5.trans hh₁.ofile) (h6.trans hh₁.files)) hpre
        refine ⟨out₁ ++ out₂, w', ?_, ⟨hh₂.ofile.trans hh₁.ofile, hh₂.files.trans hh₁.files, ?_⟩,
          ?_, fun s => ?_⟩
        · rw [if_neg hdot, hrun₁]
          exact hrun₂
        · rw [hh₂.handled, hh₁.handled, List.append_assoc]
        · refine List.nodup_append.mpr ⟨hf₁.nodup, hn₂, fun a ha b hb hab => ?_⟩
          obtain ⟨names, j, -, -, -, rfl, -⟩ := (hf₁.mem a).mp ha
          obtain ⟨x, hx, hxc, names', j', -, -, -, rfl, -⟩ := (hm₂ b).mp hb
          exact hde x hx h0 hxc.1 (extend_inj h4 (hfits' x hx hxc.1).2.2.2 hab)
        · rw [List.mem_append, hf₁.mem, hm₂, List.exists_mem_cons_iff]
          simp only [hchild, true_and]

def freeFds (w : World) : ℕ := (Finset.univ.filter fun fd => w.ofile fd = false).card

lemma fdalloc_some (h : 0 < freeFds w) : ∃ fd, fdalloc w = some fd ∧ w.ofile fd = false := by
  obtain ⟨fd, hfd⟩ := Finset.card_pos.mp h
  have hsome : (fdalloc w).isSome := by
    rw [fdalloc, List.find?_isSome]
    exact ⟨fd, List.mem_finRange fd, by simpa using hfd⟩
  obtain ⟨fd', hfd'⟩ := Option.isSome_iff_exists.mp hsome
  exact ⟨fd', hfd', by simpa using List.find?_some hfd'⟩

def opened (fd : Fin NOFILE) (w : World) : World :=
  { w with files := w.files - 1, ofile := update w.ofile fd true }

lemma freeFds_opened {fd : Fin NOFILE} (h : w.ofile fd = false) :
    freeFds (opened fd w) + 1 = freeFds w := by
  have hset : (Finset.univ.filter fun x => w.ofile x = false) =
      insert fd (Finset.univ.filter fun x => (opened fd w).ofile x = false) := by
    ext x
    rw [Finset.mem_insert, Finset.mem_filter, Finset.mem_filter]
    by_cases hx : x = fd
    · simp [hx, h]
    · simp [opened, hx]
  rw [freeFds, freeFds, hset, Finset.card_insert_of_notMem]
  rw [Finset.mem_filter]
  simp [opened]

lemma sysClose_opened {fd : Fin NOFILE} (h : w.ofile fd = false) (hf : 0 < w.files)
    {out : List (List UInt8)} {u : World} (hu : Handles (opened fd w) out u) :
    Handles w out (sysClose fd u) := by
  refine ⟨?_, ?_, hu.handled⟩
  · change update u.ofile fd false = w.ofile
    rw [hu.ofile]
    change update (update w.ofile fd true) fd false = w.ofile
    rw [update_idem, ← h, update_eq_self]
  · change u.files + 1 = w.files
    rw [hu.files]
    change w.files - 1 + 1 = w.files
    omega

lemma sysOpen_some {ip : Inode} (hlen : path.length < MAXPATH)
    (hip : (namei fs path).bind fs.inode = some ip) (hbad : ip.bad = false)
    (hfd : 0 < freeFds w) (hf : 0 < w.files) :
    ∃ fd, w.ofile fd = false ∧ sysOpen fs path w = (some (fd, ip), opened fd w) := by
  obtain ⟨fd, hfd, hfree⟩ := fdalloc_some hfd
  obtain ⟨n, hn⟩ := Nat.exists_eq_succ_of_ne_zero hf.ne'
  refine ⟨fd, hfree, ?_⟩
  rw [sysOpen, if_neg (not_le.mpr hlen), hip]
  dsimp only
  rw [hbad, if_neg Bool.false_ne_true, hn, hfd]
  simp [opened, hn]

lemma Path.eq_nil {names : List (List UInt8)} (h : Path fs i names j)
    (hi : ∀ entries, fs.inode i ≠ some (.dir entries)) : names = [] ∧ j = i := by
  cases h with
  | nil => exact ⟨rfl, rfl⟩
  | cons hdir => exact absurd hdir (hi _)

lemma finds_nil (hi : ∀ entries, fs.inode i ≠ some (.dir entries))
    (hfile : fs.inode i ≠ some .file) (m : ℕ) : Finds fs target path i m [] := by
  refine ⟨.nil, fun s => ⟨nofun, ?_⟩⟩
  rintro ⟨names, j, hp, hj, -⟩
  obtain ⟨-, rfl⟩ := hp.eq_nil hi
  exact absurd hj hfile

lemma finds_file (hi : fs.inode i = some .file) {m : ℕ} (hm : 0 < m) :
    Finds fs target path i m (if lastPart path = target then [path] else []) := by
  have hnodir : ∀ entries, fs.inode i ≠ some (.dir entries) := fun entries => by rw [hi]; nofun
  refine ⟨by split_ifs <;> simp, fun s => ?_⟩
  have hpaths : (∃ names j, Path fs i names j ∧ fs.inode j = some .file ∧ names.length < m ∧
      s = extend path names ∧ lastPart s = target) ↔ s = path ∧ lastPart path = target := by
    constructor
    · rintro ⟨names, j, hp, -, -, rfl, ht⟩
      obtain ⟨rfl, -⟩ := hp.eq_nil hnodir
      rw [extend_nil] at ht ⊢
      exact ⟨rfl, ht⟩
    · rintro ⟨rfl, ht⟩
      exact ⟨[], i, .nil i, hi, hm, (extend_nil _).symm, ht⟩
  rw [hpaths]
  split_ifs with ht <;> simp [ht]

lemma finds_dir {entries : List Dirent} (hi : fs.inode i = some (.dir entries))
    {out : List (List UInt8)} {m : ℕ} (hn : out.Nodup)
    (hm : ∀ s, s ∈ out ↔ ∃ de ∈ entries, Child de ∧ ∃ names j, Path fs de.inum names j ∧
      fs.inode j = some .file ∧ names.length < m ∧ s = extend (path ++ slash :: de.name) names ∧
      lastPart s = target) : Finds fs target path i (m + 1) out := by
  refine ⟨hn, fun s => ?_⟩
  rw [hm]
  constructor
  · rintro ⟨de, hde, hchild, names, j, hp, hj, hlt, hs, ht⟩
    exact ⟨de.name :: names, j, .cons hi hde hchild hp, hj, Nat.succ_lt_succ hlt,
      by rw [extend_cons]; exact hs, ht⟩
  · rintro ⟨names, j, hp, hj, hlt, hs, ht⟩
    cases hp with
    | nil =>
      rw [hi] at hj
      cases hj
    | cons hdir hde hchild hp =>
      obtain rfl : entries = _ := by simpa using hi.symm.trans hdir
      exact ⟨_, hde, hchild, _, j, hp, hj, Nat.lt_of_succ_lt_succ hlt, by rw [hs, extend_cons], ht⟩

def room (w : World) : ℕ := min (freeFds w) w.files

lemma sysOpen_noRoom (h : room w = 0) (fs : Fs) (path : List UInt8) :
    sysOpen fs path w = (none, w) := by
  unfold sysOpen
  split_ifs
  · rfl
  · cases (namei fs path).bind fs.inode with
    | none => rfl
    | some ip =>
      dsimp only
      split_ifs
      · rfl
      · rcases Nat.min_eq_zero_iff.mp h with hfd | hf
        · have hnone : fdalloc w = none := by
            rw [fdalloc, List.find?_eq_none]
            intro fd _ hfree
            have : fd ∈ Finset.univ.filter fun fd => w.ofile fd = false := by simpa using hfree
            rw [Finset.card_eq_zero.mp hfd] at this
            cases this
          rw [hnone]
          cases w.files <;> rfl
        · rw [hf]

lemma find_noRoom (h : room w = 0) (target : List UInt8) (junk : Buf BUFSIZE) (fuel : ℕ) :
    ∃ out w', find fs target junk (fuel + 1) path w = some w' ∧ Handles w out w' ∧
      Finds fs target path i (room w) out := by
  refine ⟨[], w.say (.cannotOpen path), by rw [find, sysOpen_noRoom h],
    ⟨rfl, rfl, by simp [World.say]⟩, .nil, fun s => ⟨nofun, ?_⟩⟩
  rintro ⟨names, j, -, -, hlt, -⟩
  omega

lemma find_unopened (target : List UInt8) (junk : Buf BUFSIZE) (fuel : ℕ)
    (hlen : path.length < MAXPATH) (hi : namei fs path = some i)
    (hbad : ∀ ip, fs.inode i = some ip → ip.bad = true) (m : ℕ) :
    ∃ out w', find fs target junk (fuel + 1) path w = some w' ∧ Handles w out w' ∧
      Finds fs target path i m out := by
  have hopen : sysOpen fs path w = (none, w) := by
    have hres : (namei fs path).bind fs.inode = fs.inode i := by rw [hi]; rfl
    rw [sysOpen, if_neg (not_le.mpr hlen), hres]
    cases hip : fs.inode i with
    | none => rfl
    | some ip =>
      dsimp only
      rw [if_pos (hbad ip hip)]
  refine ⟨[], w.say (.cannotOpen path), by rw [find, hopen], ⟨rfl, rfl, by simp [World.say]⟩, ?_⟩
  refine finds_nil (fun entries h => ?_) (fun h => ?_) m
  · cases hbad _ h
  · cases hbad _ h

lemma find_dir (hwf : fs.Wf) (target : List UInt8) (junk : Buf BUFSIZE) {fuel : ℕ} {fd : Fin NOFILE}
    {entries : List Dirent} {m : ℕ} (hnul : 0 ∉ path) (hlen : path.length < MAXPATH)
    (hip : fs.inode i = some (.dir entries)) (hfree : w.ofile fd = false) (hfiles : 0 < w.files)
    (hopen : sysOpen fs path w = (some (fd, .dir entries), opened fd w))
    (hvisit : ∀ de ∈ entries, Child de → ∀ v : World, v.ofile = (opened fd w).ofile →
      v.files = (opened fd w).files →
      ∃ out v', find fs target junk fuel (path ++ slash :: de.name) v = some v' ∧
        Handles v out v' ∧ Finds fs target (path ++ slash :: de.name) de.inum m out) :
    ∃ out w', find fs target junk (fuel + 1) path w = some w' ∧ Handles w out w' ∧
      Finds fs target path i (m + 1) out := by
  have hroom : path.length + 1 + DIRSIZ + 1 ≤ BUFSIZE := by
    unfold MAXPATH at hlen
    unfold DIRSIZ BUFSIZE
    omega
  have hbuf := prefixed_strcpy junk (show path.length + 1 ≤ BUFSIZE by omega)
  obtain ⟨out, u, hrun, hh, hn, hm⟩ := scanDir_spec fs target (find fs target junk fuel) hnul
    hroom (hwf.fits hip) (hwf.distinct hip) hvisit hbuf
  refine ⟨out, sysClose fd u, ?_, sysClose_opened hfree hfiles hh, finds_dir hip hn hm⟩
  rw [find, hopen]
  dsimp only
  rw [if_neg (not_lt.mpr hroom), hrun]
  rfl

/-- **What a call of `find` does**, from what its nested calls do. -/
lemma find_spec (hwf : fs.Wf) (target : List UInt8) (junk : Buf BUFSIZE) {fuel : ℕ}
    (hpath : path ≠ []) (hnul : 0 ∉ path) (hi : namei fs path = some i)
    (hfuel : MAXPATH ≤ path.length + fuel)
    (hlen : ∀ names j, Path fs i names j → (extend path names).length < MAXPATH) :
    ∃ out w', find fs target junk fuel path w = some w' ∧ Handles w out w' ∧
      Finds fs target path i (room w) out := by
  induction fuel generalizing path i w with
  | zero =>
    have := hlen [] i (.nil i)
    rw [extend_nil] at this
    omega
  | succ fuel ih =>
    have hlen0 : path.length < MAXPATH := by simpa using hlen [] i (.nil i)
    by_cases h0 : room w = 0
    · exact find_noRoom h0 target junk fuel
    have hpos : 0 < room w := Nat.pos_of_ne_zero h0
    obtain ⟨hfd0, hf0⟩ := Nat.lt_min.mp hpos
    by_cases hall : ∀ ip, fs.inode i = some ip → ip.bad = true
    · exact find_unopened target junk fuel hlen0 hi hall _
    push Not at hall
    obtain ⟨ip, hip, hbad⟩ := hall
    have hres : (namei fs path).bind fs.inode = some ip := by rw [hi]; exact hip
    obtain ⟨fd, hfree, hopen⟩ := sysOpen_some hlen0 hres (Bool.not_eq_true _ ▸ hbad) hfd0 hf0
    cases ip with
    | device major =>
      rw [find, hopen]
      refine ⟨[], _, rfl, sysClose_opened hfree hf0 ⟨rfl, rfl, by simp⟩, ?_⟩
      exact finds_nil (by rw [hip]; nofun) (by rw [hip]; nofun) _
    | file =>
      rw [find, hopen]
      refine ⟨_, _, rfl, sysClose_opened hfree hf0 ?_, finds_file hip hpos⟩
      split_ifs
      · exact ⟨rfl, rfl, rfl⟩
      · exact ⟨rfl, rfl, by simp⟩
    | dir entries =>
      have hcount := freeFds_opened hfree
      have hroom : room w = room (opened fd w) + 1 := by
        unfold room
        change _ = min _ (w.files - 1) + 1
        omega
      rw [hroom]
      refine find_dir hwf target junk hnul hlen0 hip hfree hf0 hopen ?_
      intro de hde hchild v hv1 hv2
      obtain ⟨h1, -, h3, -⟩ := hwf.fits hip de hde hchild.1
      have hname : 0 < de.name.length := List.length_pos_iff.mpr h1
      have hv : room v = room (opened fd w) := by
        unfold room freeFds
        rw [hv1, hv2]
      rw [← hv]
      refine ih (by simp) (by simp [hnul, h3, slash])
        (namei_child hwf hpath hi hip hde hchild.1) ?_ (fun names j hp => ?_)
      · simp only [List.length_append, List.length_cons]
        omega
      · rw [← extend_cons]
        exact hlen _ j (.cons hip hde hchild hp)

/-! ### The whole tree -/

lemma Path.fits (hwf : fs.Wf) {names : List (List UInt8)} (h : Path fs i names j) :
    ∀ name ∈ names, 0 ∉ name ∧ slash ∉ name := by
  induction h with
  | nil => simp
  | cons hdir hde hchild _ ih =>
    obtain ⟨-, -, h3, h4⟩ := hwf.fits hdir _ hde hchild.1
    exact List.forall_mem_cons.mpr ⟨⟨h3, h4⟩, ih⟩

lemma extend_concat (path name : List UInt8) (names : List (List UInt8)) :
    extend path (names ++ [name]) = extend path names ++ slash :: name := by
  simp [extend]

lemma extend_names_inj {names names' : List (List UInt8)} (h : ∀ name ∈ names, slash ∉ name)
    (h' : ∀ name ∈ names', slash ∉ name) (he : extend path names = extend path names') :
    names = names' := by
  induction names generalizing names' path with
  | nil =>
    cases names' with
    | nil => rfl
    | cons name names' =>
      have := congrArg List.length he
      simp [extend] at this
  | cons name names ih =>
    cases names' with
    | nil =>
      have := congrArg List.length he
      simp [extend] at this
    | cons name' names' =>
      rw [List.forall_mem_cons] at h h'
      rw [extend_cons, extend_cons] at he
      obtain rfl := extend_inj h.1 h'.1 he
      rw [ih h.2 h'.2 he]

/-- A path that is to be handled: that of a regular file below the inode `i` with the name. -/
def Wanted (fs : Fs) (target start : List UInt8) (i : ℕ) (names : List (List UInt8))
    (s : List UInt8) : Prop :=
  ∃ j, Path fs i (names ++ [target]) j ∧ fs.inode j = some .file ∧
    s = extend start (names ++ [target])

/-- **`find` visits the whole tree.** For every tree, `find` returns; every path that it handles is
a string that fits into the buffer with its NUL, none is handled twice, and every descriptor is
closed again. The paths are those of the regular files below the start whose last component is the
target, as far as there are a descriptor and an entry of the file table for each directory on the
way and for the file; hence they are all of them exactly if there are enough for each. -/
theorem find_visits_tree (fs : Fs) (hwf : fs.Wf) (target start : List UInt8) (i : ℕ)
    (entries : List Dirent) (hdir : fs.inode i = some (.dir entries))
    (hstart : namei fs start = some i) (hne : start ≠ []) (hnul : 0 ∉ start)
    (hlen : ∀ names j, Path fs i names j → (extend start names).length < MAXPATH) (w : World)
    (junk : Buf BUFSIZE) (fuel : ℕ) (hfuel : MAXPATH ≤ fuel) :
    ∃ out w', find fs target junk fuel start w = some w' ∧ w'.handled = w.handled ++ out ∧
      w'.ofile = w.ofile ∧ w'.files = w.files ∧ out.Nodup ∧
      (∀ s ∈ out, 0 ∉ s ∧ s.length + 1 ≤ BUFSIZE) ∧
      (∀ s, s ∈ out ↔ ∃ names, Wanted fs target start i names s ∧
        names.length + 2 ≤ freeFds w ∧ names.length + 2 ≤ w.files) ∧
      ((∀ s, s ∈ out ↔ ∃ names, Wanted fs target start i names s) ↔
        ∀ names s, Wanted fs target start i names s →
          names.length + 2 ≤ freeFds w ∧ names.length + 2 ≤ w.files) := by
  obtain ⟨out, w', hrun, hh, hf⟩ := find_spec (w := w) hwf target junk hne hnul hstart
    (show MAXPATH ≤ start.length + fuel by omega) hlen
  have hmem : ∀ s, s ∈ out ↔ ∃ names, Wanted fs target start i names s ∧
      names.length + 2 ≤ freeFds w ∧ names.length + 2 ≤ w.files := by
    intro s
    rw [hf.mem]
    constructor
    · rintro ⟨names, j, hp, hj, hlt, rfl, ht⟩
      rcases List.eq_nil_or_concat names with rfl | ⟨l, name, rfl⟩
      · cases hp
        rw [hdir] at hj
        cases hj
      · rw [List.concat_eq_append] at hp ht hlt ⊢
        have hname := (hp.fits hwf name (by simp)).2
        rw [extend_concat, lastPart_child hname] at ht
        subst ht
        rw [List.length_append, List.length_singleton] at hlt
        obtain ⟨h1, h2⟩ := Nat.lt_min.mp hlt
        exact ⟨l, ⟨j, hp, hj, rfl⟩, by omega, by omega⟩
    · rintro ⟨names, ⟨j, hp, hj, rfl⟩, h1, h2⟩
      refine ⟨_, j, hp, hj, ?_, rfl, ?_⟩
      · rw [List.length_append, List.length_singleton]
        exact Nat.lt_min.mpr ⟨by omega, by omega⟩
      · rw [extend_concat, lastPart_child (hp.fits hwf target (by simp)).2]
  refine ⟨out, w', hrun, hh.handled, hh.ofile, hh.files, hf.nodup, fun s hs => ?_, hmem, ?_⟩
  · obtain ⟨names, j, hp, -, -, rfl, -⟩ := (hf.mem s).mp hs
    refine ⟨?_, ?_⟩
    · simp only [extend, List.mem_append, List.mem_flatMap, List.mem_cons, not_or, not_exists,
        not_and]
      exact ⟨hnul, fun name hname => ⟨by decide, (hp.fits hwf name hname).1⟩⟩
    · have := hlen names j hp
      unfold MAXPATH at this
      unfold BUFSIZE
      omega
  · constructor
    · rintro hall names s ⟨j, hp, hj, rfl⟩
      obtain ⟨names', ⟨j', hp', -, he⟩, hroom⟩ :=
        (hmem _).mp ((hall _).mpr ⟨names, j, hp, hj, rfl⟩)
      have hsame := extend_names_inj (fun name hn => (hp.fits hwf name hn).2)
        (fun name hn => (hp'.fits hwf name hn).2) he
      rw [List.append_cancel_right hsame]
      exact hroom
    · intro hroom s
      rw [hmem]
      exact exists_congr fun names => and_iff_left_of_imp fun h => hroom names s h

/-! ### Deep trees -/

/-- Directories `1` to `n`, each in the one before under the name `a`, with a file at the end. -/
def chain (n : ℕ) : Fs where
  inode i :=
    if i = 0 then none
    else if i ≤ n then some (.dir [⟨i, [46]⟩, ⟨max 1 (i - 1), [46, 46]⟩, ⟨i + 1, [97]⟩])
    else if i = n + 1 then some .file
    else none
  cwd := 1

def shell : World := ⟨fun fd => fd.val < 3, 97, [], []⟩

lemma chain_dir {n i : ℕ} {entries : List Dirent} (h : (chain n).inode i = some (.dir entries)) :
    i ≤ n ∧ entries = [⟨i, [46]⟩, ⟨max 1 (i - 1), [46, 46]⟩, ⟨i + 1, [97]⟩] := by
  simp only [chain] at h
  split_ifs at h with h1 h2
  · simp only [Option.some.injEq, Inode.dir.injEq] at h
    exact ⟨h2, h.symm⟩
  · cases h

lemma chain_wf (n : ℕ) : (chain n).Wf := by
  refine ⟨fun h de hde _ => ?_, fun h => ?_⟩
  · obtain ⟨-, rfl⟩ := chain_dir h
    simp only [List.mem_cons, List.mem_nil_iff, or_false] at hde
    rcases hde with rfl | rfl | rfl <;> dsimp only <;> decide
  · obtain ⟨-, rfl⟩ := chain_dir h
    simp

lemma chain_path {n i j : ℕ} {names : List (List UInt8)} (h : Path (chain n) i names j)
    (hi : i ≤ n + 1) : names = List.replicate names.length [97] ∧ i + names.length = j ∧
      j ≤ n + 1 := by
  induction h with
  | nil => exact ⟨rfl, rfl, hi⟩
  | @cons i j entries de names hdir hde hchild hp ih =>
    obtain ⟨hn, rfl⟩ := chain_dir hdir
    simp only [List.mem_cons, List.mem_nil_iff, or_false] at hde
    rcases hde with rfl | rfl | rfl
    · exact absurd rfl hchild.2.1
    · exact absurd rfl hchild.2.2
    · obtain ⟨h1, h2, h3⟩ := ih (by dsimp only; omega)
      dsimp only at h2
      rw [List.length_cons, List.replicate_succ, ← h1]
      exact ⟨rfl, by omega, h3⟩

lemma chain_step {n i j : ℕ} {names : List (List UInt8)} (h0 : i ≠ 0) (hi : i ≤ n)
    (h : Path (chain n) (i + 1) names j) : Path (chain n) i ([97] :: names) j := by
  have hdir : (chain n).inode i =
      some (.dir [⟨i, [46]⟩, ⟨max 1 (i - 1), [46, 46]⟩, ⟨i + 1, [97]⟩]) := by
    simp [chain, h0, hi]
  have hchild : Child ⟨i + 1, [97]⟩ := ⟨Nat.succ_ne_zero i, by simp, by simp⟩
  exact .cons hdir (by simp) hchild h

lemma chain_file {n k : ℕ} (hk : k ≤ n) :
    Path (chain n) (n + 1 - k) (List.replicate k [97]) (n + 1) := by
  induction k with
  | zero => exact .nil _
  | succ k ih =>
    rw [List.replicate_succ]
    refine chain_step (by omega) (by omega) ?_
    rw [show n + 1 - (k + 1) + 1 = n + 1 - k by omega]
    exact ih (by omega)

lemma chain_length {n : ℕ} (hn : 2 * n < 127) : ∀ names j, Path (chain n) 1 names j →
    (extend [46] names).length < MAXPATH := by
  intro names j h
  obtain ⟨h1, h2, h3⟩ := chain_path h (by omega)
  rw [h1, extend, List.length_append, List.length_flatMap]
  simp only [List.map_replicate, List.sum_replicate, List.length_cons, List.length_nil]
  unfold MAXPATH
  simp only [smul_eq_mul]
  omega

set_option maxRecDepth 100000 in
lemma chain_missed :
    (find (chain 13) [97] (Buf.fill BUFSIZE 0) MAXPATH [46] shell).map World.handled = some [] := by
  decide +kernel

/-- **Files below many directories are missed.** From a process with three descriptors in use,
`find` opens the 13 directories of a chain, has no descriptor left for the file in the last of them,
and handles nothing. -/
theorem deep_file_missed : (chain 13).Wf ∧ namei (chain 13) [46] = some 1 ∧
    (∀ names j, Path (chain 13) 1 names j → (extend [46] names).length < MAXPATH) ∧
    Path (chain 13) 1 (List.replicate 13 [97]) 14 ∧ (chain 13).inode 14 = some .file ∧
    ∃ w', find (chain 13) [97] (Buf.fill BUFSIZE 0) MAXPATH [46] shell = some w' ∧
      w'.handled = [] := by
  refine ⟨chain_wf 13, by decide, chain_length (by decide), chain_file le_rfl, rfl, ?_⟩
  exact Option.map_eq_some_iff.mp chain_missed

theorem find_visits_tree_chain : ∃ w', find (chain 2) [97] (Buf.fill BUFSIZE 0) MAXPATH [46] shell =
    some w' ∧ [46, 47, 97, 47, 97] ∈ w'.handled := by
  have hfree : freeFds shell = 13 := by decide
  obtain ⟨out, w', hrun, hh, -, -, -, -, hmem, -⟩ := find_visits_tree (chain 2) (chain_wf 2) [97]
    [46] 1 _ rfl (by decide) (by decide) (by decide) (chain_length (by decide)) shell
    (Buf.fill BUFSIZE 0) MAXPATH le_rfl
  refine ⟨w', hrun, ?_⟩
  rw [hh]
  refine List.mem_append_right _ ((hmem _).mpr ⟨[[97]], ⟨3, chain_file le_rfl, rfl, by decide⟩, ?_⟩)
  rw [hfree]
  decide

end Xv6.Find
