import Mathlib.Algebra.BigOperators.Group.Finset.Basic
import Mathlib.Algebra.Order.BigOperators.Group.Finset
import Xv6.LinkModel

/-!
Link counts and names. A name is an entry other than `.` and `..`. The link count of an inode is at
least the number of its names, plus, for a directory, the number of directories named in it; while a
call is going on it owes more than that to those who are about to add a name or have just taken one
away, and the invariant keeps an account of what is owed.

A directory names its parent, which has links: so long as this holds, `..` never leads to an inode
that has been freed.
-/

namespace Xv6.LinkCounts

open Function FsLayout LinkModel

/-! ### Counting names -/

def live (e : Entry) : Bool := e.inum ≠ 0 ∧ e.name ≠ dot ∧ e.name ≠ dotdot

def cnt (i : ℕ) (l : List Entry) : ℕ := l.countP fun e => live e ∧ e.inum = i

def dirs (f : ℕ → Inode) (l : List Entry) : ℕ :=
  l.countP fun e => live e ∧ (f e.inum).type = .dir

def names (N : ℕ) (f : ℕ → Inode) (i : ℕ) : ℕ := ∑ d ∈ Finset.range N, cnt i (f d).ents

def base (i : ℕ) : ℕ := if i = ROOTINO then 1 else 0

def parent (l : List Entry) : ℕ := (l.getD 1 ⟨0, []⟩).inum

/-- The entries of directory `d`: itself, its parent, and names. -/
def Shape (d : ℕ) (l : List Entry) : Prop :=
  ∃ b rest, l = ⟨d, dot⟩ :: ⟨b, dotdot⟩ :: rest ∧ ∀ e ∈ rest, e.inum ≠ 0 → live e = true

def Stays (f : ℕ → Inode) (d : ℕ) : Prop := (f d).type = .dir ∧ 0 < (f d).nlink

variable {N : ℕ} {f : ℕ → Inode} {i d : ℕ} {x : Inode}

lemma names_update (hd : d < N) (i : ℕ) :
    names N (update f d x) i + cnt i (f d).ents = names N f i + cnt i x.ents := by
  have hmem : d ∈ Finset.range N := Finset.mem_range.mpr hd
  have hrest : ∑ k ∈ (Finset.range N).erase d, cnt i (update f d x k).ents =
      ∑ k ∈ (Finset.range N).erase d, cnt i (f k).ents := by
    refine Finset.sum_congr rfl fun k hk => ?_
    rw [update_of_ne (Finset.ne_of_mem_erase hk)]
  rw [names, names, ← Finset.add_sum_erase _ _ hmem, ← Finset.add_sum_erase _ _ hmem, hrest,
    update_self]
  omega

lemma cnt_le_names (hd : d < N) (i : ℕ) : cnt i (f d).ents ≤ names N f i :=
  Finset.single_le_sum (f := fun d => cnt i (f d).ents) (fun _ _ => Nat.zero_le _)
    (Finset.mem_range.mpr hd)

/-- The type of an inode without names does not matter for directories. -/
lemma dirs_update {l : List Entry} (h : cnt d l = 0 ∨ x.type = (f d).type) :
    dirs (update f d x) l = dirs f l := by
  refine List.countP_congr fun e he => ?_
  by_cases hed : e.inum = d
  · rcases h with h | h
    · have hl : live e = false := by
        have := List.countP_eq_zero.mp h e he
        simpa [hed] using this
      simp [hl]
    · rw [hed, update_self, h]
  · rw [update_of_ne hed]

lemma update_type (ht : x.type = (f d).type) (i : ℕ) : (update f d x i).type = (f i).type := by
  by_cases e : i = d
  · rw [e, update_self, ht]
  · rw [update_of_ne e]

/-! ### The account -/

/-- Link counts cover the names and what is owed, `δ`. The directory `y` need not have its first two
entries yet. -/
structure Counts (N : ℕ) (f : ℕ → Inode) (y : Option ℕ) (δ : ℕ → ℕ) : Prop where
  bound : ∀ i, (f i).type ≠ .free → 0 < i ∧ i < N
  acc : ∀ i, (f i).type ≠ .free →
    ((base i + names N f i + dirs f (f i).ents + δ i : ℕ) : ℤ) ≤ (f i).nlink
  high : ∀ i, (f i).type ≠ .free → (f i).nlink ≤ 32767
  free : ∀ i, (f i).type = .free → names N f i = 0 ∧ δ i = 0
  ents : ∀ i, (f i).type ≠ .dir → (f i).ents = []
  shape : ∀ d, some d ≠ y → (f d).type = .dir →
    Shape d (f d).ents ∧ Stays f (parent (f d).ents)
  root : (f ROOTINO).type = .dir

variable {y y' : Option ℕ} {δ δ' : ℕ → ℕ}

section

variable (h : Counts N f y δ)
include h

lemma Counts.cnt_zero (hn : names N f d = 0) (k : ℕ) :
    cnt d (f k).ents = 0 := by
  by_cases hk : (f k).type = .dir
  · have := cnt_le_names (f := f) (h.bound k (by rw [hk]; decide)).2 d
    omega
  · rw [h.ents k hk]
    rfl

/-- One inode changes. What is left to show is about this one, and about the directories that have
it for their parent. -/
lemma Counts.set (hN : 0 < d ∧ d < N)
    (hδ : ∀ i, i ≠ d → cnt i x.ents + δ' i ≤ cnt i (f d).ents + δ i)
    (hdirs : ∀ i, i ≠ d → dirs (update f d x) (f i).ents = dirs f (f i).ents)
    (hown : x.type ≠ .free → ((base d + names N (update f d x) d + dirs (update f d x) x.ents +
      δ' d : ℕ) : ℤ) ≤ x.nlink ∧ x.nlink ≤ 32767)
    (hfree : x.type = .free → names N (update f d x) d = 0 ∧ δ' d = 0)
    (he : x.type ≠ .dir → x.ents = [])
    (hs : some d ≠ y' → x.type = .dir → Shape d x.ents ∧ Stays (update f d x) (parent x.ents))
    (hk : ∀ c, c ≠ d → some c ≠ y' → (f c).type = .dir → parent (f c).ents = d →
      x.type = .dir ∧ 0 < x.nlink)
    (hy : ∀ i, i ≠ d → some i ≠ y' → some i ≠ y) (hr : d = ROOTINO → x.type = .dir) :
    Counts N (update f d x) y' δ' := by
  have hn := names_update (f := f) (x := x) hN.2
  have hroot : (update f d x ROOTINO).type = .dir := by
    by_cases e : ROOTINO = d
    · rw [e, update_self]
      exact hr e.symm
    · rw [update_of_ne e]
      exact h.root
  refine ⟨fun i hi => ?_, fun i hi => ?_, fun i hi => ?_, fun i hi => ?_, fun i hi => ?_,
    fun i hiy hi => ?_, hroot⟩ <;> by_cases e : i = d
  · exact e ▸ hN
  · rw [update_of_ne e] at hi
    exact h.bound i hi
  · subst e
    rw [update_self] at hi ⊢
    exact (hown hi).1
  · rw [update_of_ne e] at hi ⊢
    have := h.acc i hi
    have := hδ i e
    have := hn i
    rw [hdirs i e]
    push_cast at *
    omega
  · subst e
    rw [update_self] at hi ⊢
    exact (hown hi).2
  · rw [update_of_ne e] at hi ⊢
    exact h.high i hi
  · subst e
    rw [update_self] at hi
    exact hfree hi
  · rw [update_of_ne e] at hi
    have := h.free i hi
    have := cnt_le_names (f := f) hN.2 i
    have := hδ i e
    have := hn i
    omega
  · subst e
    rw [update_self] at hi ⊢
    exact he hi
  · rw [update_of_ne e] at hi ⊢
    exact h.ents i hi
  · subst e
    rw [update_self] at hi ⊢
    exact hs hiy hi
  · rw [update_of_ne e] at hi ⊢
    obtain ⟨h1, h2⟩ := h.shape i (hy i e hiy) hi
    refine ⟨h1, ?_⟩
    by_cases hb : parent (f i).ents = d
    · rw [hb, Stays, update_self]
      exact hk i e hiy hi hb
    · rwa [Stays, update_of_ne hb]

/-- An inode keeps its type, and its entries and link count change; a parent keeps a link. -/
lemma Counts.edit (hd : (f d).type ≠ .free) (ht : x.type = (f d).type)
    (hδ : ∀ i, i ≠ d → cnt i x.ents + δ' i ≤ cnt i (f d).ents + δ i)
    (hl : ((cnt d x.ents + dirs f x.ents + δ' d : ℕ) : ℤ) + (f d).nlink ≤
      ((cnt d (f d).ents + dirs f (f d).ents + δ d : ℕ) : ℤ) + x.nlink)
    (hm : x.nlink ≤ 32767) (he : x.type ≠ .dir → x.ents = [])
    (hs : some d ≠ y' → x.type = .dir → Shape d x.ents ∧ Stays f (parent x.ents))
    (hk : ∀ c, some c ≠ y' → (f c).type = .dir → parent (update f d x c).ents = d → 0 < x.nlink)
    (hy : ∀ i, i ≠ d → some i ≠ y' → some i ≠ y) : Counts N (update f d x) y' δ' := by
  have hn := names_update (f := f) (x := x) (h.bound d hd).2 d
  refine h.set (h.bound d hd) hδ (fun _ _ => dirs_update (Or.inr ht)) (fun _ => ⟨?_, hm⟩)
    (fun hx => absurd (ht ▸ hx) hd) he (fun hy' hx => ?_) (fun c hc hcy hcd hp => ?_) hy
    fun hroot => ?_
  · have := h.acc d hd
    rw [dirs_update (Or.inr ht)]
    push_cast at *
    omega
  · obtain ⟨h1, h2, h3⟩ := hs hy' hx
    refine ⟨h1, (update_type ht _).trans h2, ?_⟩
    by_cases hb : parent x.ents = d
    · rw [hb, update_self]
      exact hk d hy' (ht ▸ hx) (by rwa [update_self])
    · rwa [update_of_ne hb]
  · refine ⟨ht.trans ?_, hk c hcy hcd (by rwa [update_of_ne hc])⟩
    exact hp ▸ (h.shape c (hy c hc hcy) hcd).2.1
  · rw [ht, hroot, h.root]

lemma Counts.relink (hd : (f d).type ≠ .free) {v : ℤ}
    (hδ : ∀ i, i ≠ d → δ' i ≤ δ i) (hl : (δ' d : ℤ) + (f d).nlink ≤ δ d + v) (hm : v ≤ 32767)
    (hk : ∀ c, some c ≠ y → (f c).type = .dir → parent (f c).ents = d → 0 < v) :
    Counts N (update f d { f d with nlink := v }) y δ' := by
  refine h.edit hd rfl (fun i hi => Nat.add_le_add_left (hδ i hi) _) ?_ hm (h.ents d)
    (fun hdy hdir => h.shape d hdy hdir) (fun c hcy hc hp => hk c hcy hc ?_) fun i _ hi => hi
  · push_cast
    omega
  · by_cases e : c = d
    · subst e
      rwa [update_self] at hp
    · rwa [update_of_ne e] at hp

lemma Counts.put (hd : (f d).type ≠ .free) (hn : (f d).nlink = 0)
    (hy : ∀ i, i ≠ d → some i ≠ y' → some i ≠ y) : Counts N (update f d ⟨.free, 0, []⟩) y' δ := by
  have ha := h.acc d hd
  rw [hn] at ha
  push_cast at ha
  have hcnt := h.cnt_zero (d := d) (by omega)
  have hnm := names_update (f := f) (x := ⟨.free, 0, []⟩) (h.bound d hd).2 d
  have h0 : ∀ i, cnt i ([] : List Entry) = 0 := fun _ => rfl
  simp only [h0] at hnm
  refine h.set (h.bound d hd) (fun i _ => by simp only [h0]; omega)
    (fun i _ => dirs_update (Or.inl (hcnt i))) (fun hx => absurd rfl hx) (fun _ => by omega)
    (fun _ => rfl) (fun _ hx => by cases hx) (fun c hc hcy hcd hp => ?_) hy fun hroot => ?_
  · have := (h.shape c (hy c hc hcy) hcd).2.2
    rw [hp, hn] at this
    cases this
  · rw [hroot, base, if_pos rfl] at ha
    omega

end

/-- A free inode is taken; its first name is owed to it. -/
lemma Counts.take (h : Counts N f none δ) (hd : (f d).type = .free) (hd0 : 0 < d) (hdN : d < N)
    {type : Ty} (ht : type ≠ .free) (hδ : ∀ i, i ≠ d → δ' i = δ i) (hδd : δ' d = 1) :
    Counts N (update f d ⟨type, 1, []⟩) (some d) δ' := by
  obtain ⟨hn, -⟩ := h.free d hd
  have hents := h.ents d (by rw [hd]; decide)
  have hroot : d ≠ ROOTINO := by
    rintro rfl
    rw [h.root] at hd
    cases hd
  have hnm := names_update (f := f) (x := ⟨type, 1, []⟩) hdN d
  refine h.set ⟨hd0, hdN⟩ (fun i hi => by rw [hδ i hi, hents])
    (fun i _ => dirs_update (Or.inl (h.cnt_zero hn i))) (fun _ => ⟨?_, by simp⟩)
    (fun hx => absurd hx ht) (fun _ => rfl) (fun hdy => absurd rfl hdy)
    (fun c _ _ hcd hp => ?_) (by simp) fun hx => absurd hx hroot
  · rw [hents, Nat.add_right_cancel_iff] at hnm
    rw [hδd, hnm, hn, base, if_neg hroot]
    simp [dirs]
  · have := (h.shape c (by simp) hcd).2.1
    rw [hp, hd] at this
    cases this

lemma Counts.entry (h : Counts N f y δ) (hdy : some d ≠ y) (hd : (f d).type = .dir) {e : Entry}
    (he : e ∈ (f d).ents) (h0 : e.inum ≠ 0) : (f e.inum).type ≠ .free := by
  obtain ⟨⟨b, rest, hl, hrest⟩, hb, -⟩ := h.shape d hdy hd
  have hfree : (f d).type ≠ .free := by rw [hd]; decide
  rw [hl] at he hb
  rcases List.mem_cons.mp he with rfl | he
  · exact hfree
  rcases List.mem_cons.mp he with rfl | he
  · change (f b).type = .dir at hb
    rw [hb]
    decide
  · intro hf
    have hone : 0 < cnt e.inum (f d).ents := by
      refine List.countP_pos_iff.mpr ⟨e, ?_, by simp [hrest e he h0]⟩
      rw [hl]
      exact List.mem_cons_of_mem _ (List.mem_cons_of_mem _ he)
    have := cnt_le_names (f := f) (h.bound d hfree).2 e.inum
    have := (h.free _ hf).1
    omega

/-! ### Directory slots -/

lemma dirlookup_some {l : List Entry} {name : Name} {k : ℕ} (h : dirlookup l name = some k) :
    ∃ hk : k < l.length, l.getD k ⟨0, []⟩ = l.get ⟨k, hk⟩ ∧ (l.get ⟨k, hk⟩).inum ≠ 0 ∧
      (l.get ⟨k, hk⟩).name = name := by
  obtain ⟨hk, hp, -⟩ := List.findIdx?_eq_some_iff_getElem.mp h
  exact ⟨hk, by simp [List.getD_eq_getElem?_getD, hk], by simpa using hp⟩

lemma countP_set {l : List Entry} {k : ℕ} (hk : k < l.length) (q : Entry → Bool) (e : Entry) :
    (l.set k e).countP q + (if q (l.get ⟨k, hk⟩) then 1 else 0) =
      l.countP q + if q e then 1 else 0 := by
  induction l generalizing k with
  | nil => simp at hk
  | cons a l ih =>
    cases k with
    | zero =>
      simp only [List.set_cons_zero, List.countP_cons]
      show _ + (if q a = true then 1 else 0) = _
      omega
    | succ k =>
      have := ih (k := k) (by simpa using hk)
      simp only [List.set_cons_succ, List.countP_cons, List.get_cons_succ]
      omega

lemma dirlink_some {l l' : List Entry} {name : Name} {inum : ℕ} {ok : Bool}
    (h : dirlink l name inum ok = some l') (hi : inum < 2 ^ 16) : dirlookup l name = none ∧
    ((∃ k, ∃ hk : k < l.length, (l.get ⟨k, hk⟩).inum = 0 ∧ l' = l.set k ⟨inum, name⟩) ∨
      l' = l ++ [⟨inum, name⟩]) := by
  unfold dirlink at h
  rw [Nat.mod_eq_of_lt hi] at h
  split at h
  · cases h
  · rename_i hnone
    refine ⟨by simpa using hnone, ?_⟩
    split at h
    · rename_i k hk
      obtain ⟨hlt, hz, -⟩ := List.findIdx?_eq_some_iff_getElem.mp hk
      exact Or.inl ⟨k, hlt, by simpa using hz, (Option.some.inj h).symm⟩
    · split at h
      · exact Or.inr (Option.some.inj h).symm
      · cases h

/-- What a new entry adds to a count of entries that are names. -/
lemma countP_dirlink {l l' : List Entry} {name : Name} {inum : ℕ} {ok : Bool}
    (h : dirlink l name inum ok = some l') (hi : inum < 2 ^ 16) {q : Entry → Bool}
    (hq : ∀ e, q e = true → e.inum ≠ 0) :
    l'.countP q = l.countP q + if q ⟨inum, name⟩ then 1 else 0 := by
  rcases (dirlink_some h hi).2 with ⟨k, hk, hz, rfl⟩ | rfl
  · have h1 := countP_set hk q ⟨inum, name⟩
    have h2 : ¬ q (l.get ⟨k, hk⟩) = true := fun h => hq _ h hz
    rw [if_neg h2] at h1
    omega
  · rw [List.countP_append]
    simp [List.countP_cons]

lemma shape_dirlink {l l' : List Entry} {name : Name} {inum : ℕ} {ok : Bool}
    (h : dirlink l name inum ok = some l') (hi : inum < 2 ^ 16) (hl : Shape d l) (hd : d ≠ 0)
    (hb : parent l ≠ 0) : Shape d l' ∧ parent l' = parent l ∧ name ≠ dot ∧ name ≠ dotdot := by
  obtain ⟨hnone, hcases⟩ := dirlink_some h hi
  obtain ⟨b, rest, rfl, hrest⟩ := hl
  change b ≠ 0 at hb
  -- the names of the first two entries are taken
  have hno := List.findIdx?_eq_none_iff.mp hnone
  have hname : name ≠ dot ∧ name ≠ dotdot := by
    refine ⟨?_, ?_⟩
    · rintro rfl
      have := hno ⟨d, dot⟩ (by simp)
      simp [hd] at this
    · rintro rfl
      have := hno ⟨b, dotdot⟩ (by simp)
      simp [hb] at this
  have hlive : (⟨inum, name⟩ : Entry).inum ≠ 0 → live ⟨inum, name⟩ = true := fun h0 => by
    simpa only [live, decide_eq_true_eq] using ⟨h0, hname⟩
  rcases hcases with ⟨k, hk, hz, rfl⟩ | rfl
  · match k, hk, hz with
    | 0, _, hz => exact absurd hz hd
    | 1, _, hz => exact absurd hz hb
    | k + 2, _, _ =>
      refine ⟨⟨b, rest.set k ⟨inum, name⟩, rfl, fun e he => ?_⟩, rfl, hname⟩
      rcases List.mem_or_eq_of_mem_set he with he | rfl
      · exact hrest e he
      · exact hlive
  · refine ⟨⟨b, rest ++ [⟨inum, name⟩], rfl, fun e he => ?_⟩, rfl, hname⟩
    rcases List.mem_append.mp he with he | he
    · exact hrest e he
    · rw [List.mem_singleton.mp he]
      exact hlive

lemma shape_set {l : List Entry} {k : ℕ} (hk : k < l.length) (hl : Shape d l)
    (h1 : (l.get ⟨k, hk⟩).name ≠ dot) (h2 : (l.get ⟨k, hk⟩).name ≠ dotdot) :
    Shape d (l.set k ⟨0, []⟩) ∧ parent (l.set k ⟨0, []⟩) = parent l := by
  obtain ⟨b, rest, rfl, hrest⟩ := hl
  match k, hk, h1, h2 with
  | 0, _, h1, _ => exact absurd rfl h1
  | 1, _, _, h2 => exact absurd rfl h2
  | k + 2, _, _, _ =>
    refine ⟨⟨b, rest.set k ⟨0, []⟩, rfl, fun e he h0 => ?_⟩, rfl⟩
    rcases List.mem_or_eq_of_mem_set he with he | rfl
    · exact hrest e he h0
    · exact absurd rfl h0

lemma cnt_empty {l : List Entry} (hl : Shape d l) (h : isdirempty l = true) (i : ℕ) :
    cnt i l = 0 := by
  obtain ⟨b, rest, rfl, -⟩ := hl
  refine List.countP_eq_zero.mpr fun e he => ?_
  rcases List.mem_cons.mp he with rfl | he
  · simp [live]
  rcases List.mem_cons.mp he with rfl | he
  · simp [live]
  · have := List.all_eq_true.mp h e he
    simp only [decide_eq_true_eq] at this
    simp [live, this]

end Xv6.LinkCounts
