import Xv6.VmCopy
import Xv6.VmMap

/-!
What `copyout`, `copyin` and `copyinstr` copy, and which pages they touch.

`byteAt s e va` is the byte that a user address holds: a page that is not there yet reads as
zero. Page faults do not change any of these bytes, so what a copy does can be said without
mentioning which pages were faulted in on the way.

The loops that copy are also given here with a record of their accesses to data, the loops of
`vm.c` with a note taken at each `memmove`.
-/

namespace Xv6.UserCopy

open Function Bytes Hoare PageTree VmModel VmTable VmUser VmCopy
open VmMap

variable {s t u : Mach} {root a b va p sz : ℕ} {e e' e'' : ℕ → ℕ} {R F : Multiset ℕ}

/-! ### The bytes of an address space -/

def byteAt (s : Mach) (e : ℕ → ℕ) (va : ℕ) : UInt8 :=
  if has (e (va / PGSIZE)) PTE_V then (s.mem (PTE2PA (e (va / PGSIZE)))).get (va % PGSIZE) else 0

lemma byteAt_valid (h : has (e (va / PGSIZE)) PTE_V) :
    byteAt s e va = (s.mem (PTE2PA (e (va / PGSIZE)))).get (va % PGSIZE) := if_pos h

lemma byteAt_not_valid (h : has (e (va / PGSIZE)) PTE_V = false) : byteAt s e va = 0 := by
  rw [byteAt, h]
  rfl

def SameBytes (s : Mach) (e : ℕ → ℕ) (u : Mach) (e' : ℕ → ℕ) : Prop :=
  ∀ va, va / PGSIZE < UPAGES → byteAt u e' va = byteAt s e va

lemma SameBytes.refl (s : Mach) (e : ℕ → ℕ) : SameBytes s e s e := fun _ _ => rfl

lemma SameBytes.trans (h : SameBytes s e t e') (h' : SameBytes t e' u e'') :
    SameBytes s e u e'' := fun va hva => (h' va hva).trans (h va hva)

lemma sameBytes_of_same (h : Same (leaves e) s u) : SameBytes s e u e := by
  intro va hva
  by_cases hv : has (e (va / PGSIZE)) PTE_V
  · rw [byteAt_valid hv, byteAt_valid hv, h _ (mem_leaves hva hv)]
  · rw [byteAt_not_valid (by simpa using hv), byteAt_not_valid (by simpa using hv)]

variable [Layout]

lemma leaves_inj (h : Table s root e (leaves e + F)) (ha : a < UPAGES) (hb : b < UPAGES)
    (hva : has (e a) PTE_V) (hvb : has (e b) PTE_V) (hp : PTE2PA (e b) = PTE2PA (e a)) : b = a := by
  by_contra hne
  have hn : (leaves e).Nodup :=
    (Multiset.nodup_add.mp (Multiset.nodup_add.mp (Multiset.nodup_add.mp h.owns.nodup).2.1).2.1).1
  have hm : PTE2PA (e b) ∈ leaves (update e a 0) := by
    have := mem_leaves (e := update e a 0) hb (by rwa [update_of_ne hne])
    rwa [update_of_ne hne] at this
  rw [leaves_unmap ha hva, Multiset.singleton_add, Multiset.nodup_cons] at hn
  exact hn.1 (hp ▸ hm)

omit [Layout] in
lemma sameBytes_faulted {pa : ℕ} (hs : Same (leaves e) s u) (h0 : e a = 0) (hpa : pa < 2 ^ 52)
    (hz : u.mem pa = Buf.fill PGSIZE 0) : SameBytes s e u (faulted e a pa) := by
  intro va hva
  by_cases ha : va / PGSIZE = a
  · obtain ⟨hp, hg⟩ := faulted_self e a hpa
    rw [byteAt_valid (by rw [ha, hg _ (by decide)]; rfl), ha, hp, hz, Buf.get_fill_zero,
      byteAt_not_valid (by rw [ha, h0]; rfl)]
  · have hne : faulted e a pa (va / PGSIZE) = e (va / PGSIZE) := update_of_ne ha _ _
    rw [← sameBytes_of_same hs va hva]
    simp only [byteAt, hne]

/-- The addresses that user code can get at: mapped, and for the user. -/
def Open (e : ℕ → ℕ) (va : ℕ) : Prop :=
  va / PGSIZE < UPAGES ∧ has (e (va / PGSIZE)) PTE_V ∧ has (e (va / PGSIZE)) PTE_U

omit [Layout] in
lemma Open.fill (h : Open e va) (hf : Filled sz e e') : Open e' va := by
  unfold Open
  rw [hf.keep _ h.2.1]
  exact h

/-- **The page behind an address.** What `copyin` and `copyout` find or fault in. -/
theorem userPage_spec (va) (h : UserTable s root e sz F) :
    wp (userPage ⟨sz, root⟩ root va) s fun r u => ∃ e', UserTable u root e' sz F ∧
      Filled sz e e' ∧ Same F s u ∧ SameBytes s e u e' ∧ (r = none → ¬ Open e' va) ∧
      (∀ a ≠ va / PGSIZE, e' a = e a) ∧
      ∀ pa, r = some pa → Open e' va ∧ PTE2PA (e' (va / PGSIZE)) = pa ∧
        (has (e (va / PGSIZE)) PTE_V = false → has (e' (va / PGSIZE)) PTE_W) := by
  rw [userPage]
  refine wp.bind (walkaddr_wp h.table.entries) ?_
  rintro r u ⟨rfl, hr⟩
  split_ifs at hr with hc
  · subst hr
    refine wp_pure.mpr ⟨e, h, Filled.refl sz e, Same.refl F u, SameBytes.refl u e, by simp,
      fun _ _ => rfl, fun pa hpa => ?_⟩
    exact ⟨⟨h.user _ (page_lt hc.1) hc.2.1 hc.2.2, hc.2⟩, Option.some.inj hpa, by simp [hc.2.1]⟩
  · subst hr
    refine (vmfault_spec h.table h.size).mono ?_
    rintro r x ⟨hs, h0, h1⟩
    have hF := hs.right
    have hL := hs.mono (Multiset.le_add_right (leaves e) F)
    cases r with
    | none =>
      refine ⟨e, ⟨h0 rfl, h.size, h.user⟩, Filled.refl sz e, hF, sameBytes_of_same hL,
        fun _ hop => hc ⟨?_, hop.2⟩, fun _ _ => rfl, by simp⟩
      have := hop.1
      rw [UPAGES_eq] at this
      unfold PGSIZE at this
      unfold MAXVA
      omega
    | some pa =>
      obtain ⟨hva, he, hpa, hz, ht⟩ := h1 pa rfl
      have hfill := filled_faulted pa hva he
      refine ⟨_, h.fill ht hfill, hfill, hF, sameBytes_faulted hL he hpa hz, by simp,
        fun a ha => update_of_ne ha _ _, fun pa' hpa' => ?_⟩
      obtain rfl := Option.some.inj hpa'
      obtain ⟨hp, hg⟩ := faulted_self e (va / PGSIZE) hpa
      refine ⟨⟨?_, by rw [hg _ (by decide)]; rfl, by rw [hg _ (by decide)]; rfl⟩, hp,
        fun _ => by rw [hg _ (by decide)]; rfl⟩
      have := h.size
      rw [UPAGES_eq]
      unfold TRAPFRAME TRAMPOLINE MAXVA PGSIZE at this
      unfold PGSIZE
      omega

/-! ### The accesses of the loops -/

/-- An access to data: `len` bytes from offset `off` of a page on. -/
structure Access where
  page : ℕ
  off : ℕ
  len : ℕ

def copyoutAcc (p : Myproc) (pagetable : ℕ) : ℕ → ℕ → List UInt8 → List Access →
    Vm (Bool × List Access)
  | 0, _, _, acc => return (true, acc)
  | fuel + 1, dstva, src, acc => do
    if src.length = 0 then return (true, acc)
    let va := PGROUNDDOWN dstva
    if MAXVA ≤ va then return (false, acc)
    match ← userPage p pagetable va with
    | none => return (false, acc)
    | some pa =>
      match ← walk pagetable va false with
      | none => throw .null
      | some (t, i) =>
        if !has (← readPte t i) PTE_W then return (false, acc)
        let n := min (PGSIZE - (dstva - va)) src.length
        writeBytes pa (dstva - va) (src.take n)
        copyoutAcc p pagetable fuel (va + PGSIZE) (src.drop n) (acc ++ [⟨pa, dstva - va, n⟩])

def copyinAcc (p : Myproc) (pagetable : ℕ) : ℕ → ℕ → ℕ → List UInt8 → List Access →
    Vm (Option (List UInt8) × List Access)
  | 0, _, _, dst, acc => return (some dst, acc)
  | fuel + 1, srcva, len, dst, acc => do
    if len = 0 then return (some dst, acc)
    let va := PGROUNDDOWN srcva
    match ← userPage p pagetable va with
    | none => return (none, acc)
    | some pa =>
      let n := min (PGSIZE - (srcva - va)) len
      let bytes ← readBytes pa (srcva - va) n
      copyinAcc p pagetable fuel (va + PGSIZE) (len - n) (dst ++ bytes)
        (acc ++ [⟨pa, srcva - va, n⟩])

/-- The loop of `copyinstr`, with its accesses so far. -/
def copyinstrAcc (pagetable : ℕ) : ℕ → ℕ → ℕ → List UInt8 → List Access →
    Vm (Option (List UInt8) × List Access)
  | 0, _, _, _, acc => return (none, acc)
  | fuel + 1, srcva, max, dst, acc => do
    if max = 0 then return (none, acc)
    let va := PGROUNDDOWN srcva
    match ← walkaddr pagetable va with
    | none => return (none, acc)
    | some pa =>
      let n := min (PGSIZE - (srcva - va)) max
      let bytes ← readBytes pa (srcva - va) n
      let acc := acc ++ [⟨pa, srcva - va, n⟩]
      if (0 : UInt8) ∈ bytes then
        return (some (dst ++ bytes.takeWhile (· ≠ 0)), acc)
      else
        copyinstrAcc pagetable fuel (va + PGSIZE) (max - n) (dst ++ bytes) acc

lemma copyoutAcc_fst (me : Myproc) (fuel dstva : ℕ) (src : List UInt8) (acc : List Access) :
    Prod.fst <$> copyoutAcc me root fuel dstva src acc = copyoutLoop me root fuel dstva src := by
  induction fuel generalizing dstva src acc with
  | zero => rfl
  | succ fuel ih =>
    rw [copyoutAcc, copyoutLoop]
    dsimp only
    split_ifs
    · rfl
    · rfl
    · rw [map_bind]
      congr 1
      funext r
      cases r with
      | none => rfl
      | some pa =>
        rw [map_bind]
        congr 1
        funext r
        rcases r with _ | ⟨t, i⟩
        · rfl
        · simp only [map_bind]
          congr 1
          funext w
          split_ifs
          · rfl
          · rw [map_bind]
            congr 1
            funext _
            exact ih _ _ _

lemma copyinAcc_fst (me : Myproc) (fuel srcva len : ℕ) (dst : List UInt8) (acc : List Access) :
    Prod.fst <$> copyinAcc me root fuel srcva len dst acc =
      copyinLoop me root fuel srcva len dst := by
  induction fuel generalizing srcva len dst acc with
  | zero => rfl
  | succ fuel ih =>
    rw [copyinAcc, copyinLoop]
    dsimp only
    split_ifs
    · rfl
    · rw [map_bind]
      congr 1
      funext r
      cases r with
      | none => rfl
      | some pa =>
        rw [map_bind]
        congr 1
        funext bytes
        exact ih _ _ _ _

omit [Layout] in
lemma copyinstrAcc_fst (fuel srcva max : ℕ) (dst : List UInt8) (acc : List Access) :
    Prod.fst <$> copyinstrAcc root fuel srcva max dst acc =
      copyinstrLoop root fuel srcva max dst := by
  induction fuel generalizing srcva max dst acc with
  | zero => rfl
  | succ fuel ih =>
    rw [copyinstrAcc, copyinstrLoop]
    dsimp only
    split_ifs
    · rfl
    · rw [map_bind]
      congr 1
      funext r
      cases r with
      | none => rfl
      | some pa =>
        rw [map_bind]
        congr 1
        funext bytes
        split_ifs
        · rfl
        · exact ih _ _ _ _

/-- An access to a page that is open for the user, to addresses from `lo` up to `hi`. -/
def Access.Within (x : Access) (e : ℕ → ℕ) (lo hi : ℕ) : Prop :=
  0 < x.len ∧ ∃ a < UPAGES, has (e a) PTE_V ∧ has (e a) PTE_U ∧ x.page = PTE2PA (e a) ∧
    x.off + x.len ≤ PGSIZE ∧ lo ≤ a * PGSIZE + x.off ∧ a * PGSIZE + x.off + x.len ≤ hi

omit [Layout] in
lemma Access.Within.fill {x : Access} {lo hi : ℕ} (h : x.Within e lo hi) (hf : Filled sz e e') :
    x.Within e' lo hi := by
  obtain ⟨hpos, a, ha, hv, h'⟩ := h
  refine ⟨hpos, a, ha, ?_⟩
  rw [hf.keep a hv]
  exact ⟨hv, h'⟩

omit [Layout] in
lemma Access.Within.mono {x : Access} {lo hi lo' hi' : ℕ} (h : x.Within e lo hi) (hl : lo' ≤ lo)
    (hh : hi ≤ hi') : x.Within e lo' hi' := by
  obtain ⟨hpos, a, ha, h1, h2, h3, h4, h5, h6⟩ := h
  exact ⟨hpos, a, ha, h1, h2, h3, h4, by omega, by omega⟩

/-! ### One round of a loop -/

section Round

omit [Layout]

def chunk (va len : ℕ) : ℕ := min (PGSIZE - (va - PGROUNDDOWN va)) len

lemma chunk_le (va len : ℕ) : chunk va len ≤ len := Nat.min_le_right _ _

lemma chunk_pos {len : ℕ} (va : ℕ) (h : 0 < len) : 0 < chunk va len := by
  unfold chunk PGROUNDDOWN PGSIZE
  omega

lemma chunk_page {len i : ℕ} (h : i < chunk va len) : (va + i) / PGSIZE = va / PGSIZE ∧
    (va + i) % PGSIZE = va - PGROUNDDOWN va + i := by
  unfold chunk PGROUNDDOWN PGSIZE at *
  omega

lemma chunk_next (va len : ℕ) {i : ℕ} (h1 : chunk va len ≤ i) (h2 : i < len) :
    PGROUNDDOWN va + PGSIZE + (i - chunk va len) = va + i := by
  unfold chunk PGROUNDDOWN PGSIZE at *
  omega

lemma chunk_within (va len : ℕ) {a' : ℕ} (ha : a' = va / PGSIZE) :
    va - PGROUNDDOWN va + chunk va len ≤ PGSIZE ∧
    va ≤ a' * PGSIZE + (va - PGROUNDDOWN va) ∧
    a' * PGSIZE + (va - PGROUNDDOWN va) + chunk va len ≤ va + len := by
  subst ha
  unfold chunk PGROUNDDOWN PGSIZE at *
  omega

lemma map_range_chunk {α : Type} (f : ℕ → α) (va len : ℕ) :
    (List.range len).map (fun i => f (va + i)) =
      (List.range (chunk va len)).map (fun i => f (va + i)) ++
      (List.range (len - chunk va len)).map (fun i => f (PGROUNDDOWN va + PGSIZE + i)) := by
  have hle := chunk_le va len
  conv_lhs => rw [← Nat.add_sub_cancel' hle, List.range_add, List.map_append]
  congr 1
  rw [List.map_map]
  refine List.map_congr_left fun i hi => ?_
  have := chunk_next va len (i := chunk va len + i) (Nat.le_add_right _ _)
    (by have := List.mem_range.mp hi; omega)
  rw [comp_apply, ← this, Nat.add_sub_cancel_left]

end Round

omit [Layout] in
lemma read_chunk {len : ℕ} (hv : has (e (va / PGSIZE)) PTE_V) :
    (List.range (chunk va len)).map
      (fun i => (s.mem (PTE2PA (e (va / PGSIZE)))).get (va - PGROUNDDOWN va + i)) =
    (List.range (chunk va len)).map fun i => byteAt s e (va + i) := by
  refine List.map_congr_left fun i hi => ?_
  obtain ⟨h1, h2⟩ := chunk_page (List.mem_range.mp hi)
  rw [byteAt_valid (by rw [h1]; exact hv), h1, h2]

omit [Layout] in
lemma open_chunk {len i : ℕ} (h : Open e va) (hi : i < chunk va len) : Open e (va + i) := by
  unfold Open
  rw [(chunk_page hi).1]
  exact h

omit [Layout] in
lemma within_chunk {len : ℕ} (h : Open e va) (hpos : 0 < len) :
    Access.Within ⟨PTE2PA (e (va / PGSIZE)), va - PGROUNDDOWN va, chunk va len⟩ e va
      (va + len) := by
  obtain ⟨h1, h2, h3⟩ := chunk_within va len rfl
  exact ⟨chunk_pos va hpos, va / PGSIZE, h.1, h.2.1, h.2.2, rfl, h1, h2, h3⟩

/-! ### `copyin` -/

/-- What `copyin` of `len` bytes does, after the bytes `dst` and the accesses `acc`. -/
def CopiedIn (root sz : ℕ) (F : Multiset ℕ) (s : Mach) (e : ℕ → ℕ) (srcva len : ℕ)
    (dst : List UInt8) (acc : List Access) (r : Option (List UInt8) × List Access) (u : Mach) :
    Prop :=
  ∃ e', UserTable u root e' sz F ∧ Filled sz e e' ∧ Same F s u ∧ SameBytes s e u e' ∧
    (∀ bytes, r.1 = some bytes →
      bytes = dst ++ (List.range len).map (fun i => byteAt s e (srcva + i)) ∧
      ∀ i < len, Open e' (srcva + i)) ∧
    ∀ x ∈ r.2, x ∈ acc ∨ x.Within e' srcva (srcva + len)

lemma copiedIn_zero (h : UserTable s root e sz F) (srcva : ℕ) (dst : List UInt8)
    (acc : List Access) : CopiedIn root sz F s e srcva 0 dst acc (some dst, acc) s := by
  refine ⟨e, h, Filled.refl sz e, Same.refl F s, SameBytes.refl s e, fun bytes hb => ?_,
    fun x hx => .inl hx⟩
  cases hb
  exact ⟨by simp, fun i hi => by omega⟩

omit [Layout] in
lemma within_cons {lo len : ℕ} {acc acc' : List Access} (hpos : 0 < len) (hf : Filled sz e e')
    (hop : Open e lo) (h : ∀ x ∈ acc', x ∈ acc ++ [⟨PTE2PA (e (lo / PGSIZE)), lo - PGROUNDDOWN lo,
      chunk lo len⟩] ∨ x.Within e' (PGROUNDDOWN lo + PGSIZE)
        (PGROUNDDOWN lo + PGSIZE + (len - chunk lo len))) :
    ∀ x ∈ acc', x ∈ acc ∨ x.Within e' lo (lo + len) := by
  intro x hx
  have hle := chunk_le lo len
  rcases h x hx with hx | hx
  · rcases List.mem_append.mp hx with hx | hx
    · exact .inl hx
    · obtain rfl := List.mem_singleton.mp hx
      exact .inr ((within_chunk hop hpos).fill hf)
  · by_cases hlast : len - chunk lo len = 0
    · obtain ⟨h0, a, -, -, -, -, -, h1, h2⟩ := hx
      omega
    · have := chunk_next lo len (i := chunk lo len) le_rfl (by omega)
      exact .inr (hx.mono (by omega) (by omega))

lemma copiedIn_cons {srcva len : ℕ} {dst : List UInt8} {acc : List Access}
    {r : Option (List UInt8) × List Access} (hpos : 0 < len) (hf : Filled sz e e')
    (hs : Same F s t) (hb : SameBytes s e t e') (hop : Open e' srcva)
    (h : CopiedIn root sz F t e' (PGROUNDDOWN srcva + PGSIZE) (len - chunk srcva len)
      (dst ++ (List.range (chunk srcva len)).map fun i => byteAt t e' (srcva + i))
      (acc ++ [⟨PTE2PA (e' (srcva / PGSIZE)), srcva - PGROUNDDOWN srcva, chunk srcva len⟩]) r u) :
    CopiedIn root sz F s e srcva len dst acc r u := by
  obtain ⟨e₂, hx, hf', hs', hb', hr, hacc⟩ := h
  refine ⟨e₂, hx, hf.trans hf', hs.trans hs', hb.trans hb', fun bytes hbytes => ?_, fun x hx => ?_⟩
  · obtain ⟨rfl, hopen⟩ := hr bytes hbytes
    have hall : ∀ i < len, Open e₂ (srcva + i) := by
      intro i hi
      by_cases hc : i < chunk srcva len
      · exact (open_chunk hop hc).fill hf'
      · rw [← chunk_next _ _ (by omega) hi]
        exact hopen _ (by omega)
    refine ⟨?_, hall⟩
    rw [List.append_assoc, ← map_range_chunk (byteAt t e')]
    refine congrArg (dst ++ ·) (List.map_congr_left fun i hi => ?_)
    exact hb _ (hall i (List.mem_range.mp hi)).1
  · exact within_cons hpos hf' hop hacc x hx

lemma copyinAcc_spec (h : UserTable s root e sz F) (fuel srcva : ℕ) {len : ℕ} (hfuel : len ≤ fuel)
    (dst : List UInt8) (acc : List Access) :
    wp (copyinAcc ⟨sz, root⟩ root fuel srcva len dst acc) s
      (CopiedIn root sz F s e srcva len dst acc) := by
  induction fuel generalizing s e srcva len dst acc with
  | zero =>
    obtain rfl : len = 0 := by omega
    exact wp_pure.mpr (copiedIn_zero h srcva dst acc)
  | succ fuel ih =>
    rw [copyinAcc]
    dsimp only
    split_ifs with h0
    · subst h0
      exact wp_pure.mpr (copiedIn_zero h srcva dst acc)
    · refine wp.bind (userPage_spec _ h) ?_
      rintro r u ⟨e₁, hu, hf, hs, hb, -, -, hpa⟩
      cases r with
      | none =>
        exact wp_pure.mpr ⟨e₁, hu, hf, hs, hb, by simp, fun x hx => .inl hx⟩
      | some pa =>
        obtain ⟨hopen, rfl, -⟩ := hpa pa rfl
        have hdiv : PGROUNDDOWN srcva / PGSIZE = srcva / PGSIZE := PGROUNDDOWN_div srcva
        have hop : Open e₁ srcva := by
          unfold Open at hopen ⊢
          rwa [hdiv] at hopen
        have hpos := Nat.pos_of_ne_zero h0
        have hchunk := chunk_pos srcva hpos
        simp only [readBytes, wp_bind, wp_get, wp_pure, hdiv]
        rw [show min (PGSIZE - (srcva - PGROUNDDOWN srcva)) len = chunk srcva len from rfl,
          read_chunk hop.2.1]
        exact (ih hu _ (by omega) _ _).mono fun r x hx => copiedIn_cons hpos hf hs hb hop hx

omit [Layout] in
lemma run_fst {α : Type} {m : Vm (α × List Access)} {m' : Vm α} (hm : Prod.fst <$> m = m')
    {Q : α × List Access → Mach → Prop} (h : wp m s Q) :
    ∃ r acc u, m' s = .ok (r, u) ∧ m s = .ok ((r, acc), u) ∧ Q (r, acc) u := by
  obtain ⟨⟨r, acc⟩, u, hrun, hq⟩ := h
  refine ⟨r, acc, u, ?_, hrun, hq⟩
  rw [← hm]
  change (m s).bind _ = _
  rw [hrun]
  rfl

lemma copyin_spec (h : UserTable s root e sz F) (srcva len : ℕ) :
    wp (copyin ⟨sz, root⟩ root srcva len) s fun r u => ∃ e', UserTable u root e' sz F ∧
      Filled sz e e' ∧ Same F s u ∧ SameBytes s e u e' ∧ ∀ bytes, r = some bytes →
        bytes = (List.range len).map fun i => byteAt s e (srcva + i) := by
  obtain ⟨r, acc, u, hrun, -, e', hu, hf, hs, hb, hr, -⟩ :=
    run_fst (copyinAcc_fst _ _ srcva len [] []) (copyinAcc_spec h len srcva le_rfl [] [])
  exact ⟨r, u, hrun, e', hu, hf, hs, hb, fun bytes hbytes => (hr bytes hbytes).1⟩

def Dense (e : ℕ → ℕ) (sz : ℕ) : Prop := ∀ a < pages sz, has (e a) PTE_V

lemma copyin_dense (h : UserTable s root e sz F) (hd : Dense e sz) (srcva len : ℕ) :
    wp (copyin ⟨sz, root⟩ root srcva len) s fun _ u => u = s := by
  have hpage : ∀ va, wp (userPage ⟨sz, root⟩ root va) s fun _ u => u = s := by
    intro va
    rw [userPage]
    refine wp.bind (walkaddr_wp h.table.entries) ?_
    rintro r u ⟨rfl, -⟩
    cases r with
    | some pa => exact wp_pure.mpr rfl
    | none =>
      change wp (vmfault _ _ _) _ _
      rw [vmfault]
      by_cases hva : va < sz
      · have hlt : va / PGSIZE < pages sz := by
          unfold pages PGSIZE
          omega
        have hM : PGROUNDDOWN va < MAXVA := (user_lt (hlt.trans_le (pages_le h.size))).1
        rw [if_neg (by simpa using hva)]
        refine wp.bind (ismapped_wp h.table.entries hM) ?_
        rintro r u ⟨rfl, rfl⟩
        rw [PGROUNDDOWN_div, hd _ hlt, if_pos rfl]
        exact wp_pure.mpr rfl
      · rw [if_pos (by simpa using hva)]
        exact wp_pure.mpr rfl
  have hloop : ∀ fuel srcva len dst, wp (copyinLoop ⟨sz, root⟩ root fuel srcva len dst) s
      fun _ u => u = s := by
    intro fuel
    induction fuel with
    | zero => exact fun _ _ _ => wp_pure.mpr rfl
    | succ fuel ih =>
      intro srcva len dst
      rw [copyinLoop]
      dsimp only
      split_ifs
      · exact wp_pure.mpr rfl
      · refine wp.bind (hpage _) ?_
        rintro r u rfl
        cases r with
        | none => exact wp_pure.mpr rfl
        | some pa =>
          simp only [readBytes, wp_bind, wp_get, wp_pure]
          exact ih _ _ _
  exact hloop len srcva len []

/-! ### `copyinstr` -/

/-- The bytes from an address on hold a string of length `k`, all of it open for the user. -/
def StringAt (s : Mach) (e : ℕ → ℕ) (va k : ℕ) : Prop :=
  (∀ i ≤ k, Open e (va + i)) ∧ byteAt s e (va + k) = 0 ∧ ∀ i < k, byteAt s e (va + i) ≠ 0

omit [Layout] in
lemma exists_stringAt {max : ℕ} (h : ∃ k < max, (∀ i ≤ k, Open e (va + i)) ∧
    byteAt s e (va + k) = 0) : ∃ k < max, StringAt s e va k := by
  classical
  obtain ⟨hlt, hop, h0⟩ := Nat.find_spec h
  refine ⟨_, hlt, hop, h0, fun i hi hz => Nat.find_min h hi ⟨by omega, ?_, hz⟩⟩
  exact fun j hj => hop j (by omega)

omit [Layout] in
lemma takeWhile_map_range {f : ℕ → UInt8} {k n : ℕ} (hk : k < n) (h0 : f k = 0)
    (hne : ∀ i < k, f i ≠ 0) :
    ((List.range n).map f).takeWhile (· ≠ 0) = (List.range k).map f := by
  obtain ⟨m, rfl⟩ : ∃ m, n = k + (m + 1) := ⟨n - k - 1, by omega⟩
  rw [List.range_add, List.map_append, List.takeWhile_append_of_pos]
  · rw [List.range_succ_eq_map]
    simp [h0]
  · intro x hx
    obtain ⟨i, hi, rfl⟩ := List.mem_map.mp hx
    simpa using hne i (List.mem_range.mp hi)

/-- What `copyinstr` of at most `max` bytes does, after the bytes `dst`. -/
def CopiedStr (s : Mach) (e : ℕ → ℕ) (srcva max : ℕ) (dst : List UInt8) (acc : List Access)
    (r : Option (List UInt8) × List Access) (u : Mach) : Prop :=
  u = s ∧ (∀ str, r.1 = some str → ∃ k < max, StringAt s e srcva k ∧
      str = dst ++ (List.range k).map fun i => byteAt s e (srcva + i)) ∧
    (r.1 = none → ∀ k < max, ¬ StringAt s e srcva k) ∧
    ∀ x ∈ r.2, x ∈ acc ∨ x.Within e srcva (srcva + max)

omit [Layout] in
lemma copiedStr_none {srcva max : ℕ} (dst : List UInt8) (acc : List Access)
    (h : ∀ k < max, ¬ StringAt s e srcva k) : CopiedStr s e srcva max dst acc (none, acc) s :=
  ⟨rfl, by simp, fun _ => h, fun _ hx => .inl hx⟩

omit [Layout] in
lemma copiedStr_cons {srcva max : ℕ} {dst : List UInt8} {acc : List Access}
    {r : Option (List UInt8) × List Access} (hpos : 0 < max) (hop : Open e srcva)
    (hne : ∀ i < chunk srcva max, byteAt s e (srcva + i) ≠ 0)
    (h : CopiedStr s e (PGROUNDDOWN srcva + PGSIZE) (max - chunk srcva max)
      (dst ++ (List.range (chunk srcva max)).map fun i => byteAt s e (srcva + i))
      (acc ++ [⟨PTE2PA (e (srcva / PGSIZE)), srcva - PGROUNDDOWN srcva, chunk srcva max⟩]) r u) :
    CopiedStr s e srcva max dst acc r u := by
  obtain ⟨hu, hsome, hnone, hacc⟩ := h
  -- a string goes on after the round exactly as it does at the next page
  have hstr : ∀ k, k < max → chunk srcva max ≤ k → (StringAt s e srcva k ↔
      StringAt s e (PGROUNDDOWN srcva + PGSIZE) (k - chunk srcva max)) := by
    intro k hk hle
    have hat : ∀ i ≤ k - chunk srcva max, PGROUNDDOWN srcva + PGSIZE + i =
        srcva + (chunk srcva max + i) := fun i hi => by
      rw [← chunk_next _ _ (i := chunk srcva max + i) (Nat.le_add_right _ _) (by omega),
        Nat.add_sub_cancel_left]
    constructor
    · rintro ⟨h1, h2, h3⟩
      refine ⟨fun i hi => ?_, ?_, fun i hi => ?_⟩
      · rw [hat i hi]
        exact h1 _ (by omega)
      · rw [hat _ le_rfl, Nat.add_sub_cancel' hle]
        exact h2
      · rw [hat i hi.le]
        exact h3 _ (by omega)
    · rintro ⟨h1, h2, h3⟩
      refine ⟨fun i hi => ?_, ?_, fun i hi => ?_⟩
      · by_cases hc : i < chunk srcva max
        · exact open_chunk hop hc
        · have := h1 (i - chunk srcva max) (by omega)
          rwa [hat _ (by omega), Nat.add_sub_cancel' (by omega)] at this
      · rwa [hat _ le_rfl, Nat.add_sub_cancel' hle] at h2
      · by_cases hc : i < chunk srcva max
        · exact hne i hc
        · have := h3 (i - chunk srcva max) (by omega)
          rwa [hat _ (by omega), Nat.add_sub_cancel' (by omega)] at this
  refine ⟨hu, fun str hr => ?_, fun hr k hk hs => ?_,
    within_cons hpos (Filled.refl 0 e) hop hacc⟩
  · obtain ⟨k, hk, hs, rfl⟩ := hsome str hr
    have hle := chunk_le srcva max
    refine ⟨chunk srcva max + k, by omega, ?_, ?_⟩
    · rw [hstr _ (by omega) (Nat.le_add_right _ _), Nat.add_sub_cancel_left]
      exact hs
    · rw [List.append_assoc, List.range_add, List.map_append, List.map_map]
      congr 2
      refine List.map_congr_left fun i hi => ?_
      rw [comp_apply, ← chunk_next _ _ (i := chunk srcva max + i) (Nat.le_add_right _ _)
        (by have := List.mem_range.mp hi; omega), Nat.add_sub_cancel_left]
  · by_cases hc : k < chunk srcva max
    · exact hne k hc hs.2.1
    · exact hnone hr _ (by omega) ((hstr k hk (by omega)).mp hs)

omit [Layout] in
lemma copyinstrAcc_spec (h : Maps s root e)
    (huser : ∀ a < 512 ^ 3, has (e a) PTE_V → has (e a) PTE_U → a < UPAGES) (fuel srcva : ℕ)
    {max : ℕ} (hfuel : max ≤ fuel) (dst : List UInt8) (acc : List Access) :
    wp (copyinstrAcc root fuel srcva max dst acc) s (CopiedStr s e srcva max dst acc) := by
  induction fuel generalizing srcva max dst acc with
  | zero => exact wp_pure.mpr (copiedStr_none dst acc fun k hk => by omega)
  | succ fuel ih =>
    rw [copyinstrAcc]
    dsimp only
    split_ifs with h0
    · exact wp_pure.mpr (copiedStr_none dst acc fun k hk => by omega)
    · refine wp.bind (walkaddr_wp h) ?_
      rintro r u ⟨rfl, hr⟩
      have hdiv : PGROUNDDOWN srcva / PGSIZE = srcva / PGSIZE := PGROUNDDOWN_div srcva
      rw [hdiv] at hr
      split_ifs at hr with hc
      · subst hr
        have hpos := Nat.pos_of_ne_zero h0
        have hchunk := chunk_pos srcva hpos
        have hop : Open e srcva := ⟨huser _ (hdiv ▸ page_lt hc.1) hc.2.1 hc.2.2, hc.2⟩
        simp only [readBytes, wp_bind, wp_get, wp_pure]
        rw [show min (PGSIZE - (srcva - PGROUNDDOWN srcva)) max = chunk srcva max from rfl,
          read_chunk hop.2.1]
        split_ifs with hz
        · -- the string ends in this page
          obtain ⟨j, hj, hj0⟩ := List.mem_map.mp hz
          have hj := List.mem_range.mp hj
          obtain ⟨k, hk, hs⟩ : ∃ k < chunk srcva max, StringAt u e srcva k :=
            exists_stringAt ⟨j, hj, fun i hi => open_chunk hop (hi.trans_lt hj), hj0⟩
          have hle := chunk_le srcva max
          refine wp_pure.mpr ⟨rfl, fun str hstr => ⟨k, by omega, hs, ?_⟩, by simp, fun x hx => ?_⟩
          · rw [takeWhile_map_range hk hs.2.1 hs.2.2] at hstr
            exact (Option.some.inj hstr).symm
          · rcases List.mem_append.mp hx with hx | hx
            · exact .inl hx
            · obtain rfl := List.mem_singleton.mp hx
              exact .inr (within_chunk hop hpos)
        · refine (ih _ (by omega) _ _).mono fun r x hx =>
            copiedStr_cons hpos hop (fun i hi h => ?_) hx
          exact hz (List.mem_map.mpr ⟨i, List.mem_range.mpr hi, h⟩)
      · subst hr
        refine wp_pure.mpr (copiedStr_none dst acc fun k hk hs => hc ?_)
        have h1 := hs.1 0 (Nat.zero_le k)
        rw [Nat.add_zero] at h1
        exact ⟨(user_lt h1.1).1, h1.2⟩

omit [Layout] in
lemma copyinstr_wp (h : Maps s root e)
    (huser : ∀ a < 512 ^ 3, has (e a) PTE_V → has (e a) PTE_U → a < UPAGES) (srcva max : ℕ) :
    wp (copyinstr root srcva max) s
      fun r u => u = s ∧ ∀ str, r = some str → str.length < max := by
  obtain ⟨r, _, u, hrun, -, rfl, hstr, -⟩ := run_fst (copyinstrAcc_fst _ srcva max [] [])
    (copyinstrAcc_spec h huser max srcva le_rfl [] [])
  refine ⟨r, _, hrun, rfl, fun str hr => ?_⟩
  obtain ⟨k, hk, -, rfl⟩ := hstr str hr
  simpa using hk

/-! ### `copyout` -/

lemma byteAt_write {src : List UInt8} (h : Table s root e (leaves e + F)) (hop : Open e va)
    {b : ℕ} (hb : b / PGSIZE < UPAGES) {n : ℕ} (hn : n = chunk va src.length) :
    byteAt (s.store (PTE2PA (e (va / PGSIZE))) fun j =>
        if va - PGROUNDDOWN va ≤ j.val ∧ j.val < va - PGROUNDDOWN va + (src.take n).length then
          (src.take n).getD (j.val - (va - PGROUNDDOWN va)) 0
        else s.mem (PTE2PA (e (va / PGSIZE))) j) e b =
      if va ≤ b ∧ b < va + n then src.getD (b - va) 0 else byteAt s e b := by
  have hlen : (src.take n).length = n := by
    rw [List.length_take, hn]
    exact Nat.min_eq_left (chunk_le va src.length)
  have hin : va ≤ b ∧ b < va + n ↔ b / PGSIZE = va / PGSIZE ∧
      va - PGROUNDDOWN va ≤ b % PGSIZE ∧ b % PGSIZE < va - PGROUNDDOWN va + n := by
    have h1 : va - PGROUNDDOWN va + n ≤ PGSIZE := by
      rw [hn]
      exact (chunk_within va src.length rfl).1
    unfold PGROUNDDOWN PGSIZE at *
    omega
  rw [hlen]
  by_cases hv : has (e (b / PGSIZE)) PTE_V
  · rw [byteAt_valid hv, byteAt_valid hv]
    by_cases hpage : b / PGSIZE = va / PGSIZE
    · have hlt : b % PGSIZE < PGSIZE := Nat.mod_lt _ (by decide)
      rw [hpage, store_mem_self, Buf.get_of_lt _ hlt]
      simp only [hin, hpage, true_and]
      split_ifs with hc
      · have hoff : b % PGSIZE - (va - PGROUNDDOWN va) = b - va := by
          unfold PGROUNDDOWN PGSIZE at *
          omega
        rw [hoff, List.getD_eq_getElem?_getD, List.getD_eq_getElem?_getD,
          List.getElem?_take_of_lt (by omega)]
      · rw [Buf.get_of_lt _ hlt]
    · rw [if_neg (by rw [hin]; tauto), store_mem_ne]
      intro heq
      exact hpage (leaves_inj h hop.1 hb hop.2.1 hv heq)
  · have hv' : has (e (b / PGSIZE)) PTE_V = false := by simpa using hv
    rw [byteAt_not_valid hv', byteAt_not_valid hv', if_neg]
    rintro hc
    rw [(hin.mp hc).1] at hv
    exact hv hop.2.1

def OpenW (e : ℕ → ℕ) (va : ℕ) : Prop := Open e va ∧ has (e (va / PGSIZE)) PTE_W

omit [Layout] in
lemma OpenW.fill (h : OpenW e va) (hf : Filled sz e e') : OpenW e' va := by
  refine ⟨h.1.fill hf, ?_⟩
  rw [hf.keep _ h.1.2.1]
  exact h.2

/-- What `copyout` of the bytes `src` does: it writes the first `k` of them. -/
def CopiedOut (root sz : ℕ) (F : Multiset ℕ) (s : Mach) (e : ℕ → ℕ) (dstva : ℕ)
    (src : List UInt8) (acc : List Access) (r : Bool × List Access) (u : Mach) : Prop :=
  ∃ e' k, UserTable u root e' sz F ∧ Filled sz e e' ∧ Same F s u ∧ k ≤ src.length ∧
    (r.1 = true → k = src.length) ∧ (∀ i < k, OpenW e' (dstva + i)) ∧
    (∀ b, b / PGSIZE < UPAGES → byteAt u e' b =
      if dstva ≤ b ∧ b < dstva + k then src.getD (b - dstva) 0 else byteAt s e b) ∧
    ∀ x ∈ r.2, x ∈ acc ∨ x.Within e' dstva (dstva + src.length)

lemma copiedOut_stop {src : List UInt8} {r : Bool} (hu : UserTable u root e' sz F)
    (hf : Filled sz e e') (hs : Same F s u) (hb : SameBytes s e u e') (dstva : ℕ)
    (acc : List Access) (hr : r = true → src.length = 0) :
    CopiedOut root sz F s e dstva src acc (r, acc) u := by
  refine ⟨e', 0, hu, hf, hs, Nat.zero_le _, fun h => (hr h).symm, fun i hi => by omega,
    fun b hlt => ?_, fun x hx => .inl hx⟩
  rw [if_neg (by omega)]
  exact hb b hlt

lemma copiedOut_cons {dstva : ℕ} {src : List UInt8} {acc : List Access} {r : Bool × List Access}
    {v : Mach} (hpos : 0 < src.length) (hf : Filled sz e e') (hs : Same F s v)
    (hop : OpenW e' dstva)
    (hb : ∀ b, b / PGSIZE < UPAGES → byteAt v e' b =
      if dstva ≤ b ∧ b < dstva + chunk dstva src.length then src.getD (b - dstva) 0
      else byteAt s e b)
    (h : CopiedOut root sz F v e' (PGROUNDDOWN dstva + PGSIZE)
      (src.drop (chunk dstva src.length))
      (acc ++ [⟨PTE2PA (e' (dstva / PGSIZE)), dstva - PGROUNDDOWN dstva,
        chunk dstva src.length⟩]) r u) :
    CopiedOut root sz F s e dstva src acc r u := by
  obtain ⟨e₂, k, hu, hf', hs', hk, hr, hopen, hbytes, hacc⟩ := h
  rw [List.length_drop] at hk hr hacc
  have hle := chunk_le dstva src.length
  have hat : ∀ i < k, PGROUNDDOWN dstva + PGSIZE + i = dstva + (chunk dstva src.length + i) :=
    fun i hi => by
      rw [← chunk_next _ _ (i := chunk dstva src.length + i) (Nat.le_add_right _ _) (by omega),
        Nat.add_sub_cancel_left]
  refine ⟨e₂, chunk dstva src.length + k, hu, hf.trans hf', hs.trans hs', by omega,
    fun h => by have := hr h; omega, fun i hi => ?_, fun b hlt => ?_,
    within_cons hpos hf' hop.1 hacc⟩
  · by_cases hc : i < chunk dstva src.length
    · refine ⟨(open_chunk hop.1 hc).fill hf', ?_⟩
      rw [hf'.keep _ (open_chunk hop.1 hc).2.1, (chunk_page hc).1]
      exact hop.2
    · have := hopen (i - chunk dstva src.length) (by omega)
      rwa [hat _ (by omega), Nat.add_sub_cancel' (by omega)] at this
  · rw [hbytes b hlt, hb b hlt]
    rcases Nat.eq_zero_or_pos k with rfl | hkpos
    · rw [if_neg (by omega), Nat.add_zero]
    · have h0 := hat 0 hkpos
      rw [Nat.add_zero, Nat.add_zero] at h0
      rw [h0]
      by_cases hc : dstva + chunk dstva src.length ≤ b ∧
          b < dstva + chunk dstva src.length + k
      · rw [if_pos hc, if_pos (by omega), List.getD_eq_getElem?_getD, List.getElem?_drop,
          List.getD_eq_getElem?_getD]
        congr 2
        omega
      · rw [if_neg hc]
        have hiff : dstva ≤ b ∧ b < dstva + chunk dstva src.length ↔
            dstva ≤ b ∧ b < dstva + (chunk dstva src.length + k) := by omega
        simp only [hiff]

section

variable (h : UserTable s root e sz F)
include h

lemma copyoutAcc_spec (fuel dstva : ℕ) {src : List UInt8}
    (hfuel : src.length ≤ fuel) (acc : List Access) :
    wp (copyoutAcc ⟨sz, root⟩ root fuel dstva src acc) s
      (CopiedOut root sz F s e dstva src acc) := by
  induction fuel generalizing s e dstva src acc with
  | zero =>
    exact wp_pure.mpr (copiedOut_stop h (Filled.refl sz e) (Same.refl F s) (SameBytes.refl s e)
      dstva acc fun _ => by omega)
  | succ fuel ih =>
    rw [copyoutAcc]
    dsimp only
    split_ifs with h0 hM
    · exact wp_pure.mpr (copiedOut_stop h (Filled.refl sz e) (Same.refl F s) (SameBytes.refl s e)
        dstva acc fun _ => h0)
    · exact wp_pure.mpr (copiedOut_stop h (Filled.refl sz e) (Same.refl F s) (SameBytes.refl s e)
        dstva acc (by simp))
    · refine wp.bind (userPage_spec _ h) ?_
      rintro r u ⟨e₁, hu, hf, hs, hb, -, -, hpa⟩
      cases r with
      | none => exact wp_pure.mpr (copiedOut_stop hu hf hs hb dstva acc (by simp))
      | some pa =>
        obtain ⟨hopen, rfl, -⟩ := hpa pa rfl
        have hdiv : PGROUNDDOWN dstva / PGSIZE = dstva / PGSIZE := PGROUNDDOWN_div dstva
        have hop : Open e₁ dstva := by
          unfold Open at hopen ⊢
          rwa [hdiv] at hopen
        have hpos := Nat.pos_of_ne_zero h0
        have hchunk := chunk_pos dstva hpos
        refine wp.bind (hu.table.entries.walk_valid (by omega) hopen.2.1) ?_
        rintro r u' ⟨rfl, l, rfl, -, hw⟩
        rw [hdiv] at hw ⊢
        simp only [readPte, wp_bind, wp_get, wp_pure, hw]
        cases hW : has (e₁ (dstva / PGSIZE)) PTE_W with
        | false =>
          simp only [Bool.not_false, if_true]
          exact wp_pure.mpr (copiedOut_stop hu hf hs hb dstva acc (by simp))
        | true =>
          have hmem : PTE2PA (e₁ (dstva / PGSIZE)) ∈ leaves e₁ := mem_leaves hop.1 hop.2.1
          simp only [Bool.not_true, Bool.false_eq_true, if_false, writeBytes, wp_bind, wp_modify]
          rw [show min (PGSIZE - (dstva - PGROUNDDOWN dstva)) src.length =
            chunk dstva src.length from rfl]
          refine (ih ⟨hu.table.store (Multiset.mem_add.mpr (.inl hmem)) _, hu.size, hu.user⟩ _
            (by rw [List.length_drop]; omega) _).mono fun r x hx =>
              copiedOut_cons hpos hf (hs.trans ?_) ⟨hop, hW⟩ (fun b hlt => ?_) hx
          · exact store_same (fun hF => leaves_not_frame hu.table hmem hF) _
          · rw [byteAt_write hu.table hop hlt rfl, hb b hlt]

lemma copyout_wp (dstva : ℕ) (src : List UInt8) :
    wp (copyout ⟨sz, root⟩ root dstva src) s fun _ u => Touched s root e sz F u := by
  obtain ⟨r, _, u, hrun, -, e', _, hu, hf, hs, -⟩ :=
    run_fst (copyoutAcc_fst _ _ dstva src []) (copyoutAcc_spec h src.length dstva le_rfl [])
  exact ⟨r, u, hrun, hs, e', hu, hf⟩

lemma copyin_wp (srcva len : ℕ) :
    wp (copyin ⟨sz, root⟩ root srcva len) s fun _ u => Touched s root e sz F u := by
  obtain ⟨r, _, u, hrun, -, e', hu, hf, hs, -⟩ :=
    run_fst (copyinAcc_fst _ _ srcva len [] []) (copyinAcc_spec h len srcva le_rfl [] [])
  exact ⟨r, u, hrun, hs, e', hu, hf⟩

/-! ### The result -/

/-- **User copies respect page permissions.** In the address space of a process whose size is
at most `TRAPFRAME`, and for every address and length: `copyout` writes the first `k` bytes
of `src`, to pages that are mapped for the user and writable, and all of them if it succeeds;
`copyin` that succeeds gets the bytes of its range, from pages mapped for the user;
`copyinstr` finds a string exactly if there is a NUL within `max` bytes and before the first
page that is not mapped for the user. Every access to data is to a page mapped for the user
and inside of the range, no other byte of the user's changes, nor any page of others; pages
that are faulted in on the way read as zero. -/
theorem user_copies :
    (∀ dstva src, ∃ r acc u, copyout ⟨sz, root⟩ root dstva src s = .ok (r, u) ∧
      copyoutAcc ⟨sz, root⟩ root src.length dstva src [] s = .ok ((r, acc), u) ∧
      ∃ e' k, UserTable u root e' sz F ∧ Filled sz e e' ∧ Same F s u ∧ k ≤ src.length ∧
        (r = true → k = src.length) ∧ (∀ i < k, OpenW e' (dstva + i)) ∧
        (∀ b, b / PGSIZE < UPAGES → byteAt u e' b =
          if dstva ≤ b ∧ b < dstva + k then src.getD (b - dstva) 0 else byteAt s e b) ∧
        ∀ x ∈ acc, x.Within e' dstva (dstva + src.length)) ∧
    (∀ srcva len, ∃ r acc u, copyin ⟨sz, root⟩ root srcva len s = .ok (r, u) ∧
      copyinAcc ⟨sz, root⟩ root len srcva len [] [] s = .ok ((r, acc), u) ∧
      ∃ e', UserTable u root e' sz F ∧ Filled sz e e' ∧ Same F s u ∧ SameBytes s e u e' ∧
        (∀ bytes, r = some bytes →
          bytes = (List.range len).map (fun i => byteAt s e (srcva + i)) ∧
          ∀ i < len, Open e' (srcva + i)) ∧
        ∀ x ∈ acc, x.Within e' srcva (srcva + len)) ∧
    ∀ srcva max, ∃ r acc, copyinstr root srcva max s = .ok (r, s) ∧
      copyinstrAcc root max srcva max [] [] s = .ok ((r, acc), s) ∧
      (r ≠ none ↔ ∃ k < max, (∀ i ≤ k, Open e (srcva + i)) ∧ byteAt s e (srcva + k) = 0) ∧
      (∀ str, r = some str → ∃ k < max, StringAt s e srcva k ∧
        str = (List.range k).map fun i => byteAt s e (srcva + i)) ∧
      ∀ x ∈ acc, x.Within e srcva (srcva + max) := by
  have hrec : ∀ {acc : List Access} {P : Access → Prop}, (∀ x ∈ acc, x ∈ [] ∨ P x) →
      ∀ x ∈ acc, P x := fun h x hx => (h x hx).resolve_left (List.not_mem_nil)
  refine ⟨fun dstva src => ?_, fun srcva len => ?_, fun srcva max => ?_⟩
  · obtain ⟨r, acc, u, h1, h2, e', k, hu, hf, hs, hk, hr, ho, hb, ha⟩ :=
      run_fst (copyoutAcc_fst _ _ dstva src []) (copyoutAcc_spec h src.length dstva le_rfl [])
    exact ⟨r, acc, u, h1, h2, e', k, hu, hf, hs, hk, hr, ho, hb, hrec ha⟩
  · obtain ⟨r, acc, u, h1, h2, e', hu, hf, hs, hb, hr, ha⟩ :=
      run_fst (copyinAcc_fst _ _ srcva len [] []) (copyinAcc_spec h len srcva le_rfl [] [])
    exact ⟨r, acc, u, h1, h2, e', hu, hf, hs, hb, fun bytes hbytes => hr bytes hbytes, hrec ha⟩
  · obtain ⟨r, acc, u, h1, h2, rfl, hsome, hnone, ha⟩ :=
      run_fst (copyinstrAcc_fst _ srcva max [] [])
        (copyinstrAcc_spec h.table.entries h.user max srcva le_rfl [] [])
    refine ⟨r, acc, h1, h2, ⟨fun hr => ?_, fun hk hr => ?_⟩, hsome, hrec ha⟩
    · obtain ⟨str, hstr⟩ := Option.ne_none_iff_exists'.mp hr
      obtain ⟨k, hk, hs, -⟩ := hsome str hstr
      exact ⟨k, hk, hs.1, hs.2.1⟩
    · obtain ⟨k, hk, hs⟩ := exists_stringAt hk
      exact hnone hr k hk hs

end

omit [Layout] in
lemma blank_userTable : @UserTable eightPages blankMach 0x87fff (fun _ => 0) (2 * PGSIZE) 0 := by
  let _ : Layout := eightPages
  refine ⟨⟨blank_pageTable.wf, fun a _ => ?_, ?_⟩, by decide, fun a _ hv => by cases hv⟩
  · rw [entry_blank sv39 fun j _ => blank_words j, mapping_zero]
  · rw [leaves_zero fun _ _ => rfl]
    exact blank_pageTable.owns

omit [Layout] in
set_option maxRecDepth 100000 in
lemma copies_across : (match @copyout eightPages ⟨2 * PGSIZE, 0x87fff⟩ 0x87fff (PGSIZE - 2)
      [1, 2, 3, 4] blankMach with
    | .ok (true, u) =>
      match @copyin eightPages ⟨2 * PGSIZE, 0x87fff⟩ 0x87fff (PGSIZE - 2) 4 u with
      | .ok (r, _) => r.isSome
      | .error _ => false
    | _ => false) = true := by decide +kernel

omit [Layout] in
theorem user_copies_across :
    @UserTable eightPages blankMach 0x87fff (fun _ => 0) (2 * PGSIZE) 0 ∧
    ∃ u v, @copyout eightPages ⟨2 * PGSIZE, 0x87fff⟩ 0x87fff (PGSIZE - 2) [1, 2, 3, 4] blankMach =
        .ok (true, u) ∧
      @copyin eightPages ⟨2 * PGSIZE, 0x87fff⟩ 0x87fff (PGSIZE - 2) 4 u =
        .ok (some [1, 2, 3, 4], v) := by
  let _ : Layout := eightPages
  refine ⟨blank_userTable, ?_⟩
  have hacross := copies_across
  obtain ⟨r, -, u, hout, -, e', k, hu, -, -, -, hr, -, hb, -⟩ :=
    (user_copies blank_userTable).1 (PGSIZE - 2) [1, 2, 3, 4]
  obtain ⟨r', -, v, hin, -, e₂, -, -, -, -, hbytes, -⟩ := (user_copies hu).2.1 (PGSIZE - 2) 4
  rw [hout] at hacross
  cases r with
  | false => cases hacross
  | true =>
    simp only [hin] at hacross
    obtain ⟨bytes, rfl⟩ := Option.isSome_iff_exists.mp hacross
    obtain rfl := hr rfl
    refine ⟨u, v, hout, ?_⟩
    rw [hin, (hbytes bytes rfl).1]
    have hread : ∀ i < 4, byteAt u e' (PGSIZE - 2 + i) = [1, 2, 3, 4].getD i 0 := by
      intro i hi
      rw [hb _ (by rw [UPAGES_eq]; unfold PGSIZE; omega), if_pos ⟨by omega, by simpa using hi⟩,
        Nat.add_sub_cancel_left]
    have hlist : (List.range 4).map (fun i => byteAt u e' (PGSIZE - 2 + i)) =
        (List.range 4).map fun i => [1, 2, 3, 4].getD i 0 :=
      List.map_congr_left fun i hi => hread i (List.mem_range.mp hi)
    rw [hlist]
    rfl

end Xv6.UserCopy
