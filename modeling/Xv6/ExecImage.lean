import Xv6.MemSafe

/-!
What is in the memory of a process after `kexec`.

The image grows from the bottom: every program header extends it with pages of zeroes and then
loads bytes from the file, and nothing that is there already changes. The stack is on top, with
the strings pushed downwards and the array of pointers below them.
-/

namespace Xv6.ExecImage

open Function Bytes Hoare PageTree VmModel VmTable VmUser VmCopy
open MemModel MemSpace UserCopy MemExec

section

variable [Layout] {s t u : Mach} {root a va sz tf : ℕ} {e e' : ℕ → ℕ} {F : Multiset ℕ}
  {me : Myproc} {file : List UInt8}

/-! ### The arguments -/

/-- Copies of the strings `args` below `top`, at the addresses `ptrs`, one below the other down to
`bot`; each is aligned and ends in a NUL. -/
def Strings (s : Mach) (e : ℕ → ℕ) : List (List UInt8) → ℕ → List ℕ → ℕ → Prop
  | [], top, [], bot => bot = top
  | arg :: args, top, ptr :: ptrs, bot => ptr % 16 = 0 ∧ ptr + arg.length + 1 ≤ top ∧
      (∀ j ≤ arg.length, byteAt s e (ptr + j) = (arg ++ [0]).getD j 0) ∧
      Strings s e args ptr ptrs bot
  | _, _, _, _ => False

omit [Layout] in
lemma Strings.length_eq {args : List (List UInt8)} {top bot : ℕ} {ptrs : List ℕ}
    (h : Strings s e args top ptrs bot) : ptrs.length = args.length ∧ bot ≤ top := by
  induction args generalizing top ptrs with
  | nil =>
    cases ptrs with
    | nil => exact ⟨rfl, le_of_eq h⟩
    | cons _ _ => exact h.elim
  | cons arg args ih =>
    cases ptrs with
    | nil => exact h.elim
    | cons ptr ptrs =>
      obtain ⟨-, h2, -, h4⟩ := h
      obtain ⟨h5, h6⟩ := ih h4
      exact ⟨by rw [List.length_cons, List.length_cons, h5], by omega⟩

omit [Layout] in
lemma Strings.congr {args : List (List UInt8)} {top bot : ℕ} {ptrs : List ℕ}
    (h : Strings s e args top ptrs bot)
    (hb : ∀ b, bot ≤ b → b < top → byteAt u e' b = byteAt s e b) :
    Strings u e' args top ptrs bot := by
  induction args generalizing top ptrs with
  | nil =>
    cases ptrs with
    | nil => exact h
    | cons _ _ => exact h.elim
  | cons arg args ih =>
    cases ptrs with
    | nil => exact h.elim
    | cons ptr ptrs =>
      obtain ⟨h1, h2, h3, h4⟩ := h
      have hle := h4.length_eq.2
      refine ⟨h1, h2, fun j hj => ?_, ih h4 fun b hlo hhi => hb b hlo (by omega)⟩
      rw [hb _ (by omega) (by omega)]
      exact h3 j hj

omit [Layout] in
lemma lt_user {b : ℕ} (h : b < sz) (hsz : sz ≤ TRAPFRAME) : b / PGSIZE < UPAGES :=
  Nat.div_lt_of_lt_mul (by rw [Nat.mul_comm, UPAGES_mul]; omega)

/-- Pushing the arguments: each string is written below the one before, and nothing else. -/
lemma pushArgs_strings {stackbase top : ℕ} (hspc : Space e top tf)
    (hst : Writable e stackbase (top - stackbase)) (hbase : PGSIZE ≤ stackbase)
    (argv : List (List UInt8)) (hargs : ∀ arg ∈ argv, arg.length < PGSIZE) (sp : ℕ)
    (ustack : List ℕ) (h : Table s root e (leaves e + F)) (hsp : stackbase ≤ sp)
    (hspsz : sp ≤ top) :
    wp (pushArgs me root stackbase argv sp ustack) s fun r u => Table u root e (leaves e + F) ∧
      ∀ sp' us, r = some (sp', us) → stackbase ≤ sp' ∧ ∃ ptrs, us = ustack ++ ptrs ∧
        us.length ≤ max MAXARG ustack.length ∧
        Strings u e argv sp ptrs sp' ∧ (∀ x ∈ ptrs, x < 2 ^ 64) ∧
        ∀ b, b / PGSIZE < UPAGES → b < sp' ∨ sp ≤ b → byteAt u e b = byteAt s e b := by
  have hbound : TRAPFRAME < 2 ^ 64 := by decide
  have hsize := hspc.size
  induction argv generalizing s sp ustack with
  | nil =>
    refine wp_pure.mpr ⟨h, fun sp' us hr => ?_⟩
    obtain ⟨rfl, rfl⟩ : sp = sp' ∧ ustack = us := by simpa using hr
    exact ⟨hsp, [], by simp, le_max_right _ _, rfl, by simp, fun _ _ _ => rfl⟩
  | cons arg args ih =>
    have harg := hargs arg List.mem_cons_self
    simp only [pushArgs]
    split_ifs with h1 h2
    · exact wp_pure.mpr ⟨h, by simp⟩
    · exact wp_pure.mpr ⟨h, by simp⟩
    · have hle := pushed_le sp (arg.length + 1) (by omega) (by omega)
      have hmod : pushed sp (arg.length + 1) % 16 = 0 := by
        unfold pushed
        exact Nat.mul_mod_left _ _
      generalize pushed sp (arg.length + 1) = ptr at h2 hle hmod ⊢
      have hlen : (arg ++ [0]).length = arg.length + 1 := by
        rw [List.length_append, List.length_singleton]
      refine wp.bind (copyout_mapped h (hst.sub (by omega) (by rw [hlen]; omega))) ?_
      rintro ok v ⟨-, hv, hpat⟩
      cases ok with
      | false => exact wp_pure.mpr ⟨hv, by simp⟩
      | true =>
        have hpat := hpat rfl
        refine (ih (fun a ha => hargs a (List.mem_cons_of_mem _ ha)) ptr (ustack ++ [ptr]) hv
          (by omega) (by omega)).mono ?_
        rintro r x ⟨hx, hr⟩
        refine ⟨hx, fun sp' us hsome => ?_⟩
        obtain ⟨hlo, ptrs, rfl, hmax, hstr, h64, hkeep⟩ := hr sp' us hsome
        have hbot := hstr.length_eq.2
        refine ⟨hlo, ptr :: ptrs, by simp, ?_, ⟨hmod, by omega, fun j hj => ?_, hstr⟩, ?_,
          fun b hb hout => ?_⟩
        · rw [List.length_append, List.length_append, List.length_singleton] at hmax ⊢
          have : ustack.length < MAXARG := by omega
          omega
        · rw [hkeep _ (lt_user (by omega) hsize) (by omega),
            hpat _ (lt_user (by omega) hsize), if_pos (by rw [hlen]; omega),
            Nat.add_sub_cancel_left]
        · intro y hy
          rcases List.mem_cons.mp hy with rfl | hy
          · omega
          · exact h64 y hy
        · rw [hkeep b hb (by omega), hpat b hb, if_neg (by rw [hlen]; omega)]

def wordAt (s : Mach) (e : ℕ → ℕ) (va : ℕ) : ℕ :=
  ofBytesLE ((List.range 8).map fun j => byteAt s e (va + j))

omit [Layout] in
lemma ofBytesLE_bytesLE {k v : ℕ} (h : v < 256 ^ k) : ofBytesLE (bytesLE k v) = v := by
  induction k generalizing v with
  | zero =>
    rw [pow_zero] at h
    rw [bytesLE, ofBytesLE]
    omega
  | succ k ih =>
    rw [pow_succ] at h
    rw [bytesLE, ofBytesLE, ih (by omega), UInt8.toNat_ofNat']
    omega

omit [Layout] in
lemma drop_words {l : List ℕ} {i : ℕ} (hi : i < l.length) :
    ((l.flatMap (bytesLE 8)).drop (8 * i)).take 8 = bytesLE 8 (l.getD i 0) := by
  induction l generalizing i with
  | nil => simp at hi
  | cons x xs ih =>
    have hx := length_bytesLE 8 x
    rw [List.flatMap_cons]
    cases i with
    | zero => rw [Nat.mul_zero, List.drop_zero, List.take_left' hx, List.getD_cons_zero]
    | succ i =>
      rw [Nat.mul_succ, Nat.add_comm, ← List.drop_drop, List.drop_left' hx,
        List.getD_cons_succ]
      exact ih (by simpa using hi)

omit [Layout] in
lemma wordAt_patched {l : List ℕ} {i : ℕ}
    (hp : Patched s e va (l.flatMap (bytesLE 8)) u) (hi : i < l.length)
    (h64 : ∀ x ∈ l, x < 2 ^ 64) (htop : va + l.length * 8 ≤ TRAPFRAME) :
    wordAt u e (va + 8 * i) = l.getD i 0 := by
  have hlen := length_ustack l
  have hv : l.getD i 0 < 256 ^ 8 := by
    rw [List.getD_eq_getElem _ _ hi]
    exact h64 _ (List.getElem_mem hi)
  rw [← ofBytesLE_bytesLE hv, ← drop_words hi, wordAt]
  congr 1
  refine List.ext_getElem? fun j => ?_
  by_cases hj : j < 8
  · rw [List.getElem?_map, List.getElem?_range hj, Option.map_some,
      hp _ (lt_user (by omega) htop), if_pos (by omega),
      List.getElem?_take_of_lt hj, List.getElem?_drop, List.getD_eq_getElem?_getD,
      show va + 8 * i + j - va = 8 * i + j by omega, List.getElem?_eq_getElem (by omega),
      Option.getD_some]
  · rw [List.getElem?_eq_none (by simpa using hj), List.getElem?_eq_none]
    rw [List.length_take]
    omega

/-- The stack of a new image: the strings, and below them the array of their addresses. -/
structure Stack (s : Mach) (e : ℕ → ℕ) (argv : List (List UInt8)) (base top sp : ℕ)
    (ptrs : List ℕ) (bot : ℕ) : Prop where
  strings : Strings s e argv top ptrs bot
  below : sp + (argv.length + 1) * 8 ≤ bot
  base : base ≤ sp
  align : sp % 16 = 0
  ptr : ∀ i < argv.length, wordAt s e (sp + 8 * i) = ptrs.getD i 0
  null : wordAt s e (sp + 8 * argv.length) = 0

lemma pushAll_stack {argv : List (List UInt8)} {top : ℕ} (hspc : Space e top tf)
    (h : Table s root e (leaves e + F))
    (hst : Writable e (top - USERSTACK * PGSIZE) (top - (top - USERSTACK * PGSIZE)))
    (hbase : PGSIZE ≤ top - USERSTACK * PGSIZE) (hargs : ∀ arg ∈ argv, arg.length < PGSIZE) :
    wp (pushAll me root top argv) s fun r u => Table u root e (leaves e + F) ∧
      ∀ sp, r = some sp → (∃ ptrs bot, Stack u e argv (top - USERSTACK * PGSIZE) top sp ptrs bot) ∧
        ∀ b < top - USERSTACK * PGSIZE, byteAt u e b = byteAt s e b := by
  have hsize := hspc.size
  have hbound : TRAPFRAME < 2 ^ 64 := by decide
  simp only [pushAll]
  refine wp.bind (pushArgs_strings hspc hst hbase argv hargs top [] h (by omega) le_rfl) ?_
  rintro r v ⟨hv, hr⟩
  cases r with
  | none => exact wp_pure.mpr ⟨hv, by simp⟩
  | some x =>
    obtain ⟨bot, us⟩ := x
    obtain ⟨hlo, ptrs, hus, hmax, hstr, h64, hkeep⟩ := hr bot us rfl
    rw [List.nil_append] at hus
    subst hus
    obtain ⟨hlen, hbot⟩ := hstr.length_eq
    dsimp only
    have hsmall : (us.length + 1) * 8 ≤ PGSIZE := by
      simp only [List.length_nil] at hmax
      unfold MAXARG at hmax
      unfold PGSIZE
      omega
    have hle := pushed_le bot ((us.length + 1) * 8) (by omega) (by omega)
    have hmod : pushed bot ((us.length + 1) * 8) % 16 = 0 := by
      unfold pushed
      exact Nat.mul_mod_left _ _
    generalize pushed bot ((us.length + 1) * 8) = sp at hle hmod ⊢
    split_ifs with h4
    · exact wp_pure.mpr ⟨hv, by simp⟩
    · have harr : ((us ++ [0]).flatMap (bytesLE 8)).length = (us.length + 1) * 8 := by
        rw [length_ustack, List.length_append, List.length_singleton]
      refine wp.bind (copyout_mapped hv (hst.sub (by omega) (by rw [harr]; omega))) ?_
      rintro ok x ⟨-, hx, hpat⟩
      cases ok with
      | false => exact wp_pure.mpr ⟨hx, by simp⟩
      | true =>
        have hpat := hpat rfl
        refine wp_pure.mpr ⟨hx, fun sp' hsp' => ?_⟩
        obtain rfl : sp = sp' := Option.some.inj hsp'
        have hword : ∀ i < us.length + 1, wordAt x e (sp + 8 * i) = (us ++ [0]).getD i 0 := by
          intro i hi
          refine wordAt_patched hpat (by simpa using hi) ?_ ?_
          · intro y hy
            rcases List.mem_append.mp hy with hy | hy
            · exact h64 y hy
            · rw [List.mem_singleton.mp hy]
              decide
          · rw [List.length_append, List.length_singleton]
            omega
        refine ⟨⟨us, bot, ⟨hstr.congr fun b hb1 hb2 => ?_, by omega, by omega, hmod, fun i hi => ?_,
          ?_⟩⟩, fun b hb => ?_⟩
        · rw [hpat b (lt_user (by omega) hsize), if_neg (by rw [harr]; omega)]
        · rw [hword i (by omega), List.getD_append _ _ _ _ (by omega)]
        · rw [← hlen, hword _ (by omega), List.getD_append_right _ _ _ _ le_rfl, Nat.sub_self]
          rfl
        · rw [hpat b (lt_user (by omega) hsize), if_neg (by rw [harr]; omega),
            hkeep b (lt_user (by omega) hsize) (by omega)]

/-! ### The segments -/

omit [Layout] in
lemma lt_pages {b : ℕ} (h : b < sz) : b / PGSIZE < pages sz := by
  unfold pages PGSIZE
  omega

/-- `uvmalloc` on an image: the new pages are zero, and the old ones are as they were. -/
lemma grow_bytes {newsz xperm : ℕ} (h : Image s root e sz tf F) (hle : sz ≤ newsz)
    (hx : xperm < 2 ^ 10) :
    wp (uvmalloc root sz newsz xperm) s fun r u => r ≠ 0 → r = newsz ∧ ∃ e',
      Image u root e' newsz tf F ∧
      Extends e e' (pages sz) (pages newsz) (PTE_R ||| PTE_U ||| xperm ||| PTE_V) ∧
      ∀ b, b / PGSIZE < pages newsz → byteAt u e' b =
        if b / PGSIZE < pages sz then byteAt s e b else 0 := by
  have hup := pages_le h.space.size
  refine (uvmalloc_spec h.table h.space.size hle (fun a h1 h2 => h.space.high h.table h1 h2) hx
    (.inr fun a ha => (h.dense a ha).1)).mono ?_
  rintro r u ⟨hs, hr⟩ h0
  rcases hr with ⟨rfl, -⟩ | ⟨rfl, hp, e', hu, hext, hz⟩
  · exact absurd rfl h0
  · refine ⟨rfl, e', h.extend hle hp hu hext, hext, fun b hb => ?_⟩
    split_ifs with hlo
    · have hold := hext.old (b / PGSIZE) (.inl hlo)
      have hv := (h.dense _ hlo).1
      rw [byteAt_valid (by rw [hold]; exact hv), byteAt_valid hv, hold,
        hs _ (Multiset.mem_add.mpr (.inl (mem_leaves (by omega) hv)))]
    · rw [byteAt_valid (hext.valid (by omega) hb), hz _ (by omega) hb,
        Buf.get_fill_zero]

omit [Layout] in
lemma readi_within {off len : ℕ} (h : off + len ≤ file.length) (hf : file.length < 2 ^ 32) :
    readi file off len = (file.drop off).take len ∧ (readi file off len).length = len := by
  have heq : readi file off len = (file.drop off).take len := by
    rw [readi, if_neg (by omega)]
  refine ⟨heq, ?_⟩
  rw [heq, List.length_take, List.length_drop]
  omega

omit [Layout] in
lemma getD_readi {off len j : ℕ} (h : off + len ≤ file.length) (hf : file.length < 2 ^ 32)
    (hj : j < len) : (readi file off len).getD j 0 = file.getD (off + j) 0 := by
  rw [(readi_within h hf).1, List.getD_eq_getElem?_getD, List.getElem?_take_of_lt hj,
    List.getElem?_drop, List.getD_eq_getElem?_getD]

omit [Layout] in
lemma readi_short {off len : ℕ} (h : ¬ off + len ≤ file.length) (hlen : 0 < len) :
    (readi file off len).length ≠ len := by
  rw [readi]
  split_ifs with hc
  · rw [List.length_nil]
    omega
  · rw [List.length_take, List.length_drop]
    omega

def Holds (file : List UInt8) (off va len : ℕ) (s : Mach) (e : ℕ → ℕ) (u : Mach) : Prop :=
  (0 < len → off + len ≤ file.length) ∧ ∀ b, b / PGSIZE < UPAGES → byteAt u e b =
    if va ≤ b ∧ b < va + len then file.getD (off + (b - va)) 0 else byteAt s e b

lemma loadseg_bytes (h : Image s root e sz tf F) {off len : ℕ} (hal : va % PGSIZE = 0)
    (hn : va + len ≤ sz) (hoff : off < 2 ^ 32) (hf : file.length < 2 ^ 32) :
    wp (loadseg root va file off len) s fun r u => r = true → Holds file off va len s e u := by
  refine wp.bind (wp_search (I := fun k u => Image u root e sz tf F ∧
      Holds file off va (min len (k * PGSIZE)) s e u)
    (Q := fun r u => r = none → Holds file off va len s e u)
    ⟨h, by omega, fun b _ => by rw [if_neg (by omega)]⟩ ?_ ?_) ?_
  · rintro k u - hk ⟨hu, hin₀, hb⟩
    have hlo : va + k * PGSIZE < sz := by
      unfold PGSIZE at *
      omega
    obtain ⟨hva, hd, hmem⟩ := h.page hlo
    have hlt : k * PGSIZE < len := by
      unfold PGSIZE at *
      omega
    have hmod : (off + k * PGSIZE) % 2 ^ 32 = off + k * PGSIZE := by
      refine Nat.mod_eq_of_lt ?_
      rcases Nat.eq_zero_or_pos k with rfl | hpos
      · omega
      · have := hin₀ (by unfold PGSIZE at *; omega)
        omega
    refine wp.bind (walkaddr_wp hu.table.entries) ?_
    rintro r u' ⟨rfl, hr⟩
    rw [if_pos ⟨hva, hd.1, hd.2⟩] at hr
    subst hr
    simp only [writeBytes, wp_bind, wp_modify, wp_pure, hmod]
    by_cases hin : off + k * PGSIZE + min (len - k * PGSIZE) PGSIZE ≤ file.length
    swap
    · rw [if_neg (readi_short hin (by unfold PGSIZE at *; omega))]
      intro hc
      cases hc
    have hlen := (readi_within hin hf).2
    rw [if_pos hlen]
    have hx0 : va + k * PGSIZE - PGROUNDDOWN (va + k * PGSIZE) = 0 := by
      unfold PGROUNDDOWN PGSIZE at *
      omega
    have hch : chunk (va + k * PGSIZE)
        (readi file (off + k * PGSIZE) (min (len - k * PGSIZE) PGSIZE)).length =
        min (len - k * PGSIZE) PGSIZE := by
      rw [chunk, hx0, hlen]
      omega
    refine ⟨⟨hu.table.store (Multiset.mem_add.mpr (.inl hmem)) _, hu.space, hu.dense⟩,
      fun _ => ?_, fun b hlt' => ?_⟩
    · rw [Nat.succ_mul]
      omega
    have hw := byteAt_write hu.table
      (show Open e (va + k * PGSIZE) from ⟨lt_user hlo h.space.size, hd⟩) hlt' hch.symm
    rw [hx0, List.take_of_length_le hlen.le] at hw
    rw [hw, hb b hlt', Nat.succ_mul]
    by_cases hc : va + k * PGSIZE ≤ b ∧ b < va + k * PGSIZE + min (len - k * PGSIZE) PGSIZE
    · rw [if_pos hc, getD_readi hin hf (by omega), if_pos (by omega),
        show off + k * PGSIZE + (b - (va + k * PGSIZE)) = off + (b - va) by omega]
    · have hiff : va ≤ b ∧ b < va + min len (k * PGSIZE) ↔
          va ≤ b ∧ b < va + min len (k * PGSIZE + PGSIZE) := by omega
      rw [if_neg hc]
      simp only [hiff]
  · rintro v ⟨-, hb⟩ -
    have hall : min len ((0 + (len + (PGSIZE - 1)) / PGSIZE) * PGSIZE) = len := by
      unfold PGSIZE
      omega
    rwa [hall] at hb
  · intro r u hu
    refine wp_pure.mpr fun hr => hu ?_
    simpa using hr

/-- A loadable segment, as its program header says. -/
structure Segment where
  flags : ℕ
  off : ℕ
  vaddr : ℕ
  filesz : ℕ
  memsz : ℕ
  deriving DecidableEq

def segmentOf (ph : List UInt8) : Segment :=
  ⟨field ph 4 4, field ph 8 8, field ph 16 8, field ph 32 8, field ph 40 8⟩

/-- The loadable segments among `k` program headers from offset `off` on. -/
def segments (file : List UInt8) : ℕ → ℕ → List Segment
  | 0, _ => []
  | k + 1, off =>
    if field (readi file off proghdrSize) 0 4 ≠ ELF_PROG_LOAD then
      segments file k ((off + proghdrSize) % 2 ^ 32)
    else segmentOf (readi file off proghdrSize) ::
      segments file k ((off + proghdrSize) % 2 ^ 32)

def loadable (file : List UInt8) : List Segment :=
  segments file (field (readi file 0 elfhdrSize) 56 2)
    (field (readi file 0 elfhdrSize) 32 8 % 2 ^ 32)

/-- Segments at page boundaries, each behind the end of the one before. -/
def Ascending : ℕ → List Segment → Prop
  | _, [] => True
  | lo, g :: gs => lo ≤ g.vaddr ∧ g.vaddr % PGSIZE = 0 ∧ Ascending (g.vaddr + g.memsz) gs

/-- The segments are in memory: their bytes, zeroes everywhere else, and the permissions of
their pages. The offset of a segment in the file counts modulo 2^32. -/
structure Loaded (file : List UInt8) (gs : List Segment) (s : Mach) (e : ℕ → ℕ) (sz : ℕ) :
    Prop where
  stored : ∀ g ∈ gs, 0 < g.filesz → g.off % 2 ^ 32 + g.filesz ≤ file.length
  bytes : ∀ g ∈ gs, ∀ k < g.filesz,
    byteAt s e (g.vaddr + k) = file.getD (g.off % 2 ^ 32 + k) 0
  zero : ∀ b, b / PGSIZE < pages sz → (∀ g ∈ gs, ¬ (g.vaddr ≤ b ∧ b < g.vaddr + g.filesz)) →
    byteAt s e b = 0
  perm : ∀ g ∈ gs, ∀ a, g.vaddr / PGSIZE ≤ a → a < pages (g.vaddr + g.memsz) →
    PTE_FLAGS (e a) = PTE_R ||| PTE_U ||| flags2perm g.flags ||| PTE_V
  inside : ∀ g ∈ gs, g.filesz ≤ g.memsz ∧ g.vaddr + g.memsz ≤ sz

omit [Layout] in
lemma Loaded.congr {gs : List Segment} {newsz : ℕ} (h : Loaded file gs s e sz) (hle : sz ≤ newsz)
    (hb : ∀ b, b / PGSIZE < pages newsz → byteAt u e' b =
      if b / PGSIZE < pages sz then byteAt s e b else 0)
    (he : ∀ a < pages sz, e' a = e a) : Loaded file gs u e' newsz := by
  have hmono := pages_mono hle
  refine ⟨h.stored, fun g hg k hk => ?_, fun b hlt hout => ?_, fun g hg a h1 h2 => ?_,
    fun g hg => ?_⟩
  · obtain ⟨h1, h2⟩ := h.inside g hg
    have hlt : (g.vaddr + k) / PGSIZE < pages sz := lt_pages (by omega)
    rw [hb _ (by omega), if_pos hlt]
    exact h.bytes g hg k hk
  · rw [hb b hlt]
    split_ifs with hlo
    · exact h.zero b hlo hout
    · rfl
  · rw [he a (h2.trans_le (pages_mono (h.inside g hg).2))]
    exact h.perm g hg a h1 h2
  · exact ⟨(h.inside g hg).1, (h.inside g hg).2.trans hle⟩

omit [Layout] in
lemma Loaded.snoc {gs : List Segment} {g : Segment} {lo : ℕ} (h : Loaded file gs s e sz)
    (hlo : ∀ g' ∈ gs, g'.vaddr + g'.memsz ≤ lo) (hg : lo ≤ g.vaddr) (hsz : sz ≤ TRAPFRAME)
    (hin : g.filesz ≤ g.memsz ∧ g.vaddr + g.memsz ≤ sz)
    (hperm : ∀ a, g.vaddr / PGSIZE ≤ a → a < pages (g.vaddr + g.memsz) →
      PTE_FLAGS (e a) = PTE_R ||| PTE_U ||| flags2perm g.flags ||| PTE_V)
    (hld : Holds file (g.off % 2 ^ 32) g.vaddr g.filesz s e u) :
    Loaded file (gs ++ [g]) u e sz := by
  have hup := pages_le hsz
  obtain ⟨hst, hb⟩ := hld
  refine ⟨fun g' hg' h0 => ?_, fun g' hg' k hk => ?_, fun b hlt hout => ?_,
    fun g' hg' a h1 h2 => ?_, fun g' hg' => ?_⟩
  · rcases List.mem_append.mp hg' with hg' | hg'
    · exact h.stored g' hg' h0
    · obtain rfl := List.mem_singleton.mp hg'
      exact hst h0
  · rcases List.mem_append.mp hg' with hg' | hg'
    · have h1 := h.inside g' hg'
      have h2 := hlo g' hg'
      rw [hb _ (lt_user (by omega) hsz), if_neg (by omega)]
      exact h.bytes g' hg' k hk
    · obtain rfl := List.mem_singleton.mp hg'
      rw [hb _ (lt_user (by omega) hsz), if_pos (by omega), Nat.add_sub_cancel_left]
  · rw [hb b (by omega), if_neg (hout g (List.mem_append_right _ (List.mem_singleton_self g)))]
    exact h.zero b hlt fun g' hg' => hout g' (List.mem_append_left _ hg')
  · rcases List.mem_append.mp hg' with hg' | hg'
    · exact h.perm g' hg' a h1 h2
    · obtain rfl := List.mem_singleton.mp hg'
      exact hperm a h1 h2
  · rcases List.mem_append.mp hg' with hg' | hg'
    · exact h.inside g' hg'
    · obtain rfl := List.mem_singleton.mp hg'
      exact hin

lemma loadProgram_loaded (hf : file.length < 2 ^ 32) (k off : ℕ) {done : List Segment}
    (h : Image s root e sz tf F) (hl : Loaded file done s e sz)
    (hasc : Ascending sz (segments file k off)) :
    wp (loadProgram root file k off sz) s fun r u => r.1 = true → ∃ e', Image u root e' r.2 tf F ∧
      Loaded file (done ++ segments file k off) u e' r.2 := by
  induction k generalizing s e off sz done with
  | zero =>
    refine wp_pure.mpr fun _ => ⟨e, h, ?_⟩
    rw [segments, List.append_nil]
    exact hl
  | succ k ih =>
    simp only [loadProgram]
    have hv := field_lt (readi file off proghdrSize) 16 8
    have hm := field_lt (readi file off proghdrSize) 40 8
    split_ifs with h1 h2 h3 h4 h5
    · exact wp_pure.mpr (by simp)
    · have hseg : segments file (k + 1) off = segments file k ((off + proghdrSize) % 2 ^ 32) := by
        rw [segments, if_pos h2]
      rw [hseg] at hasc ⊢
      exact ih _ h hl hasc
    · exact wp_pure.mpr (by simp)
    · exact wp_pure.mpr (by simp)
    · exact wp_pure.mpr (by simp)
    · have hseg : segments file (k + 1) off = segmentOf (readi file off proghdrSize) ::
          segments file k ((off + proghdrSize) % 2 ^ 32) := by
        rw [segments, if_neg h2]
      rw [hseg] at hasc ⊢
      generalize readi file off proghdrSize = ph at *
      have hmod : (field ph 16 8 + field ph 40 8) % 2 ^ 64 = field ph 16 8 + field ph 40 8 :=
        no_wrap hv hm (by omega)
      have hlo : sz ≤ field ph 16 8 := hasc.1
      have hal : field ph 16 8 % PGSIZE = 0 := hasc.2.1
      have hfs : field ph 32 8 ≤ field ph 40 8 := by omega
      rw [hmod]
      refine wp.bind (grow_bytes h (by omega) (flags2perm_lt _)) ?_
      intro r u hr
      split_ifs with h6
      · exact wp_pure.mpr (by simp)
      · obtain ⟨rfl, e₁, hu, hext, hb⟩ := hr h6
        have hl₁ : Loaded file done u e₁ (field ph 16 8 + field ph 40 8) :=
          hl.congr (by omega) hb fun a ha => hext.old a (.inl ha)
        -- there is not that much memory
        have hsmall := dense_lt hu.table (pages_le hu.space.size) fun a ha => (hu.dense a ha).1
        have hsz : field ph 32 8 < 2 ^ 32 := by
          unfold pages PGSIZE at hsmall
          omega
        rw [Nat.mod_eq_of_lt hsz]
        refine wp.bind (wp.and (loadseg_wp hu hal (by omega))
          (loadseg_bytes hu hal (by omega) (Nat.mod_lt _ (by decide)) hf)) ?_
        rintro ok v ⟨⟨-, hv'⟩, hbytes⟩
        cases ok with
        | false => exact wp_pure.mpr (by simp)
        | true =>
          have hl₂ : Loaded file (done ++ [segmentOf ph]) v e₁ (field ph 16 8 + field ph 40 8) := by
            refine hl₁.snoc (g := segmentOf ph) (fun g' hg' => (hl.inside g' hg').2) hlo
              hu.space.size ⟨hfs, le_rfl⟩ (fun a h7 h8 => hext.new a ?_ h8) (hbytes rfl)
            refine le_trans ?_ h7
            change pages sz ≤ field ph 16 8 / PGSIZE
            unfold pages PGSIZE at *
            omega
          refine (ih _ hv' hl₂ hasc.2.2).mono ?_
          intro r x hx hr
          obtain ⟨e', hi, hlo⟩ := hx hr
          refine ⟨e', hi, ?_⟩
          rwa [List.append_assoc, List.singleton_append] at hlo

/-! ### The whole image -/

omit [Layout] in
lemma has_and_notU_U (w : ℕ) : has (w &&& notU) PTE_U = false := by
  have h : notU &&& PTE_U = 0 := by decide
  rw [has, Nat.and_assoc, h, Nat.and_zero]
  rfl

/-- The memory of a process after `kexec`: the segments up to page `n`, the guard page, and the
stack. -/
structure Built (file : List UInt8) (argv : List (List UInt8)) (s : Mach) (e : ℕ → ℕ)
    (n sz sp : ℕ) : Prop where
  loaded : Loaded file (loadable file) s e (n * PGSIZE)
  top : sz = n * PGSIZE + (USERSTACK + 1) * PGSIZE
  guard : has (e n) PTE_U = false
  pages : ∀ a, n < a → a < n + USERSTACK + 1 →
    PTE_FLAGS (e a) = PTE_R ||| PTE_U ||| PTE_W ||| PTE_V
  stack : ∃ ptrs bot, Stack s e argv ((n + 1) * PGSIZE) sz sp ptrs bot

/-- A program file whose segments are at page boundaries and ascend without overlap. -/
structure Elf (file : List UInt8) : Prop where
  ascending : Ascending 0 (loadable file)
  small : file.length < 2 ^ 32

omit [Layout] in
lemma Loaded.same_size {gs : List Segment} (h : Loaded file gs s e sz)
    (hb : ∀ b, b / PGSIZE < pages sz → byteAt u e' b = byteAt s e b)
    (he : ∀ a < pages sz, e' a = e a) : Loaded file gs u e' sz :=
  h.congr le_rfl (fun b hlt => by rw [if_pos hlt]; exact hb b hlt) he

lemma buildImage_built {argv : List (List UInt8)} (helf : Elf file) (h : Owns s F)
    (htf : tf < 2 ^ 52) (hargs : ∀ arg ∈ argv, arg.length < PGSIZE) :
    wp (buildImage me tf file argv) s fun r u => ∀ root sz sp, r = some (root, sz, sp) → ∃ e n,
      Table u root e (leaves e + F) ∧ Space e sz tf ∧ Built file argv u e n sz sp := by
  have undo : ∀ {v root e sz}, Table v root e (leaves e + F) → Space e sz tf →
      wp (do procFreepagetable root sz; pure none : Vm (Option (ℕ × ℕ × ℕ))) v fun r u =>
        ∀ root sz sp, r = some (root, sz, sp) → ∃ e n,
          Table u root e (leaves e + F) ∧ Space e sz tf ∧ Built file argv u e n sz sp :=
    fun ht hsp => wp.bind (procFreepagetable_wp ht hsp) fun _ x _ => wp_pure.mpr (by simp)
  simp only [buildImage]
  split_ifs with h1 h2
  · exact wp_pure.mpr (by simp)
  · exact wp_pure.mpr (by simp)
  refine wp.bind (procPagetable_wp h htf) ?_
  rintro r u ⟨-, -, hsome⟩
  cases r with
  | none => exact wp_pure.mpr (by simp)
  | some root =>
    obtain ⟨e, hu, hsp⟩ := hsome root rfl
    have himg : Image u root e 0 tf F :=
      ⟨hu, hsp, fun a ha => absurd ha (by unfold pages PGSIZE; omega)⟩
    have hnone : Loaded file [] u e 0 :=
      ⟨by simp, by simp, fun b hb => absurd hb (by unfold pages PGSIZE; omega), by simp, by simp⟩
    refine wp.bind (wp.and (loadProgram_wp _ _ himg)
      (loadProgram_loaded helf.small _ _ himg hnone helf.ascending)) ?_
    rintro ⟨ok, sz⟩ v ⟨⟨-, e₀, hv₀⟩, hload⟩
    dsimp only at hv₀ hload ⊢
    cases ok with
    | false => exact undo hv₀.table hv₀.space
    | true =>
      simp only [Bool.not_true, Bool.false_eq_true, if_false]
      obtain ⟨e₁, hv, hl⟩ := hload rfl
      rw [List.nil_append] at hl
      have hv2 := hv.roundup
      rw [PGROUNDUP_eq hv.space.size]
      generalize hn : pages sz = n at *
      have hl₁ : Loaded file (loadable file) v e₁ (n * PGSIZE) := by
        refine hl.congr ?_ (fun b hb => ?_) fun _ _ => rfl
        · rw [← hn]
          unfold pages PGSIZE
          omega
        · rw [pages_mul, ← hn] at hb
          rw [if_pos hb]
      have hle : n * PGSIZE ≤ n * PGSIZE + (USERSTACK + 1) * PGSIZE := by omega
      refine wp.bind (wp.and (hv2.uvmalloc (show PTE_W < 2 ^ 10 by decide))
        (grow_bytes hv2 hle (show PTE_W < 2 ^ 10 by decide))) ?_
      rintro r x ⟨⟨-, hr⟩, hgrow⟩
      split_ifs with h0
      · rcases hr with ⟨-, hx⟩ | ⟨hc, -⟩
        · exact undo hx.table hx.space
        · exact absurd hc (by unfold PGSIZE; omega)
      · obtain ⟨rfl, e₂, hx, hext, hb⟩ := hgrow h0
        have hpages : pages (n * PGSIZE + (USERSTACK + 1) * PGSIZE) = n + USERSTACK + 1 := by
          rw [← Nat.add_mul, pages_mul]
          omega
        have hbase : n * PGSIZE + (USERSTACK + 1) * PGSIZE - USERSTACK * PGSIZE =
            (n + 1) * PGSIZE := by
          unfold PGSIZE
          omega
        have hup := pages_le hx.space.size
        have hdense := hx.dense
        have hst := (hx.clear_guard hext).1 (e₂ n &&& notU)
        rw [hpages] at hup hdense
        rw [Nat.add_sub_cancel]
        refine wp.bind (uvmclear_spec hx.table (show n < UPAGES by omega)
          (hdense n (by omega)).1) ?_
        rintro _ y ⟨hsame, hy⟩
        have hspace := hx.space_update (show n < _ by rw [hpages]; omega) (e₂ n &&& notU)
        refine wp.bind (pushAll_stack hspace hy hst (by rw [hbase]; unfold PGSIZE; omega)
          hargs) ?_
        rintro r z ⟨hz, hstack⟩
        cases r with
        | none => exact undo hz hspace
        | some sp =>
          refine wp_pure.mpr fun root' sz' sp' hr => ?_
          obtain ⟨rfl, rfl, rfl⟩ : root = root' ∧ _ = sz' ∧ sp = sp' := by simpa using hr
          obtain ⟨hstk, hkeep⟩ := hstack sp rfl
          rw [hbase] at hstk hkeep
          rw [hpages, pages_mul] at hext
          rw [hpages, pages_mul] at hb
          refine ⟨_, n, hz, hspace, ⟨?_, rfl, ?_, fun a h5 h6 => ?_, hstk⟩⟩
          · have hl₂ : Loaded file (loadable file) x e₂ (n * PGSIZE) := by
              refine hl₁.same_size (fun b hlt => ?_) fun a ha => ?_
              · rw [pages_mul] at hlt
                rw [hb b (by omega), if_pos hlt]
              · rw [pages_mul] at ha
                exact hext.old a (.inl ha)
            refine hl₂.same_size (fun b hlt => ?_) fun a ha => ?_
            · rw [pages_mul] at hlt
              have hv' := (hdense (b / PGSIZE) (by omega)).1
              have he : update e₂ n (e₂ n &&& notU) (b / PGSIZE) = e₂ (b / PGSIZE) :=
                update_of_ne (by omega) _ _
              rw [hkeep b (by unfold PGSIZE at *; omega), byteAt_valid (by rw [he]; exact hv'),
                byteAt_valid hv', he,
                hsame _ (Multiset.mem_add.mpr (.inl (mem_leaves (by omega) hv')))]
            · rw [pages_mul] at ha
              exact update_of_ne (by omega) _ _
          · rw [update_self]
            exact has_and_notU_U _
          · rw [update_of_ne (by omega)]
            exact hext.new a (by omega) h6

omit [Layout] in
lemma Stack.congr {argv : List (List UInt8)} {base top sp bot : ℕ} {ptrs : List ℕ}
    (h : Stack s e argv base top sp ptrs bot)
    (hb : ∀ b < top, byteAt u e' b = byteAt s e b) : Stack u e' argv base top sp ptrs bot := by
  have hle := h.strings.length_eq.2
  have hbelow := h.below
  have hword : ∀ i ≤ argv.length, wordAt u e' (sp + 8 * i) = wordAt s e (sp + 8 * i) := by
    intro i hi
    unfold wordAt
    congr 1
    refine List.map_congr_left fun j hj => hb _ ?_
    have := List.mem_range.mp hj
    omega
  exact ⟨h.strings.congr fun b _ hlt => hb b hlt, h.below, h.base, h.align,
    fun i hi => (hword i hi.le).trans (h.ptr i hi), (hword _ le_rfl).trans h.null⟩

lemma Built.congr {argv : List (List UInt8)} {n sz sp : ℕ} (h : Built file argv s e n sz sp)
    (hsz : sz ≤ TRAPFRAME) (hb : SameBytes s e u e) : Built file argv u e n sz sp := by
  have htop := h.top
  obtain ⟨ptrs, bot, hst⟩ := h.stack
  refine ⟨h.loaded.same_size (fun b hlt => hb b ?_) fun _ _ => rfl, h.top, h.guard, h.pages, ptrs,
    bot, hst.congr fun b hlt => hb b (lt_user hlt hsz)⟩
  exact hlt.trans_le (pages_le (by omega))

/-! ### `kexec` -/

section Kexec

open MemInv MemCalls MemSafe

variable {n : ℕ} {y : Sys n} {p : Fin n} {t : ℕ} {argv : List (List UInt8)}

omit [Layout] in
lemma frame_words {w : Mach} {sp entry : ℕ} (hsp : sp < 2 ^ 64) (he : entry < 2 ^ 64)
    (h : w.mem tf = (((u.setWord tf 15 sp).setWord tf 3 entry).setWord tf 6 sp).mem tf) :
    words w.mem tf 15 = sp ∧ words w.mem tf 6 = sp ∧ words w.mem tf 3 = entry := by
  have hw := words_congr h
  rw [words_setWord _ _ (by decide) hsp, words_setWord _ _ (by decide) he,
    words_setWord _ _ (by decide) hsp] at hw
  rw [hw]
  simp [put]

lemma executed_built {y' : Sys n} {root sz sp : ℕ} {e : ℕ → ℕ} (h : Safe y)
    (ht : (y.mm p).pagetable = some t) (htf : (y.mm p).trapframe = some tf) (helf : Elf file)
    (hargs : ∀ arg ∈ argv, arg.length < PGSIZE)
    (hex : Executed y p t tf file argv y' root sz sp u e) :
    sz ≤ TRAPFRAME ∧ ∃ e k, Maps y'.vm root e ∧ Built file argv y'.vm e k sz sp := by
  have ho := (h.rest p).2
  have hframe : tf ∈ procPages y.vm (y.mm p) := by
    rw [procPages_eq ht htf]
    exact Multiset.mem_add.mpr (.inr (Multiset.mem_singleton_self tf))
  have htf52 := allocatable_lt (ho.mem (Multiset.mem_add.mpr (.inl hframe)))
  obtain ⟨r, u', hrun, hbuilt⟩ := buildImage_built (s := y.vm) helf ho htf52 hargs
  rw [hex.image] at hrun
  obtain ⟨rfl, rfl⟩ : some (root, sz, sp) = r ∧ u = u' := by simpa using hrun
  obtain ⟨e₂, k, hT, hsp, hb⟩ := hbuilt root sz sp rfl
  obtain ⟨R, hT₁⟩ := hex.table
  have hleaves : leaves e₂ = leaves e := (leaves_mappings hT).symm.trans (leaves_mappings hT₁)
  have hsame : SameBytes u e₂ y'.vm e₂ := by
    refine sameBytes_of_same (hex.same.mono ?_)
    rw [hleaves]
    exact Multiset.le_add_left _ _
  exact ⟨hsp.size, e₂, k, hT.entries.congr hex.same.left,
    hb.congr hsp.size hsame⟩

def Placed (file : List UInt8) (s : Mach) (e : ℕ → ℕ) : Prop :=
  ∀ g ∈ loadable file, 0 < g.filesz → g.off + g.filesz ≤ file.length ∧
    ∀ k < g.filesz, byteAt s e (g.vaddr + k) = file.getD (g.off + k) 0

lemma Built.placed_iff {argv : List (List UInt8)} {n sz sp : ℕ} (helf : Elf file)
    (h : Built file argv s e n sz sp) :
    Placed file s e ↔ ∀ g ∈ loadable file, 0 < g.filesz → g.off < 2 ^ 32 := by
  constructor
  · intro hp g hg hpos
    have := (hp g hg hpos).1
    have := helf.small
    omega
  · intro hoff g hg hpos
    have hmod : g.off % 2 ^ 32 = g.off := Nat.mod_eq_of_lt (hoff g hg hpos)
    refine ⟨hmod ▸ h.loaded.stored g hg hpos, fun k hk => ?_⟩
    rw [h.loaded.bytes g hg k hk, hmod]

end Kexec

end

/-! ### An offset beyond 32 bits -/

section Far

open MemInv MemCalls MemSafe

/-- An executable whose segment is said to be 2^32 bytes behind where the bytes are. -/
def farElf : List UInt8 := segmentElf (2 ^ 32 + 120)

lemma loadable_far : loadable farElf = [⟨5, 2 ^ 32 + 120, 0, 4, 8⟩] := by decide +kernel

lemma elf_far : Elf farElf := by
  refine ⟨?_, by decide +kernel⟩
  rw [loadable_far]
  exact ⟨le_rfl, rfl, trivial⟩

set_option maxRecDepth 100000 in
lemma builds_far : builds farElf [] (fun _ _ => true) = true := by decide +kernel

set_option maxRecDepth 100000 in
lemma builds_near : builds (segmentElf 120) [[0x61, 0x62], [0x63]] (fun _ _ => true) = true := by
  decide +kernel

lemma loadable_near : loadable (segmentElf 120) = [⟨5, 120, 0, 4, 8⟩] := by decide +kernel

end Far

end Xv6.ExecImage
