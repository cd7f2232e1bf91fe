import Xv6.MemSpace
import Xv6.UserCopy

/-!
Building a new address space in `kexec`: whatever the program file says, and wherever memory
runs out, the new space is complete or all of it has been given back.

While the image is built every page below its size is mapped; since there are fewer pages of
memory than addresses, the size stays far below the trapframe without a check.
-/

namespace Xv6.MemExec

open Function Bytes Hoare PageTree VmModel VmTable VmUser VmCopy
open MemModel MemSpace UserCopy

variable [Layout] {s t u : Mach} {root a va p sz tf : ℕ} {e e' : ℕ → ℕ} {R F : Multiset ℕ}
  {me : Myproc}

/-! ### Entries made inaccessible -/

section Mask

omit [Layout]

def notU : ℕ := 2 ^ 64 - 1 - PTE_U

lemma has_and_notU {w g : ℕ} (hg : notU &&& g = g) : has (w &&& notU) g = has w g := by
  rw [has, has, Nat.and_assoc, hg]

lemma PTE2PA_and_notU (w : ℕ) : PTE2PA (w &&& notU) = PTE2PA w := by
  have h : notU / 2 ^ 10 = 2 ^ 54 - 1 := by decide
  rw [PTE2PA, PTE2PA, Nat.and_div_two_pow, h, Nat.and_two_pow_sub_one_eq_mod]
  omega

end Mask

lemma uvmclear_spec (h : Table s root e (leaves e + F)) (ha : a < UPAGES)
    (hv : has (e a) PTE_V) :
    wp (uvmclear root (a * PGSIZE)) s fun _ u => Same (leaves e + F) s u ∧
      Table u root (update e a (e a &&& notU))
        (leaves (update e a (e a &&& notU)) + F) := by
  have hpage : a * PGSIZE / PGSIZE = a := Nat.mul_div_cancel a (by decide)
  refine wp.bind (h.entries.walk_valid (user_lt ha).1 (by rwa [hpage])) ?_
  rintro r u ⟨rfl, l, rfl, hl, hw⟩
  rw [hpage] at hl hw ⊢
  have hV : has (e a &&& notU) PTE_V := by rw [has_and_notU (by decide), hv]
  have hset := h.set (user_lt ha).2 hl (w := e a &&& notU)
    (Nat.lt_of_le_of_lt Nat.and_le_right (by decide))
    (fun _ => by rw [has_and_notU (by decide)]; exact h.leaf (user_lt ha).2 hv)
  rw [mapping_of_valid hV] at hset
  have hleaves : leaves (update e a (e a &&& notU)) = leaves e := by
    have := leaves_update (e := e) (w := e a &&& notU) ha
    rw [leaf_of_valid hv, leaf_of_valid hV, PTE2PA_and_notU] at this
    exact add_right_cancel this
  simp only [readPte, writePte, wp_bind, wp_get, wp_pure, wp_modify, hw]
  refine ⟨hset.2, ?_⟩
  rw [hleaves]
  exact hset.1

/-! ### Copying to pages that are mapped -/

def Writable (e : ℕ → ℕ) (va n : ℕ) : Prop := ∀ a, va / PGSIZE ≤ a → a * PGSIZE < va + n →
  a < UPAGES ∧ has (e a) PTE_V ∧ has (e a) PTE_U ∧ has (e a) PTE_W

lemma userPage_mapped (h : Maps s root e) (hva : va < MAXVA)
    (hv : has (e (va / PGSIZE)) PTE_V) (hU : has (e (va / PGSIZE)) PTE_U) :
    wp (userPage me root va) s fun r u => u = s ∧ r = some (PTE2PA (e (va / PGSIZE))) := by
  refine wp.bind (walkaddr_wp h) ?_
  rintro r u ⟨rfl, hr⟩
  rw [if_pos ⟨hva, hv, hU⟩] at hr
  subst hr
  exact wp_pure.mpr ⟨rfl, rfl⟩

omit [Layout] in
lemma next_page {dstva n b : ℕ} (h1 : (PGROUNDDOWN dstva + PGSIZE) / PGSIZE ≤ b)
    (h2 : b * PGSIZE < PGROUNDDOWN dstva + PGSIZE +
      (n - min (PGSIZE - (dstva - PGROUNDDOWN dstva)) n)) :
    dstva / PGSIZE ≤ b ∧ b * PGSIZE < dstva + n := by
  unfold PGROUNDDOWN PGSIZE at *
  omega

def Patched (s : Mach) (e : ℕ → ℕ) (va : ℕ) (src : List UInt8) (u : Mach) : Prop :=
  ∀ b, b / PGSIZE < UPAGES → byteAt u e b =
    if va ≤ b ∧ b < va + src.length then src.getD (b - va) 0 else byteAt s e b

omit [Layout] in
lemma patched_nil {src : List UInt8} (h : src.length = 0) : Patched s e va src s := fun b _ => by
  rw [if_neg (by omega)]

omit [Layout] in
lemma patched_cons {dstva : ℕ} {src : List UInt8} {v : Mach}
    (hb : ∀ b, b / PGSIZE < UPAGES → byteAt v e b =
      if dstva ≤ b ∧ b < dstva + chunk dstva src.length then src.getD (b - dstva) 0
      else byteAt s e b)
    (h : Patched v e (PGROUNDDOWN dstva + PGSIZE) (src.drop (chunk dstva src.length)) u) :
    Patched s e dstva src u := by
  intro b hlt
  have hle := chunk_le dstva src.length
  have hnext := chunk_next dstva src.length (i := b - dstva)
  have hstart : chunk dstva src.length < src.length →
      PGROUNDDOWN dstva + PGSIZE = dstva + chunk dstva src.length := fun hc => by
    have := chunk_next dstva src.length (i := chunk dstva src.length) le_rfl hc
    omega
  rw [h b hlt, hb b hlt, List.length_drop]
  by_cases hc : dstva + chunk dstva src.length ≤ b ∧ b < dstva + src.length
  · have hs := hstart (by omega)
    have hin : dstva ≤ b ∧ b < dstva + src.length := by omega
    have hidx : chunk dstva src.length + (b - (PGROUNDDOWN dstva + PGSIZE)) = b - dstva := by
      omega
    rw [if_pos (by omega), if_pos hin, List.getD_eq_getElem?_getD, List.getElem?_drop, hidx,
      List.getD_eq_getElem?_getD]
  · rw [if_neg (fun hin => hc ?_)]
    · have hiff : dstva ≤ b ∧ b < dstva + chunk dstva src.length ↔
          dstva ≤ b ∧ b < dstva + src.length := by omega
      simp only [hiff]
    · have hs := hstart (by omega)
      omega

/-- `copyout` to writable pages never asks for a page, whoever the caller is. -/
lemma copyoutLoop_mapped (h : Table s root e (leaves e + F)) (fuel : ℕ) {dstva : ℕ}
    {src : List UInt8} (hfuel : src.length ≤ fuel) (hw : Writable e dstva src.length) :
    wp (copyoutLoop me root fuel dstva src) s fun r u => Same F s u ∧
      Table u root e (leaves e + F) ∧ (r = true → Patched s e dstva src u) := by
  induction fuel generalizing s dstva src with
  | zero => exact wp_pure.mpr ⟨Same.refl F s, h, fun _ => patched_nil (by omega)⟩
  | succ fuel ih =>
    rw [copyoutLoop]
    dsimp only
    split_ifs with h1 h2
    · exact wp_pure.mpr ⟨Same.refl F s, h, fun _ => patched_nil h1⟩
    · exact wp_pure.mpr ⟨Same.refl F s, h, by simp⟩
    · obtain ⟨hlt, hv, hU, hW⟩ := hw (dstva / PGSIZE) le_rfl (by
        have := Nat.div_mul_le_self dstva PGSIZE
        omega)
      have hM : PGROUNDDOWN dstva < MAXVA := by omega
      have hmem : PTE2PA (e (dstva / PGSIZE)) ∈ leaves e := mem_leaves hlt hv
      have hdiv : PGROUNDDOWN dstva / PGSIZE = dstva / PGSIZE := PGROUNDDOWN_div dstva
      have hchunk := chunk_pos dstva (Nat.pos_of_ne_zero h1)
      refine wp.bind (userPage_mapped h.entries hM (by rwa [hdiv]) (by rwa [hdiv])) ?_
      rintro r u ⟨rfl, rfl⟩
      rw [hdiv]
      refine wp.bind (h.entries.walk_valid hM (by rwa [hdiv])) ?_
      rintro r u' ⟨rfl, l, rfl, -, hword⟩
      rw [hdiv] at hword ⊢
      simp only [readPte, writeBytes, wp_bind, wp_get, wp_pure, hword, hW, Bool.not_true,
        Bool.false_eq_true, if_false, wp_modify]
      rw [show min (PGSIZE - (dstva - PGROUNDDOWN dstva)) src.length =
        chunk dstva src.length from rfl]
      refine (ih (h.store (Multiset.mem_add.mpr (.inl hmem)) _)
        (by rw [List.length_drop]; omega) ?_).mono fun r x hx =>
          ⟨Same.trans (store_same (fun hF => leaves_not_frame h hmem hF) _) hx.1, hx.2.1,
            fun hr => patched_cons (fun b hb => ?_) (hx.2.2 hr)⟩
      · intro b hb1 hb2
        rw [List.length_drop] at hb2
        exact hw b (next_page hb1 hb2).1 (next_page hb1 hb2).2
      · exact byteAt_write h ⟨hlt, hv, hU⟩ hb rfl

lemma copyout_mapped (h : Table s root e (leaves e + F)) {dstva : ℕ} {src : List UInt8}
    (hw : Writable e dstva src.length) :
    wp (copyout me root dstva src) s fun r u => Same F s u ∧ Table u root e (leaves e + F) ∧
      (r = true → Patched s e dstva src u) := copyoutLoop_mapped h src.length le_rfl hw

/-! ### Loading a program -/

/-- An image under construction: every page below its size is mapped for the user. -/
structure Image (s : Mach) (root : ℕ) (e : ℕ → ℕ) (sz tf : ℕ) (F : Multiset ℕ) : Prop where
  table : Table s root e (leaves e + F)
  space : Space e sz tf
  dense : ∀ a < pages sz, has (e a) PTE_V ∧ has (e a) PTE_U

lemma Image.page (h : Image s root e sz tf F) (hva : va < sz) : va < MAXVA ∧
    (has (e (va / PGSIZE)) PTE_V ∧ has (e (va / PGSIZE)) PTE_U) ∧
      PTE2PA (e (va / PGSIZE)) ∈ leaves e := by
  have hpage : va / PGSIZE < pages sz := by
    unfold pages PGSIZE at *
    omega
  have hd := h.dense _ hpage
  exact ⟨hva.trans_le (h.space.size.trans (by decide)), hd,
    mem_leaves (hpage.trans_le (pages_le h.space.size)) hd.1⟩

lemma loadseg_wp (h : Image s root e sz tf F) {file : List UInt8} {off n : ℕ}
    (hal : va % PGSIZE = 0) (hn : va + n ≤ sz) :
    wp (loadseg root va file off n) s fun _ u => Same F s u ∧ Image u root e sz tf F := by
  refine wp.bind (wp_search (I := fun _ u => Same F s u ∧ Image u root e sz tf F)
    (Q := fun _ u => Same F s u ∧ Image u root e sz tf F) ⟨Same.refl F s, h⟩ ?_
    fun _ ht => ht) fun _ u hu => wp_pure.mpr hu
  rintro k u - hk ⟨hs, hu⟩
  obtain ⟨hva, hd, hmem⟩ := h.page (show va + k * PGSIZE < sz by unfold PGSIZE at *; omega)
  refine wp.bind (walkaddr_wp hu.table.entries) ?_
  rintro r u' ⟨rfl, hr⟩
  rw [if_pos ⟨hva, hd.1, hd.2⟩] at hr
  subst hr
  simp only [writeBytes, wp_bind, wp_modify, wp_pure]
  have hnext : ∀ b, Same F s (u'.store (PTE2PA (e ((va + k * PGSIZE) / PGSIZE))) b) ∧
      Image (u'.store (PTE2PA (e ((va + k * PGSIZE) / PGSIZE))) b) root e sz tf F := fun b =>
    ⟨hs.trans (store_same (leaves_not_frame hu.table hmem) b),
      hu.table.store (Multiset.mem_add.mpr (.inl hmem)) b, hu.space, hu.dense⟩
  split_ifs
  · exact hnext _
  · exact hnext _

omit [Layout] in
lemma ofBytesLE_lt (l : List UInt8) : ofBytesLE l < 256 ^ l.length := by
  induction l with
  | nil => simp [ofBytesLE]
  | cons b bs ih =>
    have := b.toNat_lt
    rw [ofBytesLE, List.length_cons, pow_succ]
    omega

omit [Layout] in
lemma field_lt (bytes : List UInt8) (off k : ℕ) : field bytes off k < 256 ^ k :=
  (ofBytesLE_lt _).trans_le (Nat.pow_le_pow_right (by decide) (List.length_take_le _ _))

omit [Layout] in
lemma flags2perm_lt (flags : ℕ) : flags2perm flags < 2 ^ 10 := by
  unfold flags2perm
  split_ifs <;> decide

lemma Image.extend {newsz f : ℕ} (h : Image s root e sz tf F) (hle : sz ≤ newsz)
    (hp : pages newsz ≤ UPAGES) (hu : Table u root e' (leaves e' + F))
    (hext : Extends e e' (pages sz) (pages newsz) (PTE_R ||| PTE_U ||| f ||| PTE_V)) :
    Image u root e' newsz tf F := by
  have htop := pages_top
  have hmono := pages_mono hle
  refine ⟨hu, ⟨?_, ?_, ?_, fun a ha hv => ?_⟩, fun a ha => ?_⟩
  · rw [← UPAGES_mul]
    unfold pages at hp
    have := Nat.mul_le_mul_right PGSIZE hp
    unfold PGSIZE at *
    omega
  · rw [hext.old _ (.inr (by omega)), h.space.trampoline]
  · rw [hext.old _ (.inr (by omega)), h.space.trapframe]
  · by_cases hlo : a < pages newsz
    · exact .inl hlo
    · rw [hext.old a (.inr (by omega))] at hv
      have := h.space.low a ha hv
      omega
  · by_cases hlo : a < pages sz
    · rw [hext.old a (.inl hlo)]
      exact h.dense a hlo
    · have hf := hext.new a (by omega) ha
      rw [has_flags _ (show PTE_V < 2 ^ 10 by decide),
        has_flags _ (show PTE_U < 2 ^ 10 by decide), hf]
      simp only [has_or]
      refine ⟨?_, ?_⟩ <;> simp [has, PTE_V, PTE_U, PTE_R]

lemma Image.uvmalloc {newsz xperm : ℕ} (h : Image s root e sz tf F) (hx : xperm < 2 ^ 10) :
    wp (uvmalloc root sz newsz xperm) s fun r u => Same F s u ∧
      (r = 0 ∧ Image u root e sz tf F ∨ newsz ≤ r ∧ sz ≤ r ∧ ∃ e', Image u root e' r tf F ∧
        (sz ≤ newsz → r = newsz ∧
          Extends e e' (pages sz) (pages newsz) (PTE_R ||| PTE_U ||| xperm ||| PTE_V))) := by
  by_cases hle : sz ≤ newsz
  · refine (uvmalloc_spec h.table h.space.size hle (fun a h1 h2 => h.space.high h.table h1 h2) hx
      (.inr fun a ha => (h.dense a ha).1)).mono ?_
    rintro r u ⟨hs, hr⟩
    refine ⟨hs.right, ?_⟩
    rcases hr with ⟨rfl, hu⟩ | ⟨rfl, hp, e', hu, hext, -⟩
    · exact .inl ⟨rfl, hu, h.space, h.dense⟩
    · exact .inr ⟨le_rfl, hle, e', h.extend hle hp hu hext, fun _ => ⟨rfl, hext⟩⟩
  · rw [VmModel.uvmalloc, if_pos (by omega)]
    refine wp_pure.mpr ⟨Same.refl F s, .inr ⟨by omega, le_rfl, e, h, fun hc => absurd hc hle⟩⟩

omit [Layout] in
lemma no_wrap {v m : ℕ} (hv : v < 256 ^ 8) (hm : m < 256 ^ 8) (h : v ≤ (v + m) % 2 ^ 64) :
    (v + m) % 2 ^ 64 = v + m := by
  omega

lemma loadProgram_wp {file : List UInt8} (k off : ℕ) (h : Image s root e sz tf F) :
    wp (loadProgram root file k off sz) s fun r u => Same F s u ∧
      ∃ e', Image u root e' r.2 tf F := by
  induction k generalizing s e off sz with
  | zero => exact wp_pure.mpr ⟨Same.refl F s, e, h⟩
  | succ k ih =>
    simp only [loadProgram]
    generalize hph : readi file off proghdrSize = ph
    have hv := field_lt ph 16 8
    have hm := field_lt ph 40 8
    split_ifs with h1 h2 h3 h4 h5
    · exact wp_pure.mpr ⟨Same.refl F s, e, h⟩
    · exact ih _ h
    · exact wp_pure.mpr ⟨Same.refl F s, e, h⟩
    · exact wp_pure.mpr ⟨Same.refl F s, e, h⟩
    · exact wp_pure.mpr ⟨Same.refl F s, e, h⟩
    · refine wp.bind (h.uvmalloc (flags2perm_lt _)) ?_
      rintro r u ⟨hs, hr⟩
      rcases hr with ⟨rfl, hu⟩ | ⟨hle, hsz, e', hu, -⟩
      · rw [if_pos rfl]
        exact wp_pure.mpr ⟨hs, e, hu⟩
      · split_ifs with h6
        · obtain rfl : sz = r := by omega
          exact wp_pure.mpr ⟨hs, e', hu⟩
        · have hseg : field ph 16 8 + field ph 32 8 % 2 ^ 32 ≤ r := by
            have hmod : (field ph 16 8 + field ph 40 8) % 2 ^ 64 = field ph 16 8 + field ph 40 8 :=
              no_wrap hv hm (by omega)
            have := Nat.mod_le (field ph 32 8) (2 ^ 32)
            omega
          refine wp.bind (loadseg_wp hu (by simpa using h5) hseg) ?_
          rintro ok v ⟨hs', hv'⟩
          cases ok with
          | false => exact wp_pure.mpr ⟨hs.trans hs', e', hv'⟩
          | true =>
            refine (ih _ hv').mono ?_
            rintro r x ⟨hx, hr⟩
            exact ⟨(hs.trans hs').trans hx, hr⟩

/-! ### The stack -/

omit [Layout] in
lemma pushed_le (sp k : ℕ) (hk : k ≤ sp) (hsp : sp < 2 ^ 64) : pushed sp k + k ≤ sp := by
  unfold pushed
  omega

omit [Layout] in
lemma Writable.sub {stackbase n : ℕ} (h : Writable e stackbase (sz - stackbase))
    (h1 : stackbase ≤ va) (h2 : va + n ≤ sz) : Writable e va n := fun a ha1 ha2 =>
  h a ((Nat.div_le_div_right h1).trans ha1) (by omega)

lemma pushArgs_wp {stackbase : ℕ} (hst : Writable e stackbase (sz - stackbase))
    (hsz : sz < 2 ^ 64) (hbase : PGSIZE ≤ stackbase) (argv : List (List UInt8))
    (hargs : ∀ arg ∈ argv, arg.length < PGSIZE) (sp : ℕ) (ustack : List ℕ)
    (h : Table s root e (leaves e + F)) (hsp : stackbase ≤ sp) (hspsz : sp ≤ sz)
    (hus : ustack.length ≤ MAXARG) :
    wp (pushArgs me root stackbase argv sp ustack) s fun r u => Same F s u ∧
      Table u root e (leaves e + F) ∧ ∀ sp' us, r = some (sp', us) →
        stackbase ≤ sp' ∧ sp' ≤ sz ∧ us.length ≤ MAXARG := by
  induction argv generalizing s sp ustack with
  | nil =>
    refine wp_pure.mpr ⟨Same.refl F s, h, fun sp' us hr => ?_⟩
    obtain ⟨rfl, rfl⟩ : sp = sp' ∧ ustack = us := by simpa using hr
    exact ⟨hsp, hspsz, hus⟩
  | cons arg args ih =>
    have harg := hargs arg List.mem_cons_self
    simp only [pushArgs]
    split_ifs with h1 h2
    · exact wp_pure.mpr ⟨Same.refl F s, h, by simp⟩
    · exact wp_pure.mpr ⟨Same.refl F s, h, by simp⟩
    · have hle := pushed_le sp (arg.length + 1) (by omega) (by omega)
      refine wp.bind (copyout_mapped h (hst.sub (by omega) ?_)) ?_
      · rw [List.length_append, List.length_singleton]
        omega
      rintro ok u ⟨hs, hu, -⟩
      cases ok with
      | false => exact wp_pure.mpr ⟨hs, hu, by simp⟩
      | true =>
        refine (ih (fun a ha => hargs a (List.mem_cons_of_mem _ ha)) _ _ hu (by omega)
          (by omega) ?_).mono fun r x hx => ⟨hs.trans hx.1, hx.2⟩
        rw [List.length_append, List.length_singleton]
        omega

omit [Layout] in
lemma length_bytesLE (k v : ℕ) : (bytesLE k v).length = k := by
  induction k generalizing v with
  | zero => rfl
  | succ k ih => rw [bytesLE, List.length_cons, ih]

omit [Layout] in
lemma length_ustack (l : List ℕ) : (l.flatMap (bytesLE 8)).length = l.length * 8 := by
  induction l with
  | nil => rfl
  | cons x xs ih =>
    rw [List.flatMap_cons, List.length_append, ih, length_bytesLE, List.length_cons]
    omega

lemma pushAll_wp {argv : List (List UInt8)} (h : Table s root e (leaves e + F))
    (hst : Writable e (sz - USERSTACK * PGSIZE) (sz - (sz - USERSTACK * PGSIZE)))
    (hsz : sz < 2 ^ 64) (hbase : PGSIZE ≤ sz - USERSTACK * PGSIZE)
    (hargs : ∀ arg ∈ argv, arg.length < PGSIZE) :
    wp (pushAll me root sz argv) s fun _ u => Same F s u ∧ Table u root e (leaves e + F) := by
  simp only [pushAll]
  refine wp.bind (pushArgs_wp hst hsz hbase argv hargs sz [] h (by omega) le_rfl (Nat.zero_le _))
    ?_
  rintro r u ⟨hs, hu, hr⟩
  cases r with
  | none => exact wp_pure.mpr ⟨hs, hu⟩
  | some x =>
    obtain ⟨sp, ustack⟩ := x
    obtain ⟨h1, h2, h3⟩ := hr sp ustack rfl
    dsimp only
    have hmax : (ustack.length + 1) * 8 ≤ PGSIZE := by
      unfold MAXARG at h3
      unfold PGSIZE
      omega
    have hle := pushed_le sp ((ustack.length + 1) * 8) (by omega) (by omega)
    split_ifs with h4
    · exact wp_pure.mpr ⟨hs, hu⟩
    · refine wp.bind (copyout_mapped hu (hst.sub (by omega) ?_)) ?_
      · rw [length_ustack, List.length_append, List.length_singleton]
        omega
      rintro ok v ⟨hs', hv, -⟩
      cases ok with
      | false | true => exact wp_pure.mpr ⟨hs.trans hs', hv⟩

/-! ### The whole image -/

lemma Image.roundup (h : Image s root e sz tf F) :
    Image s root e (pages sz * PGSIZE) tf F := by
  have hp := pages_mul (pages sz)
  refine ⟨h.table, ⟨?_, h.space.trampoline, h.space.trapframe, ?_⟩, ?_⟩
  · rw [← UPAGES_mul]
    exact Nat.mul_le_mul_right _ (pages_le h.space.size)
  · rw [hp]
    exact h.space.low
  · rw [hp]
    exact h.dense

lemma Image.space_update {n : ℕ} (h : Image s root e sz tf F) (hn : n < pages sz) (w : ℕ) :
    Space (update e n w) sz tf := by
  have htop := pages_top
  have hup := pages_le h.space.size
  refine ⟨h.space.size, ?_, ?_, fun a ha hv => ?_⟩
  · rw [update_of_ne (by omega), h.space.trampoline]
  · rw [update_of_ne (by omega), h.space.trapframe]
  · by_cases he : a = n
    · exact .inl (by omega)
    · rw [update_of_ne he] at hv
      exact h.space.low a ha hv

/-- The stack with its guard page: the guard is made inaccessible, and the pages above it are
writable. -/
lemma Image.clear_guard {n k : ℕ} (h : Image s root e' (n * PGSIZE + (k + 1) * PGSIZE) tf F)
    (hext : Extends e e' (pages (n * PGSIZE)) (pages (n * PGSIZE + (k + 1) * PGSIZE))
      (PTE_R ||| PTE_U ||| PTE_W ||| PTE_V)) :
    (∀ w, Writable (update e' n w) (n * PGSIZE + (k + 1) * PGSIZE - k * PGSIZE)
      (n * PGSIZE + (k + 1) * PGSIZE - (n * PGSIZE + (k + 1) * PGSIZE - k * PGSIZE))) ∧
    wp (uvmclear root (n * PGSIZE)) s fun _ u => Same F s u ∧ ∃ w,
      Table u root (update e' n w) (leaves (update e' n w) + F) ∧
      Space (update e' n w) (n * PGSIZE + (k + 1) * PGSIZE) tf := by
  have hup := pages_le h.space.size
  have hpages : pages (n * PGSIZE + (k + 1) * PGSIZE) = n + k + 1 := by
    rw [← Nat.add_mul, pages_mul]
    omega
  rw [hpages, pages_mul] at hext
  rw [hpages] at hup
  have hbase : n * PGSIZE + (k + 1) * PGSIZE - k * PGSIZE = (n + 1) * PGSIZE := by
    unfold PGSIZE
    omega
  constructor
  · intro w a h1 h2
    rw [hbase, Nat.mul_div_cancel _ (by decide)] at h1
    have h3 : a < n + k + 1 := by
      rw [hbase] at h2
      unfold PGSIZE at h2
      omega
    have hf := hext.new a (by omega) h3
    rw [update_of_ne (by omega), has_flags _ (show PTE_V < 2 ^ 10 by decide),
      has_flags _ (show PTE_U < 2 ^ 10 by decide), has_flags _ (show PTE_W < 2 ^ 10 by decide), hf]
    exact ⟨by omega, by decide, by decide, by decide⟩
  · have hd := h.dense n (by rw [hpages]; omega)
    refine (uvmclear_spec h.table (by omega) hd.1).mono ?_
    rintro _ u ⟨hs, hu⟩
    exact ⟨hs.right, _, hu, h.space_update (by rw [hpages]; omega) _⟩

lemma buildImage_wp {file : List UInt8} {argv : List (List UInt8)} (h : Owns s F)
    (htf : tf < 2 ^ 52) (hargs : ∀ arg ∈ argv, arg.length < PGSIZE) :
    wp (buildImage me tf file argv) s fun r u => Same F s u ∧ (r = none → Owns u F) ∧
      ∀ root sz sp, r = some (root, sz, sp) → ∃ e, Table u root e (leaves e + F) ∧
        Space e sz tf := by
  have undo : ∀ {v root e sz}, Same F s v → Table v root e (leaves e + F) → Space e sz tf →
      wp (do procFreepagetable root sz; pure none : Vm (Option (ℕ × ℕ × ℕ))) v fun r u =>
        Same F s u ∧ (r = none → Owns u F) ∧
        ∀ root sz sp, r = some (root, sz, sp) → ∃ e, Table u root e (leaves e + F) ∧
          Space e sz tf := fun hs ht hsp =>
    wp.bind (procFreepagetable_wp ht hsp) fun _ x hx =>
      wp_pure.mpr ⟨hs.trans hx.1, fun _ => hx.2, by simp⟩
  simp only [buildImage]
  split_ifs with h1 h2
  · exact wp_pure.mpr ⟨Same.refl F s, fun _ => h, by simp⟩
  · exact wp_pure.mpr ⟨Same.refl F s, fun _ => h, by simp⟩
  refine wp.bind (procPagetable_wp h htf) ?_
  rintro r u ⟨hs, h0, hsome⟩
  cases r with
  | none => exact wp_pure.mpr ⟨hs, fun _ => h0 rfl, by simp⟩
  | some root =>
    obtain ⟨e, hu, hsp⟩ := hsome root rfl
    have himg : Image u root e 0 tf F :=
      ⟨hu, hsp, fun a ha => absurd ha (by unfold pages PGSIZE; omega)⟩
    refine wp.bind (loadProgram_wp _ _ himg) ?_
    rintro ⟨ok, sz⟩ v ⟨hs', e', hv⟩
    dsimp only at hv ⊢
    cases ok with
    | false => exact undo (hs.trans hs') hv.table hv.space
    | true =>
      simp only [Bool.not_true, Bool.false_eq_true, if_false]
      have hv2 := hv.roundup
      rw [PGROUNDUP_eq hv.space.size]
      refine wp.bind (hv2.uvmalloc (show PTE_W < 2 ^ 10 by decide)) ?_
      rintro r x ⟨hsx, hr⟩
      have hle : pages sz * PGSIZE ≤ pages sz * PGSIZE + (USERSTACK + 1) * PGSIZE := by omega
      rcases hr with ⟨rfl, hx⟩ | ⟨-, -, e2, hx, hgrow⟩
      · rw [if_pos rfl]
        exact undo ((hs.trans hs').trans hsx) hx.table hx.space
      · obtain ⟨rfl, hext⟩ := hgrow hle
        rw [if_neg (by unfold PGSIZE; omega), Nat.add_sub_cancel]
        obtain ⟨hst, hclear⟩ := hx.clear_guard hext
        refine wp.bind hclear ?_
        rintro _ y ⟨hsy, w, hy, hspy⟩
        have hsum := ((hs.trans hs').trans hsx).trans hsy
        have hsize := hspy.size
        have hbound : TRAPFRAME < 2 ^ 64 := by decide
        refine wp.bind (pushAll_wp hy (hst w) (by omega) ?_ hargs) ?_
        · unfold PGSIZE
          omega
        rintro r z ⟨hsz', hz⟩
        cases r with
        | none => exact undo (hsum.trans hsz') hz hspy
        | some sp =>
          refine wp_pure.mpr ⟨hsum.trans hsz', by simp, fun root' sz' sp' hr => ?_⟩
          obtain ⟨rfl, rfl, -⟩ : root = root' ∧ _ = sz' ∧ sp = sp' := by simpa using hr
          exact ⟨_, hz, hspy⟩

/-! ### The arguments -/

/-- The table with the pages of the arguments so far in hand, and those pages. -/
structure Fetched (s : Mach) (root : ℕ) (e : ℕ → ℕ) (sz : ℕ) (F : Multiset ℕ)
    (argv : List (ℕ × List UInt8)) : Prop where
  user : UserTable s root e sz (↑(argv.map Prod.fst) + F)
  short : ∀ arg ∈ argv.map Prod.snd, arg.length < PGSIZE

lemma Fetched.fill {argv : List (ℕ × List UInt8)} (h : Fetched s root e sz F argv)
    (hu : UserTable u root e' sz (↑(argv.map Prod.fst) + F)) : Fetched u root e' sz F argv :=
  ⟨hu, h.short⟩

lemma Fetched.append {argv : List (ℕ × List UInt8)} {str : List UInt8}
    (h : Fetched s root e sz F argv)
    (ht : Table u root e ({p} + (leaves e + (↑(argv.map Prod.fst) + F))))
    (hstr : str.length < PGSIZE) : Fetched u root e sz F (argv ++ [(p, str)]) := by
  refine ⟨⟨?_, h.user.size, h.user.user⟩, fun arg harg => ?_⟩
  · rw [List.map_append, ← Multiset.coe_add, List.map_singleton, Multiset.coe_singleton]
    refine cast (congrArg (Table u root e) ?_) ht
    abel
  · rw [List.map_append, List.mem_append] at harg
    rcases harg with harg | harg
    · exact h.short arg harg
    · obtain rfl : arg = str := by simpa using harg
      exact hstr

/-- What the loop that fetches the arguments does, from the arguments `argv` on. -/
structure Fetches (root sz : ℕ) (F : Multiset ℕ) (s : Mach) (e : ℕ → ℕ) (most : ℕ)
    (r : Bool × List (ℕ × List UInt8)) (u : Mach) (e' : ℕ → ℕ) : Prop where
  same : Same F s u
  fetched : Fetched u root e' sz F r.2
  filled : Filled sz e e'
  bytes : SameBytes s e u e'
  count : r.1 = true → r.2.length < most
  dense : Dense e sz → Same (tables sv39 2 (words s.mem) root) s u

omit [Layout] in
lemma Filled.dense (h : Filled sz e e') (hd : Dense e sz) : e' = e := by
  funext a
  by_cases ha : a < pages sz
  · exact h.keep a (hd a ha)
  · exact h.high a (by omega)

lemma fetches_refl {most : ℕ} {r : Bool × List (ℕ × List UInt8)} (h : Fetched s root e sz F r.2)
    (hc : r.1 = true → r.2.length < most) : Fetches root sz F s e most r s e :=
  ⟨Same.refl F s, h, Filled.refl sz e, SameBytes.refl s e, hc, fun _ => Same.refl _ s⟩

lemma Fetches.trans {most most' : ℕ} {r : Bool × List (ℕ × List UInt8)} {e'' : ℕ → ℕ}
    (hs : Same F s t) (hf : Filled sz e e') (hb : SameBytes s e t e')
    (hd : Dense e sz → Same (tables sv39 2 (words s.mem) root) s t)
    (h : Fetches root sz F t e' most r u e'') (hm : most ≤ most') :
    Fetches root sz F s e most' r u e'' := by
  refine ⟨hs.trans h.same, h.fetched, hf.trans h.filled, hb.trans h.bytes,
    fun hr => (h.count hr).trans_le hm, fun hdense => ?_⟩
  have h1 := hd hdense
  have h2 := h.dense (by rw [Filled.dense hf hdense]; exact hdense)
  rw [tables_congr sv39 fun p hp => words_congr (h1 p hp)] at h2
  exact h1.trans h2

lemma copyin_tables (h : UserTable s root e sz R) (srcva len : ℕ) :
    wp (copyin ⟨sz, root⟩ root srcva len) s fun _ u =>
      Dense e sz → Same (tables sv39 2 (words s.mem) root) s u := by
  by_cases hd : Dense e sz
  · refine (copyin_dense h hd srcva len).mono ?_
    rintro _ u rfl _
    exact Same.refl _ u
  · exact (copyin_wp h srcva len).mono fun _ _ _ hd' => absurd hd' hd

lemma fetchArgs_spec (uargv k i : ℕ) (argv : List (ℕ × List UInt8))
    (h : Fetched s root e sz F argv) :
    wp (fetchArgs ⟨sz, root⟩ uargv k i argv) s fun r u => ∃ e',
      Fetches root sz F s e (argv.length + k) r u e' := by
  have hF : ∀ l : List (ℕ × List UInt8), F ≤ ↑(l.map Prod.fst) + F := fun l =>
    Multiset.le_add_left _ _
  induction k generalizing s e i argv with
  | zero => exact wp_pure.mpr ⟨e, fetches_refl h (by simp)⟩
  | succ k ih =>
    rw [fetchArgs, fetchaddr]
    split_ifs
    · simp only [wp_bind, wp_pure]
      exact ⟨e, fetches_refl h (by simp)⟩
    · rw [wp_bind, wp_bind]
      refine ((copyin_spec h.user _ 8).and (copyin_tables h.user _ 8)).mono ?_
      rintro r t ⟨⟨e1, ht, hf1, hst, hb1, -⟩, hd1⟩
      have hst := hst.mono (hF argv)
      have h1 := h.fill ht
      rw [wp_pure]
      cases r with
      | none =>
        exact wp_pure.mpr ⟨e1, Fetches.trans hst hf1 hb1 hd1 (fetches_refl h1 (by simp)) le_rfl⟩
      | some bytes =>
        simp only [Option.map_some]
        split_ifs
        · refine wp_pure.mpr ⟨e1, Fetches.trans hst hf1 hb1 hd1
            (fetches_refl h1 fun _ => ?_) le_rfl⟩
          dsimp only
          omega
        · refine wp.bind (ht.table.kalloc.and (kalloc_wp ht.table.owns)) ?_
          rintro r u ⟨⟨hsu, hu0, hu1⟩, hall, -⟩
          replace hall := hall.mono (Multiset.le_add_right (tables sv39 2 (words t.mem) root) _)
          have hsu' : Same F t u := hsu.right.mono (hF argv)
          have hbu : SameBytes t e1 u e1 :=
            sameBytes_of_same hsu.left
          cases r with
          | none =>
            refine wp_pure.mpr ⟨e1, Fetches.trans hst hf1 hb1 hd1 (Fetches.trans hsu'
              (Filled.refl sz e1) hbu (fun _ => hall)
              (fetches_refl (h1.fill ⟨hu0 rfl, ht.size, ht.user⟩) (by simp)) le_rfl) le_rfl⟩
          | some page =>
            have hu := hu1 page rfl
            refine wp.bind (copyinstr_wp hu.entries ht.user _ PGSIZE) ?_
            rintro r x ⟨rfl, hlen⟩
            cases r with
            | none =>
              exact wp_pure.mpr ⟨e1, Fetches.trans hst hf1 hb1 hd1 (Fetches.trans hsu'
                (Filled.refl sz e1) hbu (fun _ => hall)
                (fetches_refl (h1.append hu (by decide)) (by simp)) le_rfl) le_rfl⟩
            | some str =>
              simp only [writeBytes, wp_bind, wp_modify]
              obtain ⟨hy, hsy⟩ := hu.store_own (fun j : Fin PGSIZE =>
                if 0 ≤ j.val ∧ j.val < 0 + (str ++ [0]).length then
                  (str ++ [0]).getD (j.val - 0) 0 else x.mem page j)
              refine (ih _ _ (h1.append hy (hlen str rfl))).mono ?_
              rintro r v ⟨e2, hv⟩
              refine ⟨e2, Fetches.trans hst hf1 hb1 hd1 (Fetches.trans
                (hsu'.trans (hsy.right.mono (hF argv)))
                (Filled.refl sz e1) (hbu.trans (sameBytes_of_same
                  hsy.left)) (fun _ => hall.trans ?_) hv le_rfl) ?_⟩
              · rw [← tables_congr sv39 fun p hp => words_congr (hall p hp)]
                exact store_same (hu.disjoint (mem_own page _)) _
              · simp only [List.length_append, List.length_singleton]
                omega

lemma each_kfree_wp (l : List ℕ) (h : Owns s (↑l + F)) :
    wp (each kfree l) s fun _ u => Same F s u ∧ Owns u F := by
  refine (wp_each (I := fun xs u => Same F s u ∧ Owns u (↑xs + F)) ⟨Same.refl F s, h⟩ ?_).mono ?_
  · rintro x xs t ⟨hst, ht⟩
    rw [← Multiset.cons_coe, ← Multiset.singleton_add, add_assoc] at ht
    refine (kfree_wp ht).mono ?_
    rintro _ u ⟨hs, hu⟩
    refine ⟨hst.trans ?_, hu⟩
    exact hs.right
  · rintro _ u ⟨hs, hu⟩
    rw [Multiset.coe_nil, zero_add] at hu
    exact ⟨hs, hu⟩

end Xv6.MemExec
