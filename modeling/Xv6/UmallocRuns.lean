import Xv6.UmallocAlloc

/-!
The user heap over whole histories of `malloc` and `free`.

A history is allowed when the requests are below 2^31 bytes, only live blocks are freed, the
program writes to its own blocks only, and `sbrk` fails or gives a region above all others each
time it is asked. The sizes in the headers are `uint`s, so that blocks which are joined keep their
size only while less than 2^32 units have been obtained.
-/

namespace Xv6.Umalloc

open Function FreeList Runs

variable {σ : Type} {os : Os σ} {h : Heap σ} {L live : List Block} {n : ℕ}

structure Fresh (h : Heap σ) : Prop where
  freep : h.freep = 0
  base : 0 < h.base
  live : h.live = []
  regions : h.regions = []

def noMore : Os σ := ⟨fun s _ => (none, s)⟩

/-- The request makes `malloc` call `sbrk`: with no memory left it would fail. -/
def Asks (h : Heap σ) (nbytes : ℕ) : Prop := (malloc noMore h nbytes).map Heap.ret = some 0

def coreBytes (nbytes : ℕ) : ℕ := coreUnits (unitsFor nbytes) * HEADER

def Allowed (os : Os σ) (h : Heap σ) : Act → Prop
  | .malloc nbytes =>
    HEADER * ((nbytes + HEADER - 1) / HEADER + 1) < 2 ^ 31 ∧
      (Asks h nbytes → ∀ a ∈ (os.sbrk h.os (int (coreBytes nbytes))).1, top h ≤ a)
  | .free ap => ∃ y ∈ h.live, y.1 + HEADER = ap
  | .store a _ => ∃ y ∈ h.live, y.1 + HEADER ≤ a ∧ a < stop HEADER y

def Bounded (os : Os σ) (h : Heap σ) : Act → Prop
  | .malloc nbytes => Asks h nbytes → ∀ _a ∈ (os.sbrk h.os (int (coreBytes nbytes))).1,
      total h.regions + coreBytes nbytes < HEADER * 2 ^ 32
  | _ => True

instance (h : Heap σ) (nbytes : ℕ) : Decidable (Asks h nbytes) :=
  inferInstanceAs (Decidable (_ = _))

instance (os : Os σ) (h : Heap σ) : ∀ a, Decidable (Allowed os h a)
  | .malloc _ => inferInstanceAs (Decidable (_ ∧ _))
  | .free _ => inferInstanceAs (Decidable (∃ _ ∈ _, _))
  | .store _ _ => inferInstanceAs (Decidable (∃ _ ∈ _, _))

instance (os : Os σ) (h : Heap σ) : ∀ a, Decidable (Bounded os h a)
  | .malloc _ => inferInstanceAs (Decidable (_ → _))
  | .free _ => inferInstanceAs (Decidable True)
  | .store _ _ => inferInstanceAs (Decidable True)

/-- The list is not there yet, or the invariant holds of it. -/
def Good (h : Heap σ) : Prop :=
  (Fresh h ∨ ∃ L, Inv h L h.live) ∧ total h.regions < HEADER * 2 ^ 32

/-- A block for a request: it has room for the bytes, all of it comes from the system, and it is
not part of a live block. -/
def Served (h t : Heap σ) (nbytes : ℕ) : Prop :=
  (t.ret = 0 ∧ t.live = h.live) ∨
  ∃ z, t.live = z :: h.live ∧ t.ret = z.1 + HEADER ∧ t.ret + nbytes ≤ stop HEADER z ∧
    Inside t.regions z ∧ ∀ y ∈ h.live, Disj HEADER z y

/-- What a request has done to the system: nothing, an `sbrk` that failed, or one that gave a
region of the bytes asked for. -/
inductive Asked (os : Os σ) (h t : Heap σ) (nbytes : ℕ) : Prop
  | no (hos : t.os = h.os) (hregions : t.regions = h.regions)
  | refused (hos : os.sbrk h.os (int (coreBytes nbytes)) = (none, t.os))
      (hregions : t.regions = h.regions)
  | given (a : ℕ) (hos : os.sbrk h.os (int (coreBytes nbytes)) = (some a, t.os))
      (hregions : t.regions = (a, coreBytes nbytes) :: h.regions)

/-! ### malloc -/

lemma Inv.freep_pos (hi : Inv h L live) : h.freep ≠ 0 := by
  obtain ⟨x, hx, hxp⟩ := hi.freep
  have := hi.base_le hx
  have := hi.base_pos
  omega

lemma Fresh.init (hf : Fresh h) : Inv (init h) [] h.live := by
  rw [Umalloc.init, if_pos hf.freep, hf.live]
  refine ⟨⟨rfl, ?_, ?_⟩, ⟨(h.base, 0), List.mem_cons_self, rfl⟩, hf.base,
    List.pairwise_singleton _ _, by simp, by simp, by simp, .nil, by simp, ?_, ?_⟩
  · dsimp only
    rw [update_self]
  · change (update h.mem h.base ⟨h.base, 0⟩ h.base).ptr = h.base
    rw [update_self]
  · rw [hf.regions]
    simp
  · rw [hf.regions]
    rfl

lemma Good.init (hg : Good h) : ∃ L mem p, init h = { h with mem := mem, freep := p } ∧
    Inv { h with mem := mem, freep := p } L h.live := by
  rcases hg.1 with hf | ⟨L, hi⟩
  · have := hf.init
    rw [Umalloc.init, if_pos hf.freep] at this ⊢
    exact ⟨[], _, _, rfl, this⟩
  · exact ⟨L, h.mem, h.freep, by rw [Umalloc.init, if_neg hi.freep_pos], hi⟩

lemma unitsFor_eq {nbytes : ℕ} (h : HEADER * ((nbytes + HEADER - 1) / HEADER + 1) < 2 ^ 31) :
    unitsFor nbytes = (nbytes + HEADER - 1) / HEADER + 1 := by
  unfold unitsFor uint HEADER at *
  omega

lemma core_lt (h : HEADER * n < 2 ^ 31) : HEADER * coreUnits n < 2 ^ 31 := by
  unfold coreUnits HEADER at *
  split_ifs <;> omega

lemma coreBytes_lt {nbytes : ℕ} (h : HEADER * ((nbytes + HEADER - 1) / HEADER + 1) < 2 ^ 31) :
    0 < coreBytes nbytes ∧ coreBytes nbytes < 2 ^ 31 := by
  have h1 := core_lt (unitsFor_eq h ▸ h)
  have h2 := le_coreUnits (unitsFor nbytes)
  have h3 := unitsFor_eq h
  rw [coreBytes, Nat.mul_comm]
  refine ⟨Nat.mul_pos header_pos ?_, h1⟩
  rw [h3] at h2 ⊢
  exact (Nat.succ_pos _).trans_le h2

lemma Inv.served {t : Heap σ} {z : Block} {nbytes : ℕ} (hi : Inv t L (z :: h.live))
    (hlive : t.live = z :: h.live) (hret : t.ret = z.1 + HEADER)
    (hz : z.2 = (nbytes + HEADER - 1) / HEADER + 1) : Served h t nbytes := by
  refine .inr ⟨z, hlive, hret, ?_, hi.inside z (by simp), (List.pairwise_cons.mp hi.live_live).1⟩
  rw [hret, stop, hz]
  unfold HEADER
  omega

/-- **What `malloc` does.** It returns, with 0 or a block for the request. -/
lemma Good.malloc (hg : Good h) {nbytes : ℕ} (ha : Allowed os h (.malloc nbytes))
    (hb : Bounded os h (.malloc nbytes)) :
    ∃ t, malloc os h nbytes = some t ∧ (∃ L, Inv t L t.live) ∧
      total t.regions < HEADER * 2 ^ 32 ∧ Served h t nbytes ∧ t.base = h.base ∧
      Asked os h t nbytes := by
  obtain ⟨L, mem, p, hinit, hi⟩ := hg.init
  obtain ⟨hsize, habove⟩ := ha
  have hunits := unitsFor_eq hsize
  have hn : 0 < unitsFor nbytes := hunits ▸ Nat.succ_pos _
  have hcore : HEADER * coreUnits (unitsFor nbytes) < 2 ^ 31 := core_lt (hunits ▸ hsize)
  have hrun : ∀ os : Os σ, Umalloc.malloc os h nbytes = mallocLoop os (unitsFor nbytes)
      (2 * h.rounds) p (mem p).ptr { h with mem := mem, freep := p } := fun os => by
    rw [Umalloc.malloc, hinit]
    rfl
  have hlen := hi.length_le
  rw [nodes, List.length_cons] at hlen
  change 2 * (L.length + 1) ≤ h.rounds - 2 at hlen
  rcases hi.search_room hn with ⟨z, mem', q, L', hz, hinv, hfound⟩ | ⟨hnone, hmore⟩
  · refine ⟨_, (hrun os).trans (hfound os _ (by omega)), ⟨L', hinv⟩, hg.2, ?_, rfl, .no rfl rfl⟩
    exact hinv.served rfl rfl (hz.trans hunits)
  · obtain ⟨fuel, hfuel⟩ : ∃ fuel, 2 * h.rounds = fuel + L.length + 1 :=
      ⟨2 * h.rounds - (L.length + 1), by omega⟩
    rw [hfuel] at hrun
    have hasks : Asks h nbytes := by
      rw [Asks, hrun, hmore noMore fuel none _ rfl]
      rfl
    have hcount : HEADER * (total L + total h.live) = total h.regions := hi.count
    have hbound : ∀ a os', os.sbrk h.os (int (coreBytes nbytes)) = (some a, os') →
        total h.regions + HEADER * coreUnits (unitsFor nbytes) < HEADER * 2 ^ 32 := by
      intro a os' hs
      have := hb hasks a (congrArg Prod.fst hs)
      rwa [coreBytes, Nat.mul_comm _ HEADER] at this
    have hsys : ∀ a os', os.sbrk h.os (int (coreUnits (unitsFor nbytes) * HEADER)) = (some a, os') →
        top h ≤ a ∧ total L + coreUnits (unitsFor nbytes) < 2 ^ 32 := by
      intro a os' hs
      refine ⟨habove hasks a (congrArg Prod.fst hs), ?_⟩
      have := hbound a os' hs
      unfold HEADER at *
      omega
    rcases hi.morecore hn hcore hsys with ⟨os', hs, hfail⟩ |
      ⟨a, os', p', mem', L', hs, hcore, hinv, ⟨y, hy, hny⟩, hlen'⟩
    · refine ⟨_, (hrun os).trans (hmore os fuel none _ hfail), ⟨L, ?_⟩, hg.2,
        .inl ⟨rfl, rfl⟩, rfl, .refused hs rfl⟩
      exact hi.congr rfl rfl rfl rfl
    · have hround := (hrun os).trans (hmore os fuel (some p') _ hcore)
      rcases hinv.search_room hn with ⟨z, mem₂, q, L₂, hz, hinv₂, hfound⟩ | ⟨hnone', -⟩
      · refine ⟨_, hround.trans (hfound os fuel (by omega)), ⟨L₂, hinv₂⟩, ?_, ?_, rfl,
          .given a hs ?_⟩
        · change total ((a, HEADER * coreUnits (unitsFor nbytes)) :: h.regions) < _
          rw [total_cons, Nat.add_comm]
          exact hbound a os' hs
        · exact hinv₂.served rfl rfl (hz.trans hunits)
        · rw [coreBytes, Nat.mul_comm]
          rfl
      · exact absurd (hnone' y hy) (not_lt.mpr hny)

/-! ### The other actions -/

structure Keeps (h t : Heap σ) : Prop where
  base : t.base = h.base
  os : t.os = h.os
  regions : t.regions = h.regions

lemma Good.inv (hg : Good h) {y : Block} (hy : y ∈ h.live) : ∃ L, Inv h L h.live := by
  rcases hg.1 with hf | hi
  · rw [hf.live] at hy
    cases hy
  · exact hi

lemma Good.free (hg : Good h) {ap : ℕ} (ha : Allowed os h (.free ap)) :
    ∃ t, step os h (.free ap) = some t ∧ Good t ∧ Keeps h t := by
  obtain ⟨y, hy, hyap⟩ := ha
  obtain ⟨L, hi⟩ := hg.inv hy
  obtain ⟨z, hz⟩ : ∃ z, (h.live.find? fun y => y.1 + HEADER = ap) = some z := by
    rw [← Option.isSome_iff_exists, List.find?_isSome]
    exact ⟨y, hy, by simpa using hyap⟩
  have hzap : z.1 + HEADER = ap := by simpa using List.find?_some hz
  have hzlive := List.mem_of_find?_eq_some hz
  have hi' := hi.perm (List.perm_cons_erase hzlive)
  have hbound : total L + z.2 < 2 ^ 32 := by
    have h1 := hi'.count
    have h2 := hg.2
    rw [total_cons] at h1
    unfold HEADER at *
    omega
  obtain ⟨p, mem, L', hfree, hinv, -⟩ := hi'.free hbound
  rw [hzap] at hfree
  refine ⟨{ h with mem := mem, freep := p, live := h.live.erase z }, ?_, ⟨.inr ⟨L', ?_⟩, hg.2⟩,
    rfl, rfl, rfl⟩
  · rw [step, hz]
    simp only [Option.bind_eq_bind, Option.bind_some, hfree]
    rfl
  · exact hinv.congr rfl rfl rfl rfl

lemma Good.store (hg : Good h) {a : ℕ} {c : Cell} (ha : Allowed os h (.store a c)) :
    ∃ t, step os h (.store a c) = some t ∧ Good t ∧ Keeps h t := by
  obtain ⟨y, hy, h1, h2⟩ := ha
  obtain ⟨L, hi⟩ := hg.inv hy
  have hh := header_pos
  have hcov : Covers HEADER y a := ⟨by omega, h2⟩
  have hcover : ∀ x ∈ L ++ h.live, Covers HEADER x x.1 := fun x hx =>
    ⟨le_rfl, lt_stop header_pos (hi.pos x hx)⟩
  refine ⟨{ h with mem := update h.mem a c }, by rw [step, if_pos ⟨y, hy, h1, h2⟩],
    ⟨.inr ⟨L, ?_⟩, hg.2⟩, rfl, rfl, rfl⟩
  refine { hi with
    ring := hi.ring.frame fun x hx => update_of_ne ?_ _ _, sizes := fun w hw => ?_ }
  · rcases List.mem_cons.mp hx with rfl | hx
    · have := hi.base_lt (List.mem_append_right L hy)
      dsimp only
      omega
    · rintro rfl
      exact (hi.free_live x hx y hy).not_covers (hcover x (List.mem_append_left _ hx)) hcov
  · have hwa : w.1 ≠ a := by
      rintro rfl
      by_cases hwy : w = y
      · subst hwy
        omega
      · exact (hi.live_live.forall hw hy hwy).not_covers
          (hcover w (List.mem_append_right _ hw)) hcov
    change (update h.mem a c w.1).size = w.2
    rw [update_of_ne hwa]
    exact hi.sizes w hw

/-! ### Histories -/

lemma Good.step (hg : Good h) {a : Act} (ha : Allowed os h a) (hb : Bounded os h a) :
    ∃ t, step os h a = some t ∧ Good t ∧ ∀ nbytes, a = .malloc nbytes → Served h t nbytes := by
  cases a with
  | malloc nbytes =>
    obtain ⟨t, ht, hinv, hbound, hserved, -⟩ := hg.malloc ha hb
    exact ⟨t, ht, ⟨.inr hinv, hbound⟩, by rintro _ ⟨rfl⟩; exact hserved⟩
  | free ap =>
    obtain ⟨t, ht, hgood, -⟩ := hg.free ha
    exact ⟨t, ht, hgood, nofun⟩
  | store a c =>
    obtain ⟨t, ht, hgood, -⟩ := hg.store ha
    exact ⟨t, ht, hgood, nofun⟩

/-- **The user heap.** In every history that obtains less than 2^32 units, before each step: the
free list is circular with the base, in the order of the addresses, its blocks do not touch each
other nor the live ones, and free and live units are all that was obtained. The next call returns,
and `malloc` with 0 or a block of the memory obtained that has room for the request and overlaps
no live block. -/
theorem heap_sound (os : Os σ) (h : Heap σ)
    (hr : Reach (step os) (fun h a => Allowed os h a ∧ Bounded os h a) Fresh h) :
    (Fresh h ∨ ∃ L, Inv h L h.live) ∧
      ∀ a, Allowed os h a → Bounded os h a →
        ∃ t, step os h a = some t ∧ ∀ nbytes, a = .malloc nbytes → Served h t nbytes := by
  have hgood : Good h := hr.invariant
    (fun h hf => ⟨.inl hf, by rw [hf.regions]; decide⟩)
    (fun s a t hs hok ht => by
      obtain ⟨t', ht', hgood, -⟩ := hs.step hok.1 hok.2
      obtain rfl : t' = t := Option.some.inj (ht'.symm.trans ht)
      exact hgood)
  refine ⟨hgood.1, fun a ha hb => ?_⟩
  obtain ⟨t, ht, -, hserved⟩ := hgood.step ha hb
  exact ⟨t, ht, hserved⟩

def bump : Os ℕ := ⟨fun brk n => (some brk, brk + n.toNat)⟩

/-- A process whose base is at 4096 and whose memory ends at 8192. -/
def start : Heap ℕ := ⟨4096, fun _ => ⟨0, 0⟩, 0, 8192, 0, [], []⟩

lemma fresh_start : Fresh start := ⟨rfl, by decide, rfl, rfl⟩

theorem heap_sound_two_blocks :
    ∃ t, run (guarded (step bump) fun h a => Allowed bump h a ∧ Bounded bump h a) start
        [.malloc 100, .malloc 24, .free 73616] = some t ∧
      ∃ L, Inv t L t.live := by
  have hrun : (run (guarded (step bump) fun h a => Allowed bump h a ∧ Bounded bump h a) start
      [.malloc 100, .malloc 24, .free 73616]).map Heap.freep = some 8192 := by
    decide +kernel
  obtain ⟨t, ht, hp⟩ := Option.map_eq_some_iff.mp hrun
  refine ⟨t, ht, ?_⟩
  rcases (heap_sound bump t ((Reach.init fresh_start).of_guarded ht)).1 with hf | hi
  · rw [hf.freep] at hp
    cases hp
  · exact hi

/-- A history that takes as many of the largest blocks as given and then frees them in order. -/
def fill (k : ℕ) : List Act :=
  List.replicate k (.malloc (2 ^ 31 - 32)) ++
    (List.range k).map fun i => .free (8192 + HEADER * (2 ^ 27 - 1) * i + HEADER)

/-- **Joined sizes wrap.** After 33 blocks of almost 2^31 bytes have been taken and freed, one block
is free whose header has lost 2^32 of the units obtained. -/
theorem joined_sizes_wrap :
    ∃ t, run (guarded (step bump) (Allowed bump)) start (fill 33) = some t ∧ t.live = [] ∧
      Seg t.mem t.base [(4096, 0), (8192, 134217695)] t.base ∧
      HEADER * 134217695 + HEADER * 2 ^ 32 = total t.regions := by
  have hrun : (run (guarded (step bump) (Allowed bump)) start (fill 33)).map
      (fun t => (t.live, t.base, t.mem 4096, t.mem 8192, total t.regions)) =
      some ([], 4096, ⟨8192, 0⟩, ⟨4096, 134217695⟩, HEADER * (33 * (2 ^ 27 - 1))) := by
    decide +kernel
  obtain ⟨t, ht, hp⟩ := Option.map_eq_some_iff.mp hrun
  obtain ⟨hlive, hp⟩ := Prod.mk.inj hp
  obtain ⟨hbase, hp⟩ := Prod.mk.inj hp
  obtain ⟨h1, hp⟩ := Prod.mk.inj hp
  obtain ⟨h2, h3⟩ := Prod.mk.inj hp
  refine ⟨t, ht, hlive, ?_, by rw [h3]; decide⟩
  rw [hbase]
  refine ⟨rfl, by rw [h1], ?_⟩
  rw [h1]
  exact ⟨rfl, by rw [h2], by rw [h2]; rfl⟩

end Xv6.Umalloc
