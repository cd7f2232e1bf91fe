import Xv6.WaitFamily

/-!
Who is who: pids and exit statuses. Processes are numbered in the order of their allocation,
and a process keeps its number while its slot is reused by others before and after it.
-/

namespace Xv6.WaitIds

open ProcModel hiding Act step
open Function WaitModel WaitShape WaitFamily

variable {n : ℕ} {s s' : St n} {p : Fin n}

/-- The pid of the process with number `k`: the counter is an `int` that starts at 1. -/
def pidOf (k : ℕ) : ℤ := Int.bmod (k + 1) (2 ^ 32)

lemma pidOf_eq {k : ℕ} (h : k + 1 < 2 ^ 31) : pidOf k = k + 1 := by
  refine Int.bmod_eq_of_le ?_ ?_ <;> omega

lemma pidOf_succ (k : ℕ) : Int.bmod (pidOf k + 1) (2 ^ 32) = pidOf (k + 1) := by
  unfold pidOf
  rw [Int.bmod_add_bmod]
  congr 1

lemma claim_nextpid (s : St n) (np : Fin n) :
    (s.claim np).tbl.nextpid = Int.bmod (s.tbl.nextpid + 1) (2 ^ 32) := by
  simp only [St.claim, Table.claim, Table.allocpid, Table.set]

structure Ids (s : St n) : Prop where
  nextpid : s.tbl.nextpid = pidOf s.born
  pid : ∀ i, kind s i ≠ .free → s.inc i < s.born ∧ (s.proc i).pid = pidOf (s.inc i)
  inj : ∀ i j, kind s i ≠ .free → kind s j ≠ .free → s.inc i = s.inc j → i = j
  father : ∀ i q, parent s i = some q → s.father i = s.inc q
  exited : ∀ i, kind s i = .zombie →
    (⟨s.inc i, (s.proc i).pid, (s.proc i).xstate⟩ : Exit) ∈ s.exited
  past : ∀ x ∈ s.exited, x.proc < s.born ∧
    ∀ i, kind s i ≠ .free → s.inc i = x.proc → kind s i = .zombie
  exitedOnce : (s.exited.map Exit.proc).Nodup
  reaped : ∀ r ∈ s.reaped, (⟨r.child, r.pid, r.status⟩ : Exit) ∈ s.exited ∧ r.caller = r.parent
  gone : ∀ r ∈ s.reaped, ∀ i, kind s i ≠ .free → s.inc i ≠ r.child
  reapedOnce : (s.reaped.map Reap.child).Nodup

/-! ### Steps that leave it alone -/

structure Same (s s' : St n) : Prop where
  free : ∀ i, kind s' i = .free ↔ kind s i = .free
  zombie : ∀ i, kind s' i = .zombie ↔ kind s i = .zombie
  parent : ∀ i, parent s' i = parent s i
  pid : ∀ i, (s'.proc i).pid = (s.proc i).pid
  xstate : ∀ i, (s'.proc i).xstate = (s.proc i).xstate
  nextpid : s'.tbl.nextpid = s.tbl.nextpid
  born : s'.born = s.born
  inc : s'.inc = s.inc
  father : s'.father = s.father
  exited : s'.exited = s.exited
  reaped : s'.reaped = s.reaped

lemma Same.refl (s : St n) : Same s s :=
  ⟨fun _ => Iff.rfl, fun _ => Iff.rfl, fun _ => rfl, fun _ => rfl, fun _ => rfl, rfl, rfl, rfl,
    rfl, rfl, rfl⟩

lemma Same.setProc {j : Fin n} {x : Proc n} (hf : kindOf x.state = .free ↔ kind s j = .free)
    (hz : kindOf x.state = .zombie ↔ kind s j = .zombie) (hp : x.parent = (s.proc j).parent)
    (hpid : x.pid = (s.proc j).pid) (hx : x.xstate = (s.proc j).xstate) :
    Same s (s.setProc j x) := by
  refine ⟨fun i => ?_, fun i => ?_, fun i => ?_, fun i => ?_, fun i => ?_, rfl, rfl, rfl, rfl, rfl,
    rfl⟩
  all_goals by_cases e : i = j
  · subst e; rw [kind, St.setProc_self, hf]
  · rw [kind, St.setProc_ne _ _ e]
  · subst e; rw [kind, St.setProc_self, hz]
  · rw [kind, St.setProc_ne _ _ e]
  · subst e; rw [WaitFamily.parent, St.setProc_self, hp]
  · rw [WaitFamily.parent, St.setProc_ne _ _ e]
  · subst e; rw [St.setProc_self, hpid]
  · rw [St.setProc_ne _ _ e]
  · subst e; rw [St.setProc_self, hx]
  · rw [St.setProc_ne _ _ e]

lemma Same.setState {j : Fin n} {x : Proc n} (hx : kindOf x.state = .live)
    (hj : kind s j = .live ∨ kind s j = .made) (hp : x.parent = (s.proc j).parent)
    (hpid : x.pid = (s.proc j).pid) (hxs : x.xstate = (s.proc j).xstate) :
    Same s (s.setProc j x) := by
  refine .setProc ?_ ?_ hp hpid hxs
  · rcases hj with h | h <;> simp only [hx, h, reduceCtorEq]
  · rcases hj with h | h <;> simp only [hx, h, reduceCtorEq]

lemma Same.congr {s₁ : St n} (h : Same s s₁) (htbl : s'.tbl = s₁.tbl) (hborn : s'.born = s₁.born)
    (hinc : s'.inc = s₁.inc) (hfather : s'.father = s₁.father) (hexited : s'.exited = s₁.exited)
    (hreaped : s'.reaped = s₁.reaped) : Same s s' := by
  obtain ⟨h1, h2, h3, h4, h5, h6, h7, h8, h9, h10, h11⟩ := h
  refine ⟨fun i => ?_, fun i => ?_, fun i => ?_, fun i => ?_, fun i => ?_, ?_, ?_, ?_, ?_, ?_, ?_⟩
  · rw [kind, St.proc, htbl]; exact h1 i
  · rw [kind, St.proc, htbl]; exact h2 i
  · rw [WaitFamily.parent, St.proc, htbl]; exact h3 i
  · rw [St.proc, htbl]; exact h4 i
  · rw [St.proc, htbl]; exact h5 i
  · rw [htbl, h6]
  · rw [hborn, h7]
  · rw [hinc, h8]
  · rw [hfather, h9]
  · rw [hexited, h10]
  · rw [hreaped, h11]

lemma Same.goto {s₁ : St n} (h : Same s s₁) (c : Pc n) : Same s (s₁.goto p c) :=
  h.congr rfl rfl rfl rfl rfl rfl

lemma Same.wakeSlot (j : Fin n) (c : Option (Chan n)) : Same s (s.wakeSlot j c) := by
  unfold St.wakeSlot
  split_ifs with h
  · exact .setState rfl (.inl (by rw [kind, h.1]; rfl)) rfl rfl rfl
  · exact .refl s

lemma Same.woken {q : Fin n} {c : Option (Chan n)} {t : St n} (h : Woken s p q c t) : Same s t := by
  rcases h with ⟨-, rfl⟩ | ⟨-, rfl⟩
  · exact .refl _
  · exact .wakeSlot q c

lemma Same.kill (j : Fin n) : Same s (s.setProc j (St.killed (s.proc j))) := by
  unfold St.killed
  split_ifs with h
  · exact .setState rfl (.inl (by rw [kind, h]; rfl)) rfl rfl rfl
  · exact .setProc Iff.rfl Iff.rfl rfl rfl rfl

lemma Ids.same (h : Ids s) (hs : Same s s') : Ids s' := by
  have hf (i : Fin n) : kind s' i ≠ .free ↔ kind s i ≠ .free := (hs.free i).not
  refine ⟨?_, ?_, ?_, ?_, ?_, ?_, ?_, ?_, ?_, ?_⟩
  · rw [hs.nextpid, hs.born]; exact h.nextpid
  · intro i hi
    rw [hs.inc, hs.born, hs.pid]
    exact h.pid i ((hf i).mp hi)
  · intro i j hi hj
    rw [hs.inc]
    exact h.inj i j ((hf i).mp hi) ((hf j).mp hj)
  · intro i q hq
    rw [hs.parent] at hq
    rw [hs.father, hs.inc]
    exact h.father i q hq
  · intro i hi
    rw [hs.inc, hs.pid, hs.xstate, hs.exited]
    exact h.exited i ((hs.zombie i).mp hi)
  · intro x hx
    rw [hs.exited] at hx
    rw [hs.born, hs.inc]
    refine ⟨(h.past x hx).1, fun i hi he => ?_⟩
    exact (hs.zombie i).mpr ((h.past x hx).2 i ((hf i).mp hi) he)
  · rw [hs.exited]; exact h.exitedOnce
  · rw [hs.reaped, hs.exited]; exact h.reaped
  · intro r hr i hi
    rw [hs.reaped] at hr
    rw [hs.inc]
    exact h.gone r hr i ((hf i).mp hi)
  · rw [hs.reaped]; exact h.reapedOnce

/-! ### Steps that change it -/

lemma ids_claim (h : Ids s) (hfam : Family s) {np : Fin n} (hfree : (s.proc np).state = .UNUSED) :
    Ids (s.claim np) := by
  have hkind : kind s np = .free := by simp [hfree]
  have hself : (s.claim np).proc np
      = { s.proc np with pid := s.tbl.nextpid, state := .USED } := by
    simp [St.claim, St.proc, Table.claim, Table.allocpid]
  have hne {i : Fin n} (e : i ≠ np) : (s.claim np).proc i = s.proc i := Table.set_procs_ne _ e _
  have hincSelf : (s.claim np).inc np = s.born := update_self ..
  have hinc {i : Fin n} (e : i ≠ np) : (s.claim np).inc i = s.inc i := update_of_ne e ..
  have hused {i : Fin n} (e : i ≠ np) (hi : kind (s.claim np) i ≠ .free) : kind s i ≠ .free := by
    rwa [kind, hne e] at hi
  have hz {i : Fin n} (hi : kind (s.claim np) i = .zombie) : i ≠ np ∧ kind s i = .zombie := by
    have e : i ≠ np := by
      rintro rfl
      rw [kind, hself] at hi
      cases hi
    exact ⟨e, by rwa [kind, hne e] at hi⟩
  refine ⟨?_, ?_, ?_, ?_, ?_, ?_, h.exitedOnce, h.reaped, ?_, h.reapedOnce⟩
  · rw [claim_nextpid, h.nextpid, pidOf_succ]
    rfl
  · intro i hi
    show _ < s.born + 1 ∧ _
    by_cases e : i = np
    · subst e
      rw [hincSelf, hself]
      exact ⟨Nat.lt_succ_self _, h.nextpid⟩
    · rw [hinc e, hne e]
      obtain ⟨h1, h2⟩ := h.pid i (hused e hi)
      exact ⟨Nat.lt_succ_of_lt h1, h2⟩
  · intro i j hi hj heq
    by_cases ei : i = np <;> by_cases ej : j = np
    · rw [ei, ej]
    · rw [ei, hincSelf, hinc ej] at heq
      have := (h.pid j (hused ej hj)).1
      omega
    · rw [ej, hincSelf, hinc ei] at heq
      have := (h.pid i (hused ei hi)).1
      omega
    · rw [hinc ei, hinc ej] at heq
      exact h.inj i j (hused ei hi) (hused ej hj) heq
  · intro i q hq
    have hpar : parent s i = some q := by
      by_cases e : i = np
      · subst e; rwa [parent, hself] at hq
      · rwa [parent, hne e] at hq
    have hqn : q ≠ np := by
      rintro rfl
      have := hfam.parentLive i q hpar
      rw [hkind] at this
      cases this
    rw [hinc hqn]
    exact h.father i q hpar
  · intro i hi
    obtain ⟨e, hi'⟩ := hz hi
    rw [hinc e, hne e]
    exact h.exited i hi'
  · intro x hx
    obtain ⟨h1, h2⟩ := h.past x hx
    refine ⟨Nat.lt_succ_of_lt h1, fun i hi he => ?_⟩
    have e : i ≠ np := by
      rintro rfl
      rw [hincSelf] at he
      omega
    rw [hinc e] at he
    rw [kind, hne e]
    exact h2 i (hused e hi) he
  · intro r hr i hi
    by_cases e : i = np
    · subst e
      rw [hincSelf]
      have := (h.past _ (h.reaped r hr).1).1
      simp only at this
      omega
    · rw [hinc e]
      exact h.gone r hr i (hused e hi)

lemma ids_free (h : Ids s) {j : Fin n} (htbl : s'.tbl = s.tbl.freeproc j) (hborn : s'.born = s.born)
    (hinc : s'.inc = s.inc) (hfather : s'.father = s.father) (hexited : s'.exited = s.exited)
    (hreaped : ∀ r ∈ s'.reaped, (⟨r.child, r.pid, r.status⟩ : Exit) ∈ s.exited ∧
      r.caller = r.parent)
    (hgone : ∀ r ∈ s'.reaped, ∀ i, i ≠ j → kind s i ≠ .free → s.inc i ≠ r.child)
    (honce : (s'.reaped.map Reap.child).Nodup) : Ids s' := by
  have hself : kind s' j = .free ∧ parent s' j = none := by
    rw [kind, parent, St.proc, htbl]
    simp [Table.freeproc]
  have hne {i : Fin n} (e : i ≠ j) : s'.proc i = s.proc i := by
    rw [St.proc, htbl]; exact Table.set_procs_ne _ e _
  have hused {i : Fin n} (hi : kind s' i ≠ .free) : i ≠ j ∧ kind s i ≠ .free := by
    have e : i ≠ j := by rintro rfl; exact hi hself.1
    exact ⟨e, by rwa [kind, hne e] at hi⟩
  refine ⟨?_, ?_, ?_, ?_, ?_, ?_, ?_, ?_, ?_, honce⟩
  · rw [htbl, hborn]; exact h.nextpid
  · intro i hi
    obtain ⟨e, hi'⟩ := hused hi
    rw [hinc, hborn, hne e]
    exact h.pid i hi'
  · intro i k hi hk
    rw [hinc]
    exact h.inj i k (hused hi).2 (hused hk).2
  · intro i q hq
    have e : i ≠ j := by rintro rfl; rw [hself.2] at hq; cases hq
    rw [parent, hne e] at hq
    rw [hfather, hinc]
    exact h.father i q hq
  · intro i hi
    have e : i ≠ j := by rintro rfl; rw [hself.1] at hi; cases hi
    rw [kind, hne e] at hi
    rw [hinc, hne e, hexited]
    exact h.exited i hi
  · intro x hx
    rw [hexited] at hx
    rw [hborn, hinc]
    refine ⟨(h.past x hx).1, fun i hi he => ?_⟩
    obtain ⟨e, hi'⟩ := hused hi
    rw [kind, hne e]
    exact (h.past x hx).2 i hi' he
  · rw [hexited]; exact h.exitedOnce
  · rw [hexited]; exact hreaped
  · intro r hr i hi
    obtain ⟨e, hi'⟩ := hused hi
    rw [hinc]
    exact hgone r hr i e hi'

lemma ids_setParent (h : Ids s) (j q : Fin n) : Ids (s.setParent j q) := by
  have hk (i : Fin n) : kind (s.setParent j q) i = kind s i := kind_setParent j q i
  have hpid (i : Fin n) : ((s.setParent j q).proc i).pid = (s.proc i).pid ∧
      ((s.setParent j q).proc i).xstate = (s.proc i).xstate := by
    by_cases e : i = j
    · subst e; simp [St.setParent, St.proc, St.setProc]
    · simp [St.setParent, St.proc, St.setProc, Table.set_procs_ne _ e]
  refine ⟨h.nextpid, ?_, ?_, ?_, ?_, ?_, h.exitedOnce, h.reaped, ?_, h.reapedOnce⟩
  · intro i hi
    rw [hk] at hi
    rw [(hpid i).1]
    exact h.pid i hi
  · intro i k hi hk'
    rw [hk] at hi hk'
    exact h.inj i k hi hk'
  · intro i r hr
    by_cases e : i = j
    · subst e
      obtain rfl : q = r := Option.some.inj ((parent_setParent_self i q).symm.trans hr)
      exact update_self ..
    · have hpar : parent s i = some r := (parent_setParent_ne q e).symm.trans hr
      exact (update_of_ne e ..).trans (h.father i r hpar)
  · intro i hi
    rw [hk] at hi
    rw [(hpid i).1, (hpid i).2]
    exact h.exited i hi
  · intro x hx
    refine ⟨(h.past x hx).1, fun i hi he => ?_⟩
    rw [hk] at hi ⊢
    exact (h.past x hx).2 i hi he
  · intro r hr i hi
    rw [hk] at hi
    exact h.gone r hr i hi

lemma ids_die (h : Ids s) (hlive : kind s p = .live) (status : ℤ) : Ids (s.die p status) := by
  have hself : (s.die p status).proc p = { s.proc p with xstate := status, state := .ZOMBIE } := by
    simp [St.die, St.proc, St.setProc]
  have hne {i : Fin n} (e : i ≠ p) : (s.die p status).proc i = s.proc i := Table.set_procs_ne _ e _
  have hused {i : Fin n} (hi : kind (s.die p status) i ≠ .free) : kind s i ≠ .free := by
    by_cases e : i = p
    · rw [e, hlive]; simp
    · rwa [kind, hne e] at hi
  have hnew : s.inc p ∉ s.exited.map Exit.proc := by
    intro hmem
    obtain ⟨x, hx, he⟩ := List.mem_map.mp hmem
    have := (h.past x hx).2 p (by simp [hlive]) he.symm
    rw [hlive] at this
    cases this
  refine ⟨h.nextpid, ?_, ?_, ?_, ?_, ?_, ?_, ?_, ?_, h.reapedOnce⟩
  · intro i hi
    have hp := h.pid i (hused hi)
    by_cases e : i = p
    · subst e; rw [hself]; exact hp
    · rw [hne e]; exact hp
  · intro i j hi hj
    exact h.inj i j (hused hi) (hused hj)
  · intro i q hq
    have hpar : parent s i = some q := by
      by_cases e : i = p
      · subst e; rwa [parent, hself] at hq
      · rwa [parent, hne e] at hq
    exact h.father i q hpar
  · intro i hi
    by_cases e : i = p
    · subst e; rw [hself]; exact List.mem_cons_self
    · rw [kind, hne e] at hi
      rw [hne e]
      exact List.mem_cons_of_mem _ (h.exited i hi)
  · intro x hx
    rcases List.mem_cons.mp hx with rfl | hx
    · refine ⟨(h.pid p (by simp [hlive])).1, fun i hi he => ?_⟩
      obtain rfl := h.inj i p (hused hi) (by simp [hlive]) he
      rw [kind, hself]
      rfl
    · refine ⟨(h.past x hx).1, fun i hi he => ?_⟩
      have hz := (h.past x hx).2 i (hused hi) he
      by_cases e : i = p
      · rw [e, hlive] at hz; cases hz
      · rw [kind, hne e]; exact hz
  · exact List.nodup_cons.mpr ⟨hnew, h.exitedOnce⟩
  · intro r hr
    exact ⟨List.mem_cons_of_mem _ (h.reaped r hr).1, (h.reaped r hr).2⟩
  · intro r hr i hi
    exact h.gone r hr i (hused hi)

lemma ids_reap (h : Ids s) {pp : Fin n} (hpar : parent s pp = some p)
    (hz : kind s pp = .zombie) : Ids (s.reap p pp) := by
  have hused : kind s pp ≠ .free := by rw [hz]; simp
  refine ids_free h (j := pp) rfl rfl rfl rfl rfl ?_ ?_ ?_
  · intro r hr
    rcases List.mem_cons.mp hr with rfl | hr
    · exact ⟨h.exited pp hz, (h.father pp p hpar).symm⟩
    · exact h.reaped r hr
  · intro r hr i e hi
    rcases List.mem_cons.mp hr with rfl | hr
    · intro he
      exact e (h.inj i pp hi hused he)
    · exact h.gone r hr i hi
  · refine List.nodup_cons.mpr ⟨?_, h.reapedOnce⟩
    intro hmem
    obtain ⟨r, hr, he⟩ := List.mem_map.mp hmem
    exact h.gone r hr pp hused he.symm

/-! ### Every step keeps it -/

lemma section_ids {c : Pc n} (h : Ids s) (hfam : Family s) (ha : At s p c)
    (hs : Section s p c s') : Ids s' := by
  have hlive : kind s p = .live := by rw [kind, ha.running]; rfl
  cases hs with
  | allocEnd | allocNext | killEnd | killNext | reparentEnd _ | reparentNext _ _ | wakeInitEnd _
  | scanEnd _ | scanNext _ _ | checkSleep => exact h.same ((Same.refl s).goto _)
  | exitBegin _ | waitBegin _ | scanFail | checkEnd | sleepBegin =>
    exact h.same ((Same.refl s).congr rfl rfl rfl rfl rfl rfl)
  | adopt _ | reparentPass _ _ => exact (ids_setParent h _ _).same ((Same.refl _).goto _)
  | allocFail free =>
    rename_i i np
    have h1 := ids_claim h hfam free
    have h2 : Ids ((s.claim np).unclaim np) :=
      ids_free h1 (j := np) rfl rfl rfl rfl rfl h.reaped (fun r hr i _ hi => h1.gone r hr i hi)
        h.reapedOnce
    exact h2.same ((Same.refl _).goto _)
  | allocOk free => exact (ids_claim h hfam free).same ((Same.refl _).goto _)
  | start =>
    rename_i np
    have hmade := (hfam.start p np ha.pc).1
    have h1 : Same s (s.setProc np { s.proc np with state := .RUNNABLE }) :=
      .setState rfl (.inr hmade) rfl rfl rfl
    exact h.same (h1.goto _)
  | killHit => exact h.same ((Same.kill _).goto _)
  | wakeInitNext slot woken | wakeParentNext slot woken => exact h.same ((Same.woken woken).goto _)
  | exitEnd ended => exact (ids_die h hlive _).same ((Same.refl _).goto _)
  | scanReap child lock zombie =>
    have h1 := ids_reap h child (by simp [zombie])
    exact h1.same ((Same.refl _).congr rfl rfl rfl rfl rfl rfl)
  | sleepEnd =>
    have h1 : Same s (s.setProc p { s.proc p with chan := some (.proc p), state := .SLEEPING }) :=
      .setState rfl (.inl hlive) rfl rfl rfl
    exact h.same (h1.congr rfl rfl rfl rfl rfl rfl)

lemma step_ids (h : Ids s) (hfam : Family s) (hsh : Shape s) {a : Act n}
    (hs : step s a = some s') : Ids s' := by
  cases a with
  | call p c =>
    simp only [step] at hs
    split_ifs at hs
    cases hs
    exact h.same ((Same.refl s).goto _)
  | go p b =>
    simp only [step] at hs
    split_ifs at hs with hr
    exact section_ids h hfam ⟨hsh, hr, rfl⟩ (go_section hs)
  | swtch p =>
    simp only [step] at hs
    split_ifs at hs
    cases hs
    exact h.same ((Same.refl s).congr rfl rfl rfl rfl rfl rfl)
  | schedule p =>
    simp only [step] at hs
    split_ifs at hs with hc
    cases hs
    have h1 : Same s { s with tbl := s.tbl.schedule p } :=
      Same.setState rfl (.inl (by rw [kind, hc.2]; rfl)) rfl rfl rfl
    exact h.same (h1.goto _)
  | yield p =>
    simp only [step] at hs
    split_ifs at hs with hc
    cases hs
    exact h.same (Same.setState rfl (.inl (by rw [kind, hc.2.1]; rfl)) rfl rfl rfl)
  | sleep p c =>
    simp only [step] at hs
    split_ifs at hs with hc
    cases hs
    exact h.same (Same.setState rfl (.inl (by rw [kind, hc.2.1]; rfl)) rfl rfl rfl)
  | wake i c =>
    simp only [step] at hs
    split_ifs at hs
    cases hs
    exact h.same (.wakeSlot i _)
  | setkilled p =>
    simp only [step] at hs
    split_ifs at hs
    cases hs
    exact h.same (Same.setProc Iff.rfl Iff.rfl rfl rfl rfl)

lemma boot_ids (i : Fin n) : Ids (boot i) := by
  have hused {j : Fin n} (hj : kind (boot i) j ≠ .free) : j = i := by
    by_contra e
    rw [kind, boot_proc_ne e] at hj
    exact hj rfl
  refine ⟨(pidOf_eq (by decide)).symm, ?_, ?_, ?_,
    ?_, by simp [boot], by simp [boot], by simp [boot], by simp [boot], by simp [boot]⟩
  · intro j hj
    obtain rfl := hused hj
    rw [boot_proc_self]
    exact ⟨Nat.one_pos, (pidOf_eq (by decide)).symm⟩
  · intro j k hj hk _
    rw [hused hj, hused hk]
  · intro j q hq
    by_cases e : j = i
    · rw [e, parent, boot_proc_self] at hq; cases hq
    · rw [parent, boot_proc_ne e] at hq; cases hq
  · intro j hj
    have : j = i := hused (by rw [hj]; simp)
    rw [this, kind, boot_proc_self] at hj
    cases hj

end Xv6.WaitIds
