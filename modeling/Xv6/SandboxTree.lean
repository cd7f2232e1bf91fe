import Mathlib.Data.Set.Basic
import Xv6.SandboxPolicy

/-!
Confinement of a process tree. `interpose` is never blocked, and a call of it replaces the
policy of its caller, so a confined process can free itself. It is the only way out: what a
process and the descendants it forks can do stays within the policy it was given for as long
as none of them asks for a policy that permits something the tree could not do before.
-/

namespace Xv6.SandboxTree

open CString Params SandboxModel SandboxPolicy Runs
open ProcModel hiding Act step

variable {n : ℕ}

/-- The system, and the slots that hold a process of the tree. -/
structure Tree (n : ℕ) where
  sys : Sys n
  inside : Fin n → Bool

/-- A step of the system: the child of a process of the tree belongs to it, and a slot that
is freed leaves it. -/
def treeStep (t : Tree n) (a : Act n) : Option (Tree n) :=
  (step t.sys a).map fun s => ⟨s, fun q =>
    if (s.tbl.procs q).state = .UNUSED then false
    else if (t.sys.tbl.procs q).state = .UNUSED then t.inside a.proc
    else t.inside q⟩

/-- The slot is about to make a call of `interpose` that succeeds. -/
def Interposes (s : Sys n) (p : Fin n) : Prop :=
  dispatch (s.pol p) (s.user p) = .run .interpose ∧
    (userStr (s.user p).mem (s.user p).a1 MAXPATH).isSome

/-- Some process has just called `interpose` and has got the policy `π`; it is the tree. -/
def Entered (π : Policy) (t : Tree n) : Prop :=
  ∃ i user s p e, Reach step Always (· = boot i user) s ∧ Interposes s p ∧
    asked (s.user p) = π ∧ step s (.syscall p e) = some t.sys ∧
    t.inside = fun q => decide (q = p)

/-- The calls that a policy permits: the handler, and the string its argument points to. -/
def calls (π : Policy) : Set (Handler × Option (List UInt8)) := {c | Permits π c.1 c.2}

def permitted (t : Tree n) : Set (Handler × Option (List UInt8)) :=
  {c | ∃ q, t.inside q = true ∧ c ∈ calls (t.sys.policy q)}

/-- A call of `interpose` by a process of the tree asks for nothing that is not permitted to
the tree already. -/
def Modest (t : Tree n) : Act n → Prop
  | .syscall p _ =>
    t.inside p = true → Interposes t.sys p → calls (asked (t.sys.user p)) ⊆ permitted t
  | _ => True

variable {t t' : Tree n} {π : Policy}

structure Good (t : Tree n) : Prop where
  inv : Inv t.sys
  used : ∀ q, t.inside q = true → (t.sys.tbl.procs q).state ≠ .UNUSED

/-! ### One step -/

lemma treeStep_policy {a : Act n} (h : treeStep t a = some t') {q : Fin n}
    (hq : t'.inside q = true) :
    (∃ q₀, t.inside q₀ = true ∧ t'.sys.policy q = t.sys.policy q₀) ∨
    t.inside q = true ∧ (∃ e, a = .syscall q e) ∧ Interposes t.sys q ∧
      t'.sys.policy q = asked (t.sys.user q) := by
  obtain ⟨s', hs, rfl⟩ := Option.map_eq_some_iff.mp h
  dsimp only at hq ⊢
  split_ifs at hq with hu hfree
  · rcases step_origin hs hu with ⟨hu', -, -⟩ | ⟨-, -, -, hu', -, -⟩ | ⟨rfl, -, -, -, h2⟩
    · exact absurd hfree hu'
    · exact absurd hfree hu'
    · exact .inl ⟨_, hq, h2⟩
  · rcases step_origin hs hu with ⟨-, -, h2⟩ | ⟨hc, hd, ha, -, -, h2⟩ | ⟨-, hfree', -, -, -⟩
    · exact .inl ⟨q, hq, h2⟩
    · exact .inr ⟨hq, ⟨_, hc⟩, ⟨hd, by rwa [argstr_fst] at ha⟩, h2⟩
    · exact absurd hfree' hfree

lemma treeStep_good (hg : Good t) {a : Act n} (h : treeStep t a = some t') : Good t' := by
  obtain ⟨s', hs, rfl⟩ := Option.map_eq_some_iff.mp h
  refine ⟨step_inv hg.inv hs, fun q hq => ?_⟩
  dsimp only at hq ⊢
  split_ifs at hq with hu <;> exact hu

lemma interposes_step {s s' : Sys n} {p : Fin n} {e : Env} (h : Interposes s p)
    (hs : step s (.syscall p e) = some s') :
    s'.policy p = asked (s.user p) ∧ (s'.tbl.procs p).state = .RUNNING := by
  simp only [step] at hs
  split_ifs at hs with hr
  obtain ⟨hd, harg⟩ := h
  rw [syscall, hd] at hs
  obtain ⟨s₁, h1, rfl⟩ := Option.map_eq_some_iff.mp hs
  cases h1
  rw [← argstr_fst] at harg
  unfold Sys.sysInterpose
  dsimp only
  rw [harg]
  exact ⟨Function.update_self .., hr⟩

/-- A step widens what is permitted to the tree exactly if it is an `interpose` that asks for
more. -/
lemma permitted_subset_iff {a : Act n} (h : treeStep t a = some t') :
    permitted t' ⊆ permitted t ↔ Modest t a := by
  constructor
  · intro hsub
    cases a with
    | syscall p e =>
      intro hin hint c hc
      obtain ⟨s', hs, rfl⟩ := Option.map_eq_some_iff.mp h
      obtain ⟨hpolicy, hrun⟩ := interposes_step hint hs
      have hbefore : (t.sys.tbl.procs p).state ≠ .UNUSED := by
        simp only [step] at hs
        split_ifs at hs with hr
        simp [hr]
      refine hsub ⟨p, ?_, ?_⟩
      · simp [hrun, hbefore, hin]
      · rw [hpolicy]; exact hc
    | _ => trivial
  · rintro hm c ⟨q, hq, hc⟩
    rcases treeStep_policy h hq with ⟨q₀, hq₀, he⟩ | ⟨hin, ⟨e, rfl⟩, hint, he⟩
    · exact ⟨q₀, hq₀, he ▸ hc⟩
    · exact hm hin hint (he ▸ hc)

/-! ### Runs -/

lemma entered_good (h : Entered π t) : Good t ∧ permitted t = calls π := by
  obtain ⟨i, user, s, p, e, hs, hint, rfl, hstep, hin⟩ := h
  obtain ⟨hpolicy, hrun⟩ := interposes_step hint hstep
  refine ⟨⟨step_inv (reach_inv hs) hstep, fun q hq => ?_⟩, ?_⟩
  · rw [hin] at hq
    obtain rfl : q = p := by simpa using hq
    simp [hrun]
  · ext c
    simp [permitted, hin, hpolicy]

lemma reach_good (h : Reach treeStep Modest (Entered π) t) :
    Good t ∧ permitted t ⊆ calls π := by
  refine h.invariant (I := fun t => Good t ∧ permitted t ⊆ calls π) ?_ ?_
  · intro t h0
    obtain ⟨hg, he⟩ := entered_good h0
    exact ⟨hg, he.subset⟩
  · rintro t a t' ⟨hg, hsub⟩ hm ht
    exact ⟨treeStep_good hg ht, ((permitted_subset_iff ht).mpr hm).trans hsub⟩

/-- **Confinement, up to `interpose`.** After a process has got the policy `π` from
`interpose`, run the system in any way in which no later `interpose` of its tree asks for
more than is permitted to the tree. Then no process of the tree can have a handler executed
that `π` does not permit. The set of permitted calls shrinks in every such step, and only an
`interpose` that asks for more can widen it. -/
theorem tree_confined (h : Reach treeStep Modest (Entered π) t) :
    (∀ q hd, t.inside q = true → dispatch (t.sys.pol q) (t.sys.user q) = .run hd →
      Permits π hd (userStr (t.sys.user q).mem (t.sys.user q).a0 MAXPATH)) ∧
    permitted t ⊆ calls π ∧
    ∀ a t', treeStep t a = some t' → (permitted t' ⊆ permitted t ↔ Modest t a) := by
  obtain ⟨hg, hsub⟩ := reach_good h
  refine ⟨fun q hd hq hrun => ?_, hsub, fun a t' ht => permitted_subset_iff ht⟩
  have hnum := syscalls_of_dispatch hrun
  rw [dispatch_of_syscalls _ hnum, check_run_iff (hg.inv q (hg.used q hq))] at hrun
  have hmem : (hd, userStr (t.sys.user q).mem (t.sys.user q).a0 MAXPATH) ∈ permitted t :=
    ⟨q, hq, hrun⟩
  exact hsub hmem

def plenty : Env := ⟨true, true, true, true, ⟨0, 0, 0, twoStrings⟩⟩

/-- The first process when it is about to confine itself to opening `a`. -/
def confining : Option (Sys 2) := run step twoSlots (openOther.take 2)

/-- It confines itself and forks: the child is in the tree, and cannot open `b`. -/
theorem tree_confined_fork : ∃ s s₁ t, confining = some s ∧
    step s (.syscall 0 plenty) = some s₁ ∧
    run treeStep ⟨s₁, fun q => decide (q = 0)⟩
      [.user 0 ⟨0, 0, 1, twoStrings⟩, .syscall 0 plenty, .schedule 1,
        .user 1 ⟨32, 0, 15, twoStrings⟩] = some t ∧
    t.inside 1 = true ∧ dispatch (t.sys.pol 1) (t.sys.user 1) ≠ .run .open := by
  have hstart : Reach step Always (· = twoSlots) (confining.get rfl) :=
    Reach.of_run (.init rfl) (show confining = _ from rfl)
  have h0 : Reach treeStep Modest (Entered ⟨2 ^ 15, [97]⟩)
      ⟨(step (confining.get rfl) (.syscall 0 plenty)).get rfl, fun q => decide (q = 0)⟩ :=
    .init ⟨0, _, _, 0, plenty, hstart, ⟨rfl, rfl⟩, rfl, rfl, rfl⟩
  have h1 := h0.next (.user 0 ⟨0, 0, 1, twoStrings⟩) trivial rfl
  have h2 := h1.next (.syscall 0 plenty) (fun _ hint => by cases hint.1) rfl
  have h3 := h2.next (.schedule 1) trivial rfl
  have h4 := h3.next (.user 1 ⟨32, 0, 15, twoStrings⟩) trivial rfl
  refine ⟨_, _, _, rfl, rfl, rfl, rfl, fun hrun => ?_⟩
  have hperm := (tree_confined h4).1 1 .open rfl hrun
  have harg : userStr twoStrings 32 MAXPATH = some [98] := rfl
  change Permits ⟨2 ^ 15, [97]⟩ .open (userStr twoStrings 32 MAXPATH) at hperm
  rw [Permits, harg] at hperm
  exact absurd hperm (by decide)

/-- **A confined process frees itself.** After `interpose(1 << SYS_open, "a")` the first
process cannot open `b`; it calls `interpose(0, "a")`, and then it can. -/
theorem interpose_frees : ∃ s s₁ t, confining = some s ∧ Interposes s 0 ∧
    asked (s.user 0) = ⟨2 ^ 15, [97]⟩ ∧ step s (.syscall 0 plenty) = some s₁ ∧
    run treeStep ⟨s₁, fun q => decide (q = 0)⟩
      [.user 0 ⟨0, 16, 22, twoStrings⟩, .syscall 0 plenty, .user 0 ⟨32, 0, 15, twoStrings⟩]
        = some t ∧
    t.inside 0 = true ∧ dispatch (t.sys.pol 0) (t.sys.user 0) = .run .open ∧
    ¬ Permits ⟨2 ^ 15, [97]⟩ .open (userStr (t.sys.user 0).mem (t.sys.user 0).a0 MAXPATH) := by
  refine ⟨_, _, _, rfl, ⟨rfl, rfl⟩, rfl, rfl, rfl, rfl, rfl, ?_⟩
  have harg : userStr twoStrings 32 MAXPATH = some [98] := rfl
  show ¬ Permits ⟨2 ^ 15, [97]⟩ .open (userStr twoStrings 32 MAXPATH)
  rw [Permits, harg]
  decide

end Xv6.SandboxTree
