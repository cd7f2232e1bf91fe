import Xv6.SandboxModel

/-!
The sandbox policy in force: what `syscall()` decides from the fields of the process slot is
what the policy of the process says, in every run.

The one fact about steps is `step_origin`: a slot in use keeps its policy, or its process has
just called `interpose`, or the slot was free and its process has just been forked.
-/

namespace Xv6.SandboxPolicy

open Function Bytes CString Params SandboxModel Runs
open ProcModel hiding Act step

variable {n : ℕ} {s s' : Sys n}

/-- What a policy lets through: a handler, and the string that its first argument points to,
if there is one. -/
def Permits (π : Policy) (h : Handler) (arg : Option (List UInt8)) : Prop :=
  h = .interpose ∨ π.mask.testBit h.num = false ∨
    ((h = .open ∨ h = .exec) ∧ π.path ≠ [] ∧ arg = some π.path)

structure Holds (pol : Pol) (π : Policy) : Prop where
  mask : ∀ k < 32, pol.mask.testBit k = π.mask.testBit k
  path : cstr pol.allowedPath.get MAXPATH = π.path
  short : π.path.length < MAXPATH

/-! ### Strings -/

lemma argstr_fst (u : User) (a : ℕ) : (argstr u a).1 = (userStr u.mem a MAXPATH).isSome :=
  copyinstr_fst _ _ _ _ _

lemma cstr_argstr {u : User} {a : ℕ} {str : List UInt8} (h : userStr u.mem a MAXPATH = some str) :
    cstr (argstr u a).2.get MAXPATH = str := by
  have h0 : userStr u.mem (a + 0) MAXPATH = some str := h
  have := cstr_copyinstr (Buf.fill MAXPATH 0) h0 (by simp) le_rfl
  simpa [argstr] using this

lemma argPath_eq (u : User) (a : ℕ) : argPath u a = userStr u.mem a MAXPATH := by
  unfold argPath
  rw [argstr_fst]
  cases h : userStr u.mem a MAXPATH with
  | none => simp
  | some str => simp [cstr_argstr h]

lemma cstr_safestrcpy_path (dst : Buf MAXPATH) {src : ℕ → UInt8}
    (h : (cstr src MAXPATH).length < MAXPATH) :
    cstr (safestrcpy dst src MAXPATH).get MAXPATH = cstr src MAXPATH := by
  rw [cstr_safestrcpy dst src (by decide) le_rfl, cstr_take (Nat.sub_le MAXPATH 1)]
  exact List.take_of_length_le (by omega)

lemma signExtend_argint_testBit (a : ℕ) {k : ℕ} (hk : k < 32) :
    (signExtend (argint a)).testBit k = (a % 2 ^ 32).testBit k := by
  have hmod : signExtend (argint a) % 2 ^ 32 = a % 2 ^ 32 := by
    unfold signExtend argint
    have h1 : ((Int.bmod a (2 ^ 32) % 2 ^ 64).toNat : ℤ) = Int.bmod a (2 ^ 32) % 2 ^ 64 :=
      Int.toNat_of_nonneg (Int.emod_nonneg _ (by decide))
    have h2 : Int.bmod a (2 ^ 32) % 2 ^ 64 % 2 ^ 32 = (a : ℤ) % 2 ^ 32 := by
      rw [Int.emod_emod_of_dvd _ (by decide)]
      exact Int.bmod_emod
    omega
  have h := Nat.testBit_mod_two_pow (signExtend (argint a)) 32 k
  rw [hmod, decide_eq_true hk, Bool.true_and] at h
  exact h.symm

/-! ### One call -/

lemma check_run_iff {pol : Pol} {π : Policy} (hp : Holds pol π) (u : User) (h : Handler) :
    check pol u h = .run h ↔ Permits π h (userStr u.mem u.a0 MAXPATH) := by
  have hbit := hp.mask h.num h.num_lt
  have hpath : pol.allowedPath.get 0 = 0 ↔ π.path = [] := by
    rw [← hp.path, cstr_eq_nil (by decide)]
  have harg : ((argstr u u.a0).1 = true ∧
      strncmp (argstr u u.a0).2.get pol.allowedPath.get MAXPATH = 0) ↔
        userStr u.mem u.a0 MAXPATH = some π.path := by
    rw [argstr_fst, strncmp_eq_zero, hp.path]
    cases hstr : userStr u.mem u.a0 MAXPATH with
    | none => simp
    | some str => simp [cstr_argstr hstr]
  rw [check, Permits]
  split_ifs with h1 h2 h3
  · exact iff_of_true rfl (.inr (.inr ⟨h2.1, mt hpath.mpr h2.2, harg.mp h3⟩))
  · refine iff_of_false (by simp) ?_
    rintro (h4 | h4 | ⟨-, -, h4⟩)
    · exact h1.1 h4
    · rw [← hbit, h1.2] at h4; cases h4
    · exact h3 (harg.mpr h4)
  · refine iff_of_false (by simp) ?_
    rintro (h4 | h4 | ⟨h4, h5, -⟩)
    · exact h1.1 h4
    · rw [← hbit, h1.2] at h4; cases h4
    · exact h2 ⟨h4, mt hpath.mp h5⟩
  · refine iff_of_true rfl ?_
    rw [hbit] at h1
    simp only [ne_eq, not_and, Bool.not_eq_true] at h1
    by_cases h4 : h = .interpose
    · exact .inl h4
    · exact .inr (.inl (h1 h4))

lemma check_eq (pol : Pol) (u : User) (h : Handler) :
    check pol u h = .run h ∨ check pol u h = .blocked := by
  rw [check]
  split_ifs
  · exact .inl rfl
  · exact .inr rfl
  · exact .inr rfl
  · exact .inl rfl

lemma dispatch_of_syscalls (pol : Pol) {u : User} {h : Handler}
    (hh : syscalls (.ofNat 32 u.a7) = some h) : dispatch pol u = check pol u h := by
  rw [dispatch, hh]

lemma syscalls_of_dispatch {pol : Pol} {u : User} {h : Handler} (hd : dispatch pol u = .run h) :
    syscalls (.ofNat 32 u.a7) = some h := by
  unfold dispatch at hd
  split at hd
  · cases hd
  · rename_i h' hh
    rw [hh]
    rcases check_eq pol u h' with h1 | h1
    · rw [h1, Verdict.run.injEq] at hd
      rw [hd]
    · rw [h1] at hd
      cases hd

/-! ### One step -/

/-- How the process in slot `q`, in use after a step, came by its policy: it had it, it has
called `interpose`, or it has been forked by process `p`. -/
inductive Origin (s s' : Sys n) (a : Act n) (q : Fin n) : Prop
  | kept (used : (s.tbl.procs q).state ≠ .UNUSED) (pol : s'.pol q = s.pol q)
      (policy : s'.policy q = s.policy q)
  | interposed {e : Env} (call : a = .syscall q e)
      (run : dispatch (s.pol q) (s.user q) = .run .interpose)
      (arg : (argstr (s.user q) (s.user q).a1).1 = true)
      (used : (s.tbl.procs q).state ≠ .UNUSED)
      (pol : s'.pol q = ⟨signExtend (argint (s.user q).a0),
        safestrcpy (s.pol q).allowedPath (argstr (s.user q) (s.user q).a1).2.get MAXPATH⟩)
      (policy : s'.policy q = asked (s.user q))
  | forked {p : Fin n} {e : Env} (call : a = .syscall p e)
      (free : (s.tbl.procs q).state = .UNUSED) (used : (s.tbl.procs p).state ≠ .UNUSED)
      (pol : ∃ dst, s'.pol q = ⟨(s.pol p).mask,
        safestrcpy dst (s.pol p).allowedPath.get MAXPATH⟩)
      (policy : s'.policy q = s.policy p)

variable {p q : Fin n}

/-- `allocproc` takes a free slot, and takes no other slot into use; the policies of the
processes there are stay as they are. -/
lemma allocproc_spec {trapframe pagetable : Bool} {r : Option (Fin n)}
    (h : s.allocproc trapframe pagetable = (r, s')) :
    (∀ i, r = some i → (s.tbl.procs i).state = .UNUSED) ∧ s'.policy = s.policy ∧
    (∀ q, (s'.tbl.procs q).state ≠ .UNUSED → r = some q ∨ (s.tbl.procs q).state ≠ .UNUSED) ∧
    ∀ q, (s.tbl.procs q).state ≠ .UNUSED → s'.pol q = s.pol q := by
  unfold Sys.allocproc at h
  split at h
  · obtain ⟨rfl, rfl⟩ := Prod.mk.inj h
    exact ⟨by simp, rfl, fun q hq => .inr hq, fun q hq => rfl⟩
  · rename_i i hs
    have hfree : (s.tbl.procs i).state = .UNUSED := by simpa using scan_some hs
    have hclaim {q : Fin n} (hne : q ≠ i) : (s.tbl.claim i).procs q = s.tbl.procs q :=
      Table.set_procs_ne _ hne _
    split_ifs at h
    -- out of memory, at either point: the slot is given back
    iterate 2
      obtain ⟨rfl, rfl⟩ := Prod.mk.inj h
      refine ⟨by simp, rfl, fun q hq => .inr ?_, fun q hq => ?_⟩
      · obtain ⟨hne, hu⟩ := Table.freeproc_unused hq
        rwa [hclaim hne] at hu
      · have hne : q ≠ i := by rintro rfl; exact hq hfree
        exact update_of_ne hne _ _
    · obtain ⟨rfl, rfl⟩ := Prod.mk.inj h
      refine ⟨fun j hj => ?_, rfl, fun q hq => ?_, fun q hq => rfl⟩
      · cases hj
        exact hfree
      · by_cases e : q = i
        · exact .inl (by rw [e])
        · exact .inr (hclaim e ▸ hq)

lemma kfork_origin {trapframe pagetable copy : Bool} {r : ℤ}
    (h : s.kfork p trapframe pagetable copy = (r, s')) (hp : (s.tbl.procs p).state ≠ .UNUSED)
    (hq : (s'.tbl.procs q).state ≠ .UNUSED) (e : Env) : Origin s s' (.syscall p e) q := by
  unfold Sys.kfork at h
  split at h
  · rename_i s₁ he
    obtain ⟨-, hpolicy, hused, hpol⟩ := allocproc_spec he
    obtain ⟨rfl, rfl⟩ := Prod.mk.inj h
    rcases hused q hq with h1 | h1
    · cases h1
    · exact .kept h1 (hpol q h1) (congrFun hpolicy q)
  · rename_i np s₁ he
    obtain ⟨hfree, hpolicy, hused, hpol⟩ := allocproc_spec he
    split_ifs at h
    · obtain ⟨rfl, rfl⟩ := Prod.mk.inj h
      obtain ⟨hne, hu⟩ := Table.freeproc_unused hq
      rcases hused q hu with h1 | h1
      · exact absurd (Option.some.inj h1).symm hne
      · exact .kept h1 ((update_of_ne hne _ _).trans (hpol q h1)) (congrFun hpolicy q)
    · obtain ⟨rfl, rfl⟩ := Prod.mk.inj h
      by_cases e : q = np
      · subst e
        refine .forked rfl (hfree q rfl) hp ⟨(s₁.pol q).allowedPath, ?_⟩ ?_
        · simp [hpol p hp]
        · simp [hpolicy]
      · have hu : (s₁.tbl.procs q).state ≠ .UNUSED := by
          simpa [Table.set_procs_ne _ e] using hq
        rcases hused q hu with h1 | h1
        · exact absurd (Option.some.inj h1).symm e
        · exact .kept h1 ((update_of_ne e _ _).trans (hpol q h1))
            ((update_of_ne e _ _).trans (congrFun hpolicy q))

lemma Origin.congr {s₁ : Sys n} {a : Act n} (h : Origin s s₁ a q) (hpol : s'.pol q = s₁.pol q)
    (hpolicy : s'.policy q = s₁.policy q) : Origin s s' a q := by
  rcases h with ⟨hu, h1, h2⟩ | ⟨hc, hd, ha, hu, h1, h2⟩ | ⟨hc, hf, hu, ⟨dst, h1⟩, h2⟩
  · exact .kept hu (hpol.trans h1) (hpolicy.trans h2)
  · exact .interposed hc hd ha hu (hpol.trans h1) (hpolicy.trans h2)
  · exact .forked hc hf hu ⟨dst, hpol.trans h1⟩ (hpolicy.trans h2)

lemma Origin.of_eq {a : Act n} (hused : (s.tbl.procs q).state ≠ .UNUSED)
    (hpol : s'.pol = s.pol) (hpolicy : s'.policy = s.policy) : Origin s s' a q :=
  .kept hused (congrFun hpol q) (congrFun hpolicy q)

lemma interpose_origin (hd : dispatch (s.pol p) (s.user p) = .run .interpose)
    (hp : (s.tbl.procs p).state ≠ .UNUSED)
    (hq : ((s.sysInterpose p).tbl.procs q).state ≠ .UNUSED) (e : Env) :
    Origin s (s.sysInterpose p) (.syscall p e) q := by
  unfold Sys.sysInterpose at hq ⊢
  dsimp only at hq ⊢
  split_ifs at hq ⊢ with harg
  · exact .of_eq hq rfl rfl
  · by_cases hqp : q = p
    · subst hqp
      refine .interposed rfl hd (by simpa using harg) hp ?_ ?_
      · exact update_self ..
      · exact update_self ..
    · exact .kept hq (update_of_ne hqp _ _) (update_of_ne hqp _ _)

lemma handle_origin {e : Env} {h : Handler} (hh : handle s p e h = some s')
    (hd : dispatch (s.pol p) (s.user p) = .run h) (hp : (s.tbl.procs p).state ≠ .UNUSED)
    (hq : (s'.tbl.procs q).state ≠ .UNUSED) : Origin s s' (.syscall p e) q := by
  cases h
  case fork =>
    cases hh
    exact (kfork_origin (Prod.mk.eta).symm hp hq e).congr rfl rfl
  case interpose =>
    cases hh
    exact interpose_origin hd hp hq e
  case exit =>
    obtain ⟨t, ht, rfl⟩ := Option.map_eq_some_iff.mp hh
    exact .of_eq (Table.kexit_unused hp ht hq) rfl rfl
  case kill =>
    cases hh
    exact .of_eq (Table.kkill_unused hq) rfl rfl
  case wait =>
    simp only [handle] at hh
    split at hh
    · cases hh
    · cases hh
      exact .of_eq hq rfl rfl
    · obtain ⟨i, hi, rfl⟩ := Option.map_eq_some_iff.mp hh
      obtain ⟨hne, hu⟩ := Table.freeproc_unused hq
      exact .kept hu (update_of_ne hne _ _) rfl
  all_goals
    cases hh
    exact .of_eq hq rfl rfl

lemma syscall_origin {e : Env} (h : syscall s p e = some s')
    (hp : (s.tbl.procs p).state ≠ .UNUSED) (hq : (s'.tbl.procs q).state ≠ .UNUSED) :
    Origin s s' (.syscall p e) q := by
  unfold syscall at h
  split at h
  · rename_i hd
    obtain ⟨s₁, h1, rfl⟩ := Option.map_eq_some_iff.mp h
    exact (handle_origin h1 hd hp hq).congr rfl rfl
  · cases h
    exact .of_eq hq rfl rfl
  · cases h
    exact .of_eq hq rfl rfl

lemma step_origin {a : Act n} (h : step s a = some s') (hq : (s'.tbl.procs q).state ≠ .UNUSED) :
    Origin s s' a q := by
  cases a with
  | user p u =>
    simp only [step] at h
    split_ifs at h
    cases h
    exact .of_eq hq rfl rfl
  | syscall p e =>
    simp only [step] at h
    split_ifs at h with hr
    exact syscall_origin h (by simp [hr]) hq
  | die p =>
    simp only [step] at h
    split_ifs at h with hr
    obtain ⟨t, ht, rfl⟩ := Option.map_eq_some_iff.mp h
    exact .of_eq (Table.kexit_unused (by simp [hr.1]) ht hq) rfl rfl
  | schedule p =>
    simp only [step] at h
    split_ifs at h with hr
    cases h
    exact .of_eq (Table.set_unused (by simp [hr]) hq) rfl rfl
  | yield p =>
    simp only [step] at h
    split_ifs at h with hr
    cases h
    exact .of_eq (Table.set_unused (by simp [hr]) hq) rfl rfl

/-! ### Runs -/

def Inv (s : Sys n) : Prop := ∀ q, (s.tbl.procs q).state ≠ .UNUSED → Holds (s.pol q) (s.policy q)

lemma holds_interpose {u : User} (h : (argstr u u.a1).1 = true) (dst : Buf MAXPATH) :
    Holds ⟨signExtend (argint u.a0), safestrcpy dst (argstr u u.a1).2.get MAXPATH⟩
      (asked u) := by
  rw [argstr_fst] at h
  obtain ⟨str, hstr⟩ := Option.isSome_iff_exists.mp h
  have hlen := userStr_length hstr
  have hcstr := cstr_argstr hstr
  rw [asked, hstr, Option.getD_some]
  refine ⟨?_, ?_, hlen⟩
  · dsimp only
    exact fun k hk => signExtend_argint_testBit u.a0 hk
  · rw [cstr_safestrcpy_path _ (by rwa [hcstr]), hcstr]

lemma Holds.copy {pol : Pol} {π : Policy} (h : Holds pol π) (dst : Buf MAXPATH) :
    Holds ⟨pol.mask, safestrcpy dst pol.allowedPath.get MAXPATH⟩ π := by
  refine ⟨h.mask, ?_, h.short⟩
  rw [cstr_safestrcpy_path _ (by rw [h.path]; exact h.short), h.path]

lemma step_inv (hi : Inv s) {a : Act n} (h : step s a = some s') : Inv s' := by
  intro q hq
  rcases step_origin h hq with
    ⟨hu, h1, h2⟩ | ⟨-, -, ha, -, h1, h2⟩ | ⟨-, -, hu, ⟨dst, h1⟩, h2⟩
  · rw [h1, h2]
    exact hi q hu
  · rw [h1, h2]
    exact holds_interpose ha _
  · rw [h1, h2]
    exact (hi _ hu).copy dst

lemma boot_inv (i : Fin n) (user : Fin n → User) : Inv (boot i user) := by
  intro q hq
  refine ⟨fun k _ => rfl, ?_, Nat.zero_lt_succ _⟩
  exact (cstr_eq_nil (by decide)).mpr (Buf.get_fill_zero _)

lemma reach_inv {i : Fin n} {user : Fin n → User}
    (h : Reach step Always (· = boot i user) s) : Inv s :=
  h.invariant (fun _ h0 => h0 ▸ boot_inv i user) fun _ _ _ hi _ ht => step_inv hi ht

/-! ### The policy in force -/

lemma handle_keeps_policy {e : Env} {h : Handler} (hh : handle s p e h = some s')
    (hk : h = .exec ∨ h = .interpose ∧ userStr (s.user p).mem (s.user p).a1 MAXPATH = none) :
    s'.pol = s.pol ∧ s'.policy = s.policy := by
  rcases hk with rfl | ⟨rfl, hnone⟩
  · cases hh
    exact ⟨rfl, rfl⟩
  · cases hh
    have harg : (argstr (s.user p) (s.user p).a1).1 = false := by rw [argstr_fst, hnone]; rfl
    unfold Sys.sysInterpose
    dsimp only
    rw [harg]
    exact ⟨rfl, rfl⟩

/-- **The policy in force.** In every state of every run, when the process in slot `p` makes
a system call that is in the table:

* the handler runs exactly if the policy of the process permits the call, and it then
  fetches the same string as the check did;
* otherwise the call returns `-1` and changes nothing else;
* `exec` and an `interpose` that fails leave the policy as it is. -/
theorem policy_in_force {i : Fin n} {user : Fin n → User}
    (hs : Reach step Always (· = boot i user) s) (hp : (s.tbl.procs p).state ≠ .UNUSED)
    {h : Handler} (hh : syscalls (.ofNat 32 (s.user p).a7) = some h) :
    let arg := userStr (s.user p).mem (s.user p).a0 MAXPATH
    (dispatch (s.pol p) (s.user p) = .run h ↔ Permits (s.policy p) h arg) ∧
    (Permits (s.policy p) h arg → ∀ e, syscall s p e =
      (handle s p e h).map fun s' =>
        { s' with ran := (p, h, if h = .open ∨ h = .exec then arg else none) :: s'.ran }) ∧
    (¬ Permits (s.policy p) h arg → ∀ e, syscall s p e = some (s.setA0 p minusOne)) ∧
    ∀ e s', handle s p e h = some s' →
      h = .exec ∨ h = .interpose ∧ userStr (s.user p).mem (s.user p).a1 MAXPATH = none →
      s'.pol = s.pol ∧ s'.policy = s.policy := by
  intro arg
  have hiff : dispatch (s.pol p) (s.user p) = .run h ↔ Permits (s.policy p) h arg := by
    rw [dispatch_of_syscalls _ hh]
    exact check_run_iff (reach_inv hs p hp) _ _
  refine ⟨hiff, fun hperm e => ?_, fun hperm e => ?_, fun e s' => handle_keeps_policy⟩
  · rw [syscall, hiff.mpr hperm]
    simp only [entry, argPath_eq, arg]
  · have hblocked : dispatch (s.pol p) (s.user p) = .blocked := by
      rw [← hiff, dispatch_of_syscalls _ hh] at hperm
      rw [dispatch_of_syscalls _ hh]
      exact (check_eq _ _ _).resolve_left hperm
    rw [syscall, hblocked]

/-- User memory with the strings `a` at address 16 and `b` at address 32. -/
def twoStrings : ℕ → Option UInt8
  | 16 => some 97
  | 17 => some 0
  | 32 => some 98
  | 33 => some 0
  | _ => none

def twoSlots : Sys 2 := boot 0 fun _ => ⟨0, 0, 0, twoStrings⟩

/-- The first process allows itself to open only `a`, and then means to open `b`. -/
def openOther : List (Act 2) :=
  [.schedule 0, .user 0 ⟨2 ^ 15, 16, 22, twoStrings⟩,
    .syscall 0 ⟨true, true, true, true, ⟨0, 0, 0, twoStrings⟩⟩,
    .user 0 ⟨32, 0, 15, twoStrings⟩]

theorem policy_in_force_openOther : ∃ s, run step twoSlots openOther = some s ∧
    s.policy 0 = ⟨2 ^ 15, [97]⟩ ∧ ∀ e, syscall s 0 e = some (s.setA0 0 minusOne) := by
  obtain ⟨s, hs⟩ : ∃ s, run step twoSlots openOther = some s := ⟨_, rfl⟩
  have hmap : (run step twoSlots openOther).map
      (fun s => ((s.tbl.procs 0).state, s.user 0, s.policy 0))
      = some (.RUNNING, ⟨32, 0, 15, twoStrings⟩, ⟨2 ^ 15, [97]⟩) := rfl
  rw [hs, Option.map_some, Option.some.injEq, Prod.mk.injEq, Prod.mk.injEq] at hmap
  obtain ⟨hstate, huser, hpolicy⟩ := hmap
  have hnum : syscalls (.ofNat 32 (s.user 0).a7) = some .open := by rw [huser]; rfl
  obtain ⟨-, -, hblocked, -⟩ :=
    policy_in_force (Reach.of_run (.init rfl) hs) (by simp [hstate]) hnum
  refine ⟨s, hs, hpolicy, hblocked ?_⟩
  rw [hpolicy, huser]
  have harg : userStr twoStrings 32 MAXPATH = some [98] := rfl
  rw [Permits, harg]
  decide

end Xv6.SandboxPolicy
