import Certikos.Trap.ProcessTree

/-!
# Admission to the process tree

`sys_spawn` means to let a process create a child only if its container has room: quota for the child and fewer than
`MAX_CHILDREN` children.
-/

namespace Certikos
open Lib

structure HasRoom (vm : VmState) (id : Nat) (quota : Word) : Prop where
  usage : (vm.container id).usage.toNat + quota.toNat ≤ (vm.container id).quota.toNat
  children : (containerGetNchildren vm id).toNat < maxChildren

instance (vm : VmState) (id : Nat) (quota : Word) : Decidable (HasRoom vm id quota) :=
  decidable_of_iff (_ ∧ _) ⟨fun h => ⟨h.1, h.2⟩, fun h => ⟨h.usage, h.children⟩⟩

def returnedPid (tf : TrapFrame) : Option Word :=
  if syscallGetArg1 tf = ErrorNr.succ.code then some (syscallGetArg2 tf) else none

def spawnedPid (images : Nat → Word) (k : KState) (tf : TrapFrame) (junk : Nat) : Option Word :=
  match sysSpawn images k tf junk with
  | .ok (_, tf') => returnedPid tf'
  | .error _ => none

structure Admitted (images : Nat → Word) (k : KState) (tf : TrapFrame) (junk : Nat) : Prop where
  quota : containerCanConsume k.vm junk (syscallGetArg3 tf) = true
  parent : getCurid k.thread * maxChildren + 1 + maxChildren ≤ numIds
  children : containerGetNchildren k.vm junk ≠ BitVec.ofNat 32 maxChildren
  elf : 1 ≤ (syscallGetArg2 tf).toNat ∧ (syscallGetArg2 tf).toNat ≤ 8
  loads : (procCreate k (images (syscallGetArg2 tf).toNat) (syscallGetArg3 tf)).isOk = true

instance (images : Nat → Word) (k : KState) (tf : TrapFrame) (junk : Nat) : Decidable (Admitted images k tf junk) :=
  decidable_of_iff (_ ∧ _ ∧ _ ∧ _ ∧ _)
    ⟨fun h => ⟨h.1, h.2.1, h.2.2.1, h.2.2.2.1, h.2.2.2.2⟩, fun h => ⟨h.quota, h.parent, h.children, h.elf, h.loads⟩⟩

section Call

variable {images : Nat → Word} {k k' : KState} {tf : TrapFrame} {junk : Nat}

inductive SpawnCases (images : Nat → Word) (k : KState) (tf : TrapFrame) (junk : Nat) :
    Except (Halt KState) (KState × TrapFrame) → Prop
  | refused (errno : ErrorNr) (fails : errno ≠ .succ) (unfit : ¬Admitted images k tf junk) :
      SpawnCases images k tf junk (.ok (k, syscallSetRetval1 (syscallSetErrno tf errno) (BitVec.ofNat 32 numIds)))
  | halted (halt : Halt KState) (unfit : ¬Admitted images k tf junk) : SpawnCases images k tf junk (.error halt)
  | created (vm : VmState) (admitted : Admitted images k tf junk) (lt : nextChild k < numIds)
      (children : SameChildren (containerSplit k.vm (getCurid k.thread) (syscallGetArg3 tf)).1 vm) :
      SpawnCases images k tf junk (.ok (⟨threadSpawn k.thread (nextChild k), vm⟩,
        syscallSetRetval1 (syscallSetErrno tf .succ) (BitVec.ofNat 32 (nextChild k))))

theorem sysSpawn_cases (images : Nat → Word) (k : KState) (tf : TrapFrame) (junk : Nat) :
    SpawnCases images k tf junk (sysSpawn images k tf junk) := by
  unfold sysSpawn
  dsimp only
  split
  · rename_i exceeds
    exact .refused _ (by decide) fun h => by simp [h.quota] at exceeds
  split
  · rename_i beyond
    exact .refused _ (by decide) fun h => Nat.not_lt.2 h.parent beyond
  split
  · rename_i full
    exact .refused _ (by decide) fun h => h.children full
  split
  · rename_i quota parent children elf
    cases created : procCreate k (images (syscallGetArg2 tf).toNat) (syscallGetArg3 tf) with
    | error halt =>
      refine .halted halt fun h => ?_
      have loads := h.loads
      rw [created] at loads
      contradiction
    | ok p =>
      obtain ⟨k', pid⟩ := p
      obtain ⟨rfl, lt, vm, sameChildren, rfl⟩ := procCreate_ok created
      dsimp only
      rw [if_neg (ne_of_lt lt)]
      refine .created vm ⟨by simpa using quota, not_lt.mp parent, children, elf, ?_⟩ lt sameChildren
      rw [created]
      rfl
  · rename_i unknown
    exact .refused _ (by decide) fun h => unknown h.elf

theorem errno_ne_succ {errno : ErrorNr} (h : errno ≠ .succ) : errno.code ≠ ErrorNr.succ.code := by
  cases errno with
  | succ => exact absurd rfl h
  | _ => decide

theorem spawnedPid_eq_some {pid : Word} : spawnedPid images k tf junk = some pid ↔
    Admitted images k tf junk ∧ nextChild k < numIds ∧ pid = BitVec.ofNat 32 (nextChild k) := by
  have result := sysSpawn_cases images k tf junk
  unfold spawnedPid
  generalize sysSpawn images k tf junk = r at result ⊢
  cases result with
  | refused errno fails unfit =>
    simp [returnedPid, syscallSetErrno, syscallSetRetval1, syscallGetArg1, errno_ne_succ fails, unfit]
  | halted halt unfit => simp [unfit]
  | created vm admitted lt children =>
    simp [returnedPid, syscallSetErrno, syscallSetRetval1, syscallGetArg1, syscallGetArg2, admitted, lt, eq_comm]

theorem Admitted.lt (h : Admitted images k tf junk) : nextChild k < numIds := by
  have result := sysSpawn_cases images k tf junk
  generalize sysSpawn images k tf junk = r at result
  cases result with
  | refused errno fails unfit => exact absurd h unfit
  | halted halt unfit => exact absurd h unfit
  | created vm admitted lt children => exact lt

end Call

/-! ## Runs -/

def Event.SpawnsWithRoom (images : Nat → Word) (k : KState) : Event → Prop
  | .spawn tf junk => Admitted images k tf junk → HasRoom k.vm (getCurid k.thread) (syscallGetArg3 tf)
  | _ => True

instance (images : Nat → Word) (k : KState) : (e : Event) → Decidable (e.SpawnsWithRoom images k)
  | .spawn _ _ => inferInstanceAs (Decidable (_ → _))
  | .kill _ | .pause _ | .yield | .sigaction _ _ | .sigreturn _ _ | .readline _ _ _ | .pageFault _ _ | .timer
  | .sleep _ _ | .sleepResume | .wakeup _ | .copy _ _ _ _ | .store _ | .trapReturn _ _ => .isTrue trivial

def returnedPids (images : Nat → Word) : KState → List Event → List Word
  | _, [] => []
  | k, e :: es =>
    let here := match e with
      | .spawn tf junk => (spawnedPid images k tf junk).toList
      | _ => []
    here ++ match step images k e with
      | .ok k' => returnedPids images k' es
      | .error _ => []

section Runs

variable {images : Nat → Word} {k k' : KState} {e : Event} {es : List Event}

theorem step_grown (h : Booted k) (room : e.SpawnsWithRoom images k) (next : step images k e = .ok k') :
    Grown k k' := by
  have stepped := step_cases h.scheduled next
  cases e with
  | spawn tf junk =>
    by_cases admitted : Admitted images k tf junk
    · apply stepped.grown h
      exact (room admitted).children
    · obtain ⟨tf', call⟩ := map_fst_ok next
      have result := sysSpawn_cases images k tf junk
      rw [call] at result
      cases result with
      | refused errno fails unfit => exact ⟨h, fun _ => id, fun _ _ => id⟩
      | created vm admits lt children => exact absurd admits admitted
  | _ =>
    apply stepped.grown h
    trivial

theorem run_grown (h : Booted k) (room : Along (step images) (fun k e => e.SpawnsWithRoom images k) k es)
    (reached : run (step images) k es = .ok k') : Grown k k' :=
  run_invariant (Grown k)
    (fun _ _ _ inv room next =>
      have grown := step_grown inv.booted room next
      ⟨grown.booted, fun p old => grown.spawned p (inv.spawned p old),
        fun p old buried => grown.gone p (inv.spawned p old) (inv.gone p old buried)⟩)
    ⟨h, fun _ => id, fun _ _ => id⟩ room reached

theorem toNat_nextChild (lt : nextChild k < numIds) : (BitVec.ofNat 32 (nextChild k)).toNat = nextChild k := by
  simp only [numIds] at lt
  rw [BitVec.toNat_ofNat]
  omega

theorem Admitted.fresh (h : Booted k) {tf : TrapFrame} {junk : Nat} (admitted : Admitted images k tf junk)
    (room : HasRoom k.vm (getCurid k.thread) (syscallGetArg3 tf)) :
    ¬Spawned k.vm (nextChild k) ∧ Gone k.thread (nextChild k) := by
  have fresh := nextChild_fresh admitted.parent room.children
  obtain ⟨xs, scheduled⟩ := h.scheduled
  exact ⟨fresh, (h.unspawned _ admitted.lt fresh).1.gone scheduled⟩

theorem spawnedPid_spawned (h : Booted k) {tf : TrapFrame} {junk : Nat} {pid : Word}
    (room : Event.SpawnsWithRoom images k (.spawn tf junk)) (returned : spawnedPid images k tf junk = some pid)
    (next : step images k (.spawn tf junk) = .ok k') : Spawned k'.vm pid.toNat := by
  obtain ⟨admitted, lt, rfl⟩ := spawnedPid_eq_some.1 returned
  rw [toNat_nextChild lt]
  obtain ⟨tf', call⟩ := map_fst_ok next
  have result := sysSpawn_cases images k tf junk
  rw [call] at result
  cases result with
  | refused errno fails unfit => exact absurd admitted unfit
  | created vm _ lt children =>
    exact (spawned_split h admitted.parent (room admitted).children lt children _).2 (.inr rfl)

theorem returnedPids_spawned (h : Booted k) (room : Along (step images) (fun k e => e.SpawnsWithRoom images k) k es)
    (reached : run (step images) k es = .ok k') {pid : Word} (returned : pid ∈ returnedPids images k es) :
    Spawned k'.vm pid.toNat := by
  induction es generalizing k with
  | nil => cases returned
  | cons e es ih =>
    obtain ⟨k₁, next, rest⟩ := run_cons reached
    have here := step_grown h room.1 next
    unfold returnedPids at returned
    rw [next] at returned
    rcases List.mem_append.1 returned with now | later
    · cases e with
      | spawn tf junk =>
        have taken := spawnedPid_spawned h room.1 (Option.mem_toList.1 now) next
        exact (run_grown here.booted (room.2 k₁ next) rest).spawned _ taken
      | _ => cases now
    · exact ih here.booted (room.2 k₁ next) rest later

end Runs

def emptyElf : Mem := fun a =>
  match a.toNat with
  | 0 => 0x7f | 1 => 0x45 | 2 => 0x4c | 3 => 0x46
  | 32 => 64 | 50 => 1 | 108 => 3
  | _ => 0

def fullFamily : KState where
  thread := threadSpawn idleThreads 1
  vm := { modifyContainer blankVm 0 fun c => { c with usage := 100, nchildren := 3 } with mem := emptyElf }

theorem fullFamily_booted : Booted fullFamily := by
  have idle (p : Nat) (hp : p ≠ 0) : Buried idleThreads p := ⟨if_neg hp, Ne.symm hp⟩
  have alone : Scheduled idleThreads [] := ⟨idle_ready, by decide, .inl rfl⟩
  obtain ⟨one, -, others⟩ := threadSpawn_spec alone (by decide) (idle 1 (by decide))
  refine ⟨⟨_, one⟩, fun p lt fresh => ?_⟩
  have other (q : Nat) (spawned : Spawned fullFamily.vm q) : p ≠ q := fun e => fresh (e ▸ spawned)
  refine ⟨others p (other 1 (by decide)) (idle p (other 0 (.inl rfl))), ?_⟩
  unfold containerGetNchildren fullFamily modifyContainer
  dsimp only
  rw [Function.update_of_ne (other 0 (.inl rfl))]
  rfl

def spawnFrame : TrapFrame := syscallFrame .spawn 1 10 0

def firstGrandchild : List Event := [.yield, .spawn spawnFrame 1]

theorem firstGrandchild_along : Along (step fun _ => 0) (fun k e => e.SpawnsWithRoom (fun _ => 0) k) fullFamily
    (firstGrandchild ++ [.spawn spawnFrame 1]) := by
  decide +kernel

theorem secondGrandchild_spawned : Reaches (run (step fun _ => 0) fullFamily firstGrandchild)
    fun k => spawnedPid (fun _ => 0) k spawnFrame 1 = some 5 := by
  decide +kernel

end Certikos
