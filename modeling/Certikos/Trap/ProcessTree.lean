import Certikos.Trap.System

/-!
# Processes, once and for all

The pids form a tree: the children of `id` are `3 * id + 1`, `3 * id + 2` and `3 * id + 3`, given out in this order
and counted in its container.
-/

namespace Certikos
open Lib

def Spawned (vm : VmState) (p : Nat) : Prop :=
  p = 0 ∨ (p - 1) % maxChildren < (containerGetNchildren vm ((p - 1) / maxChildren)).toNat
deriving Decidable

structure Booted (k : KState) : Prop where
  scheduled : ∃ xs, Scheduled k.thread xs
  unspawned : ∀ p, p < numIds → ¬Spawned k.vm p → Buried k.thread p ∧ containerGetNchildren k.vm p = 0#32

/-- A process spawns only as long as it has fewer than `MAX_CHILDREN` children. `sys_spawn` means to check this,
but reads the number of children of another process. -/
def Event.SpawnsInRange (k : KState) : Event → Prop
  | .spawn _ _ => (containerGetNchildren k.vm (getCurid k.thread)).toNat < maxChildren
  | _ => True

instance (k : KState) : (e : Event) → Decidable (e.SpawnsInRange k)
  | .spawn _ _ => inferInstanceAs (Decidable (_ < _))
  | .kill _ | .pause _ | .yield | .sigaction _ _ | .sigreturn _ _ | .readline _ _ _ | .pageFault _ _ | .timer
  | .sleep _ _ | .sleepResume | .wakeup _ | .copy _ _ _ _ | .store _ | .trapReturn _ _ => .isTrue trivial

section Tree

variable {k k' : KState}

theorem spawned_congr {vm vm' : VmState} (h : SameChildren vm vm') (p : Nat) : Spawned vm' p ↔ Spawned vm p := by
  unfold Spawned
  rw [h.nchildren]

theorem Booted.of_moved (h : Booted k) (moved : Moved k k') : Booted k' := by
  refine ⟨moved.scheduled, fun p lt fresh => ?_⟩
  obtain ⟨buried, none⟩ := h.unspawned p lt fun spawned => fresh ((spawned_congr moved.children p).2 spawned)
  exact ⟨moved.buried p buried, (moved.children.nchildren p).trans none⟩

section

variable (parent : getCurid k.thread * maxChildren + 1 + maxChildren ≤ numIds)
  (room : (containerGetNchildren k.vm (getCurid k.thread)).toNat < maxChildren)
include parent room

theorem nextChild_eq :
    nextChild k = getCurid k.thread * maxChildren + 1 + (containerGetNchildren k.vm (getCurid k.thread)).toNat :=
  containerSplit_child 0#32 (by omega) room

theorem nextChild_fresh : ¬Spawned k.vm (nextChild k) := by
  rw [nextChild_eq parent room]
  generalize count : (containerGetNchildren k.vm (getCurid k.thread)).toNat = nc at room
  have index : (getCurid k.thread * maxChildren + 1 + nc - 1) / maxChildren = getCurid k.thread := by
    simp only [maxChildren] at *
    omega
  rintro (zero | less)
  · omega
  · rw [index, count] at less
    simp only [maxChildren] at *
    omega

end

theorem nchildren_split (vm : VmState) (id : Nat) (quota : Word) (q : Nat) :
    containerGetNchildren (containerSplit vm id quota).1 q = if q = id then containerGetNchildren vm id + 1#32
      else if q = (containerSplit vm id quota).2 then 0#32 else containerGetNchildren vm q := by
  unfold containerGetNchildren
  rw [container_split]
  split
  · rfl
  · split
    · rfl
    · rfl

section Spawn

variable {quota : Word} {vm : VmState} (h : Booted k)
variable (parent : getCurid k.thread * maxChildren + 1 + maxChildren ≤ numIds)
variable (room : (containerGetNchildren k.vm (getCurid k.thread)).toNat < maxChildren) (lt : nextChild k < numIds)
variable (children : SameChildren (containerSplit k.vm (getCurid k.thread) quota).1 vm)
include h parent room lt children

theorem spawned_split (p : Nat) : Spawned vm p ↔ Spawned k.vm p ∨ p = nextChild k := by
  have eq := nextChild_eq parent room
  have childless := (h.unspawned _ lt (nextChild_fresh parent room)).2
  have more : (containerGetNchildren k.vm (getCurid k.thread) + 1#32).toNat =
      (containerGetNchildren k.vm (getCurid k.thread)).toNat + 1 := by
    simp only [maxChildren] at room
    rw [BitVec.toNat_add_of_lt]
    · rfl
    · simp only [BitVec.toNat_ofNat]
      omega
  unfold Spawned
  rw [children.nchildren, nchildren_split]
  by_cases zero : p = 0
  · simp [zero]
  · by_cases cur : (p - 1) / maxChildren = getCurid k.thread
    · rw [if_pos cur, more, cur]
      simp only [maxChildren] at *
      omega
    · rw [if_neg cur]
      have other : p ≠ nextChild k := by
        simp only [maxChildren] at *
        omega
      split
      · rename_i child
        have same : (containerSplit k.vm (getCurid k.thread) quota).2 = nextChild k := rfl
        rw [child, same, childless]
        simp [other]
      · simp [other]

theorem Booted.spawned : Booted ⟨threadSpawn k.thread (nextChild k), vm⟩ := by
  obtain ⟨buried, -⟩ := h.unspawned _ lt (nextChild_fresh parent room)
  obtain ⟨xs, scheduled⟩ := h.scheduled
  obtain ⟨next, -, others⟩ := threadSpawn_spec scheduled lt buried
  refine ⟨⟨_, next⟩, fun p hp unspawned => ?_⟩
  rw [spawned_split h parent room lt children, not_or] at unspawned
  obtain ⟨gone, none⟩ := h.unspawned p hp unspawned.1
  refine ⟨others p unspawned.2 gone, ?_⟩
  have count := (children.nchildren p).trans (nchildren_split ..)
  rw [if_neg (Ne.symm gone.2)] at count
  exact count.trans ((if_neg unspawned.2).trans none)

end Spawn

structure Grown (k k' : KState) : Prop where
  booted : Booted k'
  spawned : ∀ p, Spawned k.vm p → Spawned k'.vm p
  gone : ∀ p, Spawned k.vm p → Buried k.thread p → Buried k'.thread p

theorem Grown.of_moved (h : Booted k) (moved : Moved k k') : Grown k k' :=
  ⟨h.of_moved moved, fun p => (spawned_congr moved.children p).2, fun p _ => moved.buried p⟩

theorem Stepped.grown {e : Event} (h : Booted k) (range : e.SpawnsInRange k) (stepped : Stepped k e k') :
    Grown k k' := by
  obtain ⟨xs, scheduled⟩ := h.scheduled
  cases stepped with
  | quiet same moved => exact .of_moved h moved
  | posted pid signum posts pending context moved => exact .of_moved h moved
  | killed pid arg signal lt alive =>
    exact .of_moved h (.of_thread ⟨_, scheduled.terminate lt⟩ fun q b => b.terminate)
  | spawned quota vm parent lt children =>
    have fresh := nextChild_fresh parent range
    obtain ⟨-, -, others⟩ := threadSpawn_spec scheduled lt (h.unspawned _ lt fresh).1
    refine ⟨h.spawned parent range lt children, fun p old => ?_, fun p old buried => others p ?_ buried⟩
    · exact (spawned_split h parent range lt children p).2 (.inl old)
    · rintro rfl
      exact fresh old
  | returned vm children => exact .of_moved h ((onlySignals_clearContext ..).moved scheduled children)
  | delivered signum first catchable handler =>
    exact .of_moved h (delivered_moved scheduled _ _ (firstSignal_eq_some.1 first).1.2 handler)
  | ended signum first fatal exit => exact .of_moved h (ended_ok scheduled exit).1

/-! ## SIGKILL -/

def Event.Lawful (k : KState) : Event → Prop
  | .kill tf => (syscallGetArg3 tf).toInt = sigkill → (syscallGetArg2 tf).toInt ≠ getCurid k.thread
  | e => e.SpawnsInRange k

instance (k : KState) : (e : Event) → Decidable (e.Lawful k)
  | .kill _ => inferInstanceAs (Decidable (_ → _))
  | .spawn _ _ => inferInstanceAs (Decidable (_ < _))
  | .pause _ | .yield | .sigaction _ _ | .sigreturn _ _ | .readline _ _ _ | .pageFault _ _ | .timer | .sleep _ _
  | .sleepResume | .wakeup _ | .copy _ _ _ _ | .store _ | .trapReturn _ _ => .isTrue trivial

theorem Event.Lawful.inRange {e : Event} (h : e.Lawful k) : e.SpawnsInRange k := by
  cases e with
  | kill tf => trivial
  | _ => exact h

structure Gone (s : ThreadState) (pid : Nat) : Prop where
  dead : tcbGetState s pid = .dead
  notCurrent : getCurid s ≠ pid
  notQueued : ∃ xs, QueueOf s numIds xs ∧ pid ∉ xs

theorem Buried.gone {s : ThreadState} {xs : List Nat} {p : Nat} (b : Buried s p) (scheduled : Scheduled s xs) :
    Gone s p :=
  ⟨b.1, b.2, xs, scheduled.queue, scheduled.not_mem (by simp [b.1])⟩

theorem sysKill_sigkill {s : ThreadState} {tf : TrapFrame} {pid : Nat} (arg : (syscallGetArg2 tf).toInt = pid)
    (signal : (syscallGetArg3 tf).toInt = sigkill) (succ : syscallGetArg1 (sysKill s tf).2 = ErrorNr.succ.code) :
    pid < numIds ∧ tcbGetState s pid ≠ .dead ∧ (sysKill s tf).1 = terminateProcess s pid := by
  cases killed : sysKill s tf with
  | mk s' tf' =>
    rw [killed] at succ
    cases killed ▸ sysKill_cases s tf with
    | invalSignum => exact absurd succ (show ErrorNr.invalSignum.code ≠ ErrorNr.succ.code by decide)
    | invalPid => exact absurd succ (show ErrorNr.invalPid.code ≠ ErrorNr.succ.code by decide)
    | terminated target arg' lt alive kill =>
      obtain rfl : target = pid := by exact_mod_cast arg'.symm.trans arg
      exact ⟨lt, alive, rfl⟩
    | posted target arg' lt alive signum signal' pos bound notKill =>
      exact absurd (by exact_mod_cast signal'.symm.trans signal) notKill

theorem run_booted {images : Nat → Word} (h : Booted k) {es : List Event}
    (range : Along (step images) (fun k e => e.SpawnsInRange k) k es) (reached : run (step images) k es = .ok k') :
    Booted k' :=
  run_invariant Booted
    (fun _ _ _ booted inRange next => ((step_cases booted.scheduled next).grown booted inRange).booted) h range reached

end Tree

theorem along_inRange {images : Nat → Word} {k : KState} {es : List Event}
    (h : Along (step images) (fun k e => e.Lawful k) k es) :
    Along (step images) (fun k e => e.SpawnsInRange k) k es := by
  induction es generalizing k with
  | nil => trivial
  | cons e es ih => exact ⟨h.1.inRange, fun k' next => ih (h.2 k' next)⟩

/-- Once `sys_kill(pid, SIGKILL)` has succeeded, the process is gone in every state the system reaches. -/
theorem run_sigkill_gone (images : Nat → Word) (start : KState) (booted : Booted start) (es fs : List Event)
    (tf : TrapFrame) (pid : Nat)
    (lawful : Along (step images) (fun k e => e.Lawful k) start (es ++ .kill tf :: fs))
    (k k' : KState) (before : run (step images) start es = .ok k)
    (arg : (syscallGetArg2 tf).toInt = pid) (signal : (syscallGetArg3 tf).toInt = sigkill)
    (succ : syscallGetArg1 (sysKill k.thread tf).2 = ErrorNr.succ.code)
    (after : run (step images) k (.kill tf :: fs) = .ok k') : Gone k'.thread pid := by
  have here := run_booted booted (along_inRange lawful.left) before
  have rest := lawful.append before
  obtain ⟨lt, alive, killed⟩ := sysKill_sigkill arg signal succ
  obtain ⟨k₁, next, later⟩ := run_cons after
  -- the pid was spawned, so that nobody gets it again
  have spawned : Spawned k.vm pid := by
    by_contra fresh
    exact alive (here.unspawned pid lt fresh).1.1
  have other : getCurid k.thread ≠ pid := fun cur => rest.1 signal (by rw [arg, cur])
  have buried : Spawned k₁.vm pid ∧ Buried k₁.thread pid := by
    cases next
    refine ⟨spawned, ?_⟩
    rw [killed]
    exact ⟨by rw [terminateProcess_state, if_pos rfl], by rw [terminateProcess_curid]; exact other⟩
  have booted₁ := ((step_cases here.scheduled next).grown here rest.1.inRange).booted
  obtain ⟨final, -, gone⟩ := run_invariant (fun k => Booted k ∧ Spawned k.vm pid ∧ Buried k.thread pid)
    (fun k e k' inv inRange next =>
      have grown := (step_cases inv.1.scheduled next).grown inv.1 inRange
      ⟨grown.booted, grown.spawned pid inv.2.1, grown.gone pid inv.2.1 inv.2.2⟩)
    ⟨booted₁, buried⟩ (along_inRange (rest.2 k₁ next)) later
  obtain ⟨xs, scheduled⟩ := final.scheduled
  exact gone.gone scheduled

def threeProcesses : KState where
  thread := threadSpawn (threadSpawn idleThreads 1) 2
  vm := modifyContainer blankVm 0 fun c => { c with nchildren := 2 }

theorem threeProcesses_booted : Booted threeProcesses := by
  have idle (p : Nat) (hp : p ≠ 0) : Buried idleThreads p := ⟨if_neg hp, Ne.symm hp⟩
  have alone : Scheduled idleThreads [] := ⟨idle_ready, by decide, .inl rfl⟩
  obtain ⟨one, -, others₁⟩ := threadSpawn_spec alone (by decide) (idle 1 (by decide))
  obtain ⟨two, -, others₂⟩ := threadSpawn_spec one (by decide) (others₁ 2 (by decide) (idle 2 (by decide)))
  refine ⟨⟨_, two⟩, fun p lt fresh => ?_⟩
  have zero : p ≠ 0 := fun e => fresh (.inl e)
  have neOne : p ≠ 1 := by
    rintro rfl
    exact fresh (by decide)
  have neTwo : p ≠ 2 := by
    rintro rfl
    exact fresh (by decide)
  refine ⟨others₂ p neTwo (others₁ p neOne (idle p zero)), ?_⟩
  unfold containerGetNchildren threeProcesses modifyContainer
  dsimp only
  rw [Function.update_of_ne zero]
  rfl

def killFrame (pid : Word) : TrapFrame := syscallFrame .kill pid 9 0

def killRun (pid : Word) (rest : List Event) : List Event :=
  [.yield] ++ .kill (killFrame pid) :: .trapReturn stackBuf (killFrame pid) :: rest

theorem killOther_lawful : Along (step fun _ => 0) (fun k e => e.Lawful k) threeProcesses (killRun 2 [.yield]) := by
  decide +kernel

theorem killOther_succ : Reaches (run (step fun _ => 0) threeProcesses [.yield])
    fun k => syscallGetArg1 (sysKill k.thread (killFrame 2)).2 = ErrorNr.succ.code := by
  decide +kernel

theorem killOther_reaches : Reaches (run (step fun _ => 0) threeProcesses (killRun 2 [.yield])) fun _ => True := by
  decide +kernel

theorem run_sigkill_gone_other :
    Reaches (run (step fun _ => 0) threeProcesses (killRun 2 [.yield])) fun k => Gone k.thread 2 := by
  obtain ⟨k', whole, -⟩ := killOther_reaches
  obtain ⟨k, before, succ⟩ := killOther_succ
  refine ⟨k', whole, ?_⟩
  unfold killRun at whole
  obtain ⟨k₁, before₁, after⟩ := run_append whole
  rw [before] at before₁
  cases before₁
  exact run_sigkill_gone (fun _ => 0) threeProcesses threeProcesses_booted [.yield] _ (killFrame 2) 2
    killOther_lawful k k' before (by decide) (by decide) succ after

theorem sigkill_self_runs :
    Reaches (run (step fun _ => 0) threeProcesses [.yield])
      (fun k => getCurid k.thread = 1 ∧ syscallGetArg1 (sysKill k.thread (killFrame 1)).2 = ErrorNr.succ.code) ∧
    Reaches (run (step fun _ => 0) threeProcesses (killRun 1 []))
      (fun k => tcbGetState k.thread 1 = .dead ∧ getCurid k.thread = 1) ∧
    Reaches (run (step fun _ => 0) threeProcesses (killRun 1 [.yield]))
      (fun k => tcbGetState k.thread 1 = .ready ∧ tqueueGetTail k.thread numIds = 1) ∧
    Reaches (run (step fun _ => 0) threeProcesses (killRun 1 [.yield, .yield, .yield]))
      (fun k => tcbGetState k.thread 1 = .run ∧ getCurid k.thread = 1) := by
  decide +kernel

end Certikos
