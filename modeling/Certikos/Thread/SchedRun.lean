import Certikos.Thread.Kill
import Mathlib.Data.List.Rotate

/-!
# Every run keeps the scheduler's invariant

Any sequence of the operations that move threads between states, each taken under the condition its callers guarantee.
-/

namespace Certikos
open Lib

inductive SchedOp
  | spawn (pid : Nat)
  | yield
  | update
  | sleep (chan lk : Word)
  | sleepResume
  | wakeup (chan : Word)
  | pause (tf : TrapFrame)
  | kill (tf : TrapFrame)
  | terminate

structure SchedState where
  thread : ThreadState
  spawned : Finset Nat

def schedStep (s : SchedState) (op : SchedOp) : Except (Halt ThreadState) SchedState :=
  let next (r : Except (Halt ThreadState) ThreadState) : Except (Halt ThreadState) SchedState :=
    r.map fun thread => { s with thread := thread }
  match op with
  | .spawn pid => .ok { thread := threadSpawn s.thread pid, spawned := insert pid s.spawned }
  | .yield => next (threadYield s.thread)
  | .update => next (schedUpdate s.thread)
  | .sleep chan lk => next (threadSleep s.thread chan lk)
  | .sleepResume => next (.ok (threadSleepResume s.thread))
  | .wakeup chan => next (.ok (threadWakeup s.thread chan))
  | .pause tf => next ((sysPause s.thread tf).map Prod.fst)
  | .kill tf => next (.ok (sysKill s.thread tf).1)
  | .terminate => next (threadExit (terminateProcess s.thread (getCurid s.thread)))

def SchedOp.Allowed (s : SchedState) : SchedOp → Prop
  | .spawn pid => pid < numIds ∧ pid ∉ s.spawned
  | .sleep _ _ => tqueueGetHead s.thread numIds ≠ numIds
  | .terminate => tqueueGetHead s.thread numIds ≠ numIds
  | _ => True

instance (s : SchedState) : (op : SchedOp) → Decidable (op.Allowed s)
  | .spawn pid => inferInstanceAs (Decidable (pid < numIds ∧ pid ∉ s.spawned))
  | .sleep _ _ => inferInstanceAs (Decidable (tqueueGetHead s.thread numIds ≠ numIds))
  | .terminate => inferInstanceAs (Decidable (tqueueGetHead s.thread numIds ≠ numIds))
  | .yield | .update | .sleepResume | .wakeup _ | .pause _ | .kill _ => .isTrue trivial

def SchedulerInvariant (s : ThreadState) : Prop :=
  ∃ xs, ReadyList s xs ∧ getCurid s ∉ xs ∧ tcbGetState s (getCurid s) ≠ .ready

inductive SchedSafe : Except (Halt ThreadState) SchedState → Prop
  | ok {t : SchedState} (invariant : SchedulerInvariant t.thread) : SchedSafe (.ok t)
  | noLock {u : ThreadState} (invariant : SchedulerInvariant u) :
      SchedSafe (.error (.panic "sleep without lock" u))

structure SchedStart (s : SchedState) : Prop where
  invariant : SchedulerInvariant s.thread
  curid_lt : getCurid s.thread < numIds
  running : tcbGetState s.thread (getCurid s.thread) = .run
  unspawned : ∀ p, p < numIds → p ∉ s.spawned →
    tcbGetState s.thread p = .dead ∧ tcbGetPrev s.thread p = numIds ∧ tcbGetNext s.thread p = numIds

structure SchedInv (s : SchedState) : Prop where
  scheduled : ∃ xs, Scheduled s.thread xs
  unspawned : ∀ p, p < numIds → p ∉ s.spawned → Buried s.thread p

variable {s : SchedState}

theorem SchedStart.inv (h : SchedStart s) : SchedInv s := by
  obtain ⟨xs, ready, -, -⟩ := h.invariant
  refine ⟨⟨xs, ready, h.curid_lt, .inl h.running⟩, fun p lt fresh => ?_⟩
  have dead := (h.unspawned p lt fresh).1
  refine ⟨dead, ?_⟩
  rintro rfl
  simp [h.running] at dead

theorem SchedInv.schedulerInvariant (h : SchedInv s) : SchedulerInvariant s.thread := by
  obtain ⟨xs, scheduled⟩ := h.scheduled
  exact ⟨xs, scheduled.toReadyList, scheduled.cur_not_mem, scheduled.cur_not_ready⟩

theorem ReadyList.cons_of_head {s : ThreadState} {xs : List Nat} (h : ReadyList s xs)
    (head : tqueueGetHead s numIds ≠ numIds) : ∃ p ys, xs = p :: ys := by
  cases xs with
  | nil => exact absurd h.queue.head_eq head
  | cons p ys => exact ⟨p, ys, rfl⟩

theorem SchedInv.of_moves (h : SchedInv s) {thread : ThreadState} {ys : List Nat}
    (scheduled : Scheduled thread ys) (buried : ∀ q, Buried s.thread q → Buried thread q) :
    SchedInv { s with thread := thread } :=
  ⟨⟨ys, scheduled⟩, fun p lt fresh => buried p (h.unspawned p lt fresh)⟩

theorem schedStep_inv (h : SchedInv s) {op : SchedOp} (allowed : op.Allowed s) :
    (∃ s', schedStep s op = .ok s' ∧ SchedInv s') ∨
      schedStep s op = .error (.panic "sleep without lock" s.thread) := by
  obtain ⟨xs, scheduled⟩ := h.scheduled
  cases op with
  | spawn pid =>
    obtain ⟨lt, fresh⟩ := allowed
    obtain ⟨next, -, buried⟩ := threadSpawn_spec scheduled lt (h.unspawned pid lt fresh)
    refine .inl ⟨_, rfl, ⟨_, next⟩, fun p hp unspawned => ?_⟩
    rw [Finset.mem_insert, not_or] at unspawned
    exact buried p unspawned.1 (h.unspawned p hp unspawned.2)
  | yield =>
    obtain ⟨s', ys, yield, next, moves⟩ :=
      threadYield_spec scheduled.toReadyList scheduled.curid_lt scheduled.cur_not_ready
    exact .inl ⟨_, by simp only [schedStep, yield]; rfl, h.of_moves next moves.buried⟩
  | update =>
    obtain ⟨s', ys, update, next, moves⟩ := schedUpdate_spec scheduled
    exact .inl ⟨_, by simp only [schedStep, update]; rfl, h.of_moves next moves.buried⟩
  | sleep chan lk =>
    by_cases hlk : lk = 0
    · exact .inr (by simp only [schedStep, threadSleep, if_pos hlk]; rfl)
    · obtain ⟨p, ys, rfl⟩ := scheduled.cons_of_head allowed
      obtain ⟨s', sleep, next, moves⟩ := threadSleep_spec scheduled chan hlk
      exact .inl ⟨_, by simp only [schedStep, sleep]; rfl, h.of_moves next moves.buried⟩
  | sleepResume =>
    refine .inl ⟨_, rfl, h.of_moves (scheduled.congr ?_ ?_ ?_) fun q b => ?_⟩
    · exact links_setChan ..
    · exact fun q => state_setChan ..
    · exact curid_setChan ..
    · simpa [Buried, threadSleepResume] using b
  | wakeup chan =>
    obtain ⟨ys, next, wakes⟩ := threadWakeup_spec chan scheduled
    exact .inl ⟨_, rfl, h.of_moves next fun q => wakes.buried⟩
  | pause tf =>
    obtain ⟨s', ys, pause, next, moves⟩ := sysPause_spec scheduled tf
    exact .inl ⟨_, by simp only [schedStep, pause]; rfl, h.of_moves next moves.buried⟩
  | kill tf =>
    obtain ⟨⟨ys, next⟩, buried⟩ := sysKill_spec scheduled tf
    exact .inl ⟨_, rfl, h.of_moves next buried⟩
  | terminate =>
    obtain ⟨p, ys, rfl⟩ := scheduled.cons_of_head allowed
    obtain ⟨s', exit, next, -, -, buried⟩ := terminateExit_spec scheduled
    exact .inl ⟨_, by simp only [schedStep, exit]; rfl, h.of_moves next buried⟩

/-- From any state with its unspawned threads DEAD, every sequence of operations keeps the
scheduler's invariant, also where it stops because a thread sleeps without a lock. -/
theorem run_schedulerInvariant (s : SchedState) (start : SchedStart s) (ops : List SchedOp)
    (allowed : Along schedStep (fun s op => op.Allowed s) s ops) :
    SchedSafe (run schedStep s ops) := by
  have inv := start.inv
  clear start
  induction ops generalizing s with
  | nil => exact .ok inv.schedulerInvariant
  | cons op ops ih =>
    rcases schedStep_inv inv allowed.1 with ⟨s', step, next⟩ | panic
    · simp only [run, step]
      exact ih s' (allowed.2 s' step) next
    · simp only [run, panic]
      exact .noLock inv.schedulerInvariant

theorem idle_schedStart : SchedStart ⟨idleThreads, {0}⟩ := by
  refine ⟨⟨[], idle_ready, List.not_mem_nil, by decide⟩, by decide, rfl, fun p lt fresh => ?_⟩
  have hp : p ≠ 0 := by simpa using fresh
  exact ⟨if_neg hp, rfl, rfl⟩

def killOps : List SchedOp :=
  [.spawn 1, .spawn 2, .spawn 3, .yield, .kill (syscallFrame .kill 2 9 0), .pause (syscallFrame .pause 0 0 0),
    .sleep 5 1, .terminate]

theorem killOps_allowed : Along schedStep (fun s op => op.Allowed s) ⟨idleThreads, {0}⟩ killOps := by
  decide +kernel

theorem run_schedulerInvariant_killOps : SchedSafe (run schedStep ⟨idleThreads, {0}⟩ killOps) :=
  run_schedulerInvariant ⟨idleThreads, {0}⟩ idle_schedStart killOps killOps_allowed

end Certikos
