import Certikos.Trap.ProcessTree

/-!
# Waiting for a signal

`sys_pause` marks the current thread as asleep and yields. `thread_yield` marks the thread that yields as ready and puts
it back into the ready queue, so that nobody ever waits.
-/

namespace Certikos
open Lib

def stateOf : Except (Halt KState) KState → KState
  | .ok k => k
  | .error (.panic _ k) => k
  | .error (.wildAccess k) => k

structure Waits (s : ThreadState) (p : Nat) : Prop where
  notCurrent : getCurid s ≠ p
  notReady : tcbGetState s p ≠ .ready
  notQueued : ∀ xs, QueueOf s numIds xs → p ∉ xs

def Unposted (images : Nat → Word) (p : Nat) (k : KState) (es : List Event) : Prop :=
  Along (step images) (fun k e => ∀ signum, ¬Posts k e p signum) k es

structure WaitsForSignal (images : Nat → Word) (k : KState) (tf : TrapFrame) (after : List Event) (p : Nat) : Prop where
  waits : ∀ mid rest, after = mid ++ rest → Unposted images p k (.pause tf :: mid) →
    Waits (stateOf (run (step images) k (.pause tf :: mid))).thread p
  wakes : ∀ mid tf' rest k' signum, after = mid ++ .kill tf' :: rest → Unposted images p k (.pause tf :: mid) →
    run (step images) k (.pause tf :: mid) = .ok k' → Posts k' (.kill tf') p signum →
    tcbGetState (stateOf (step images k' (.kill tf'))).thread p = .ready

def PauseWaits (images : Nat → Word) (start : KState) (es : List Event) : Prop :=
  ∀ before tf after, es = before ++ .pause tf :: after → ∀ k, run (step images) start before = .ok k →
    tcbGetPendingSignals k.thread (getCurid k.thread) = 0#32 → WaitsForSignal images k tf after (getCurid k.thread)

theorem threadYield_not_waits (s : ThreadState) (vm : VmState) :
    ¬Waits (stateOf ((⟨s, vm⟩ : KState).onThread (threadYield s))).thread (getCurid s) := by
  intro waits
  have enqueued := onlyLinks_tqueueEnqueue (tcbSetState s (getCurid s) .ready) numIds (getCurid s)
  have dequeued :=
    onlyLinks_tqueueDequeue (tqueueEnqueue (tcbSetState s (getCurid s) .ready) numIds (getCurid s)) numIds
  unfold threadYield switchTo at waits
  dsimp only at waits
  generalize tqueueDequeue (tqueueEnqueue (tcbSetState s (getCurid s) .ready) numIds (getCurid s)) numIds = popped at *
  split at waits
  · by_cases own : popped.2 = getCurid s
    · exact waits.notCurrent ((curid_setCurid ..).trans own)
    · apply waits.notReady
      change tcbGetState (setCurid (tcbSetState popped.1 popped.2 .run) popped.2) (getCurid s) = .ready
      rw [state_setCurid, state_setState, if_neg (Ne.symm own), dequeued.state, enqueued.state, state_setState,
        if_pos rfl]
  · apply waits.notCurrent
    exact dequeued.curid.trans enqueued.curid

variable (images : Nat → Word) (tf : TrapFrame)

theorem run_single (k : KState) (e : Event) : run (step images) k [e] = step images k e := by
  unfold run
  cases step images k e with
  | ok k' => rfl
  | error halt => rfl

theorem pause_step {images : Nat → Word} {k : KState}
    (quiet : tcbGetPendingSignals k.thread (getCurid k.thread) = 0#32) :
    step images k (.pause tf) = k.onThread (threadYield (tcbSetState k.thread (getCurid k.thread) .sleep)) := by
  rw [step, sysPause, if_neg (show ¬tcbGetPendingSignals k.thread (getCurid k.thread) ≠ 0 from not_not.2 quiet)]
  cases threadYield (tcbSetState k.thread (getCurid k.thread) .sleep) with
  | ok s => rfl
  | error halt => rfl

theorem pause_not_waits {k : KState}
    (quiet : tcbGetPendingSignals k.thread (getCurid k.thread) = 0#32) :
    ¬Waits (stateOf (step images k (.pause tf))).thread (getCurid k.thread) := by
  rw [pause_step tf quiet]
  exact threadYield_not_waits (tcbSetState k.thread (getCurid k.thread) .sleep) k.vm

theorem pause_queued {k : KState} {xs : List Nat} (scheduled : Scheduled k.thread xs)
    (tf : TrapFrame) (quiet : tcbGetPendingSignals k.thread (getCurid k.thread) = 0#32) :
    ∃ k' ys, step images k (.pause tf) = .ok k' ∧ QueueOf k'.thread numIds ys ∧
      xs ++ [getCurid k.thread] = getCurid k'.thread :: ys := by
  obtain ⟨s, p, ys, yield, next, cons, switched⟩ := threadYield_ready
    (scheduled.toReadyList.setState scheduled.cur_not_ready (by simp : TState.sleep ≠ .ready))
    (by simpa using scheduled.curid_lt) (by simp)
  refine ⟨{ k with thread := s }, ys, ?_, next.queue, ?_⟩
  · rw [pause_step tf quiet, yield]
    rfl
  · change xs ++ [getCurid k.thread] = getCurid s :: ys
    rw [switched.curid, ← cons]
    simp

/-- A pause waits for a signal exactly if it does not have to. In a system whose ready queue is in order, the others are
in the ready queue, if they are not current. -/
theorem run_pauseWaits_iff (images : Nat → Word) (start : KState) (es : List Event) :
    (PauseWaits images start es ↔
      Along (step images) (fun k e => ∀ tf, e = .pause tf → tcbGetPendingSignals k.thread (getCurid k.thread) ≠ 0#32)
        start es) ∧
    ∀ before tf after k xs, es = before ++ .pause tf :: after → run (step images) start before = .ok k →
      Scheduled k.thread xs → tcbGetPendingSignals k.thread (getCurid k.thread) = 0#32 →
      ∃ k' ys, step images k (.pause tf) = .ok k' ∧ QueueOf k'.thread numIds ys ∧
        (getCurid k'.thread = getCurid k.thread ∨ getCurid k.thread ∈ ys) := by
  constructor
  · rw [along_iff]
    constructor
    · rintro waits before e after split k reached tf rfl quiet
      have first := (waits before tf after split k reached quiet).waits [] after rfl ⟨nofun, fun _ _ => trivial⟩
      rw [run_single] at first
      exact pause_not_waits images tf quiet first
    · intro pending before tf after split k reached quiet
      exact absurd quiet (pending before _ after split k reached tf rfl)
  · intro before tf after k xs split reached scheduled quiet
    obtain ⟨k', ys, done, queue, cons⟩ := pause_queued images scheduled tf quiet
    refine ⟨k', ys, done, queue, ?_⟩
    have member : getCurid k.thread ∈ getCurid k'.thread :: ys := by
      rw [← cons]
      exact List.mem_append_right xs (List.mem_singleton_self _)
    exact (List.mem_cons.1 member).imp Eq.symm id

def pauseRun : List Event := [.yield, .pause (syscallFrame .pause 0 0 0), .yield, .yield]

theorem pause_resumes :
    Booted threeProcesses ∧
      Reaches (run (step fun _ => 0) threeProcesses (pauseRun.take 1)) (fun k =>
        getCurid k.thread = 1 ∧ tcbGetPendingSignals k.thread 1 = 0#32) ∧
      Reaches (run (step fun _ => 0) threeProcesses (pauseRun.take 2)) (fun k => tcbGetState k.thread 1 = .ready) ∧
      Reaches (run (step fun _ => 0) threeProcesses pauseRun) (fun k =>
        getCurid k.thread = 1 ∧ tcbGetPendingSignals k.thread 1 = 0#32) ∧
      ¬PauseWaits (fun _ => 0) threeProcesses pauseRun := by
  have paused : Reaches (run (step fun _ => 0) threeProcesses (pauseRun.take 1)) fun k =>
      getCurid k.thread = 1 ∧ tcbGetPendingSignals k.thread 1 = 0#32 := by decide +kernel
  refine ⟨threeProcesses_booted, paused, by decide +kernel, by decide +kernel, fun waits => ?_⟩
  obtain ⟨k, reached, current, quiet⟩ := paused
  rw [← current] at quiet
  have first := (waits [.yield] _ [.yield, .yield] rfl k reached quiet).waits [] _ rfl ⟨nofun, fun _ _ => trivial⟩
  rw [run_single] at first
  exact pause_not_waits (fun _ => 0) (syscallFrame .pause 0 0 0) quiet first

end Certikos
