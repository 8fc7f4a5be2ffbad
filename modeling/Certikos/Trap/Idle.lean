import Certikos.Trap.Startup

/-!
# The idle process

`thread_sleep` assumes that there is always another thread to run, and `thread_exit` panics if there is none. The idle
process is what they rely on: it never sleeps.
-/

namespace Certikos
open Lib

structure IdleLives (s : ThreadState) : Prop where
  awake : tcbGetState s idlePid = .ready ∨ getCurid s = idlePid ∧ tcbGetState s idlePid = .run
  quiet : tcbGetPendingSignals s idlePid = 0#32

def Event.SparesIdle (k : KState) : Event → Prop
  | .kill tf =>
    (syscallGetArg2 tf).toInt = idlePid → (syscallGetArg3 tf).toInt < 1 ∨ nsig ≤ (syscallGetArg3 tf).toInt
  | .spawn _ _ => Buried k.thread (nextChild k)
  | .readline _ _ line => getCurid k.thread = idlePid → line ≠ none
  | .pageFault tf faultVa => getCurid k.thread = idlePid → tf.err &&& pfePr = 0#32 ∧ vmUserlo ≤ faultVa.toNat
  | .sleep _ _ => getCurid k.thread ≠ idlePid
  | _ => True

instance (s : ThreadState) (p : Nat) : Decidable (Buried s p) := inferInstanceAs (Decidable (_ ∧ _))

instance (k : KState) : (e : Event) → Decidable (e.SparesIdle k)
  | .kill _ => inferInstanceAs (Decidable (_ → _ ∨ _))
  | .spawn _ _ => inferInstanceAs (Decidable (Buried _ _))
  | .readline _ _ line => inferInstanceAs (Decidable (_ → line ≠ none))
  | .pageFault _ _ => inferInstanceAs (Decidable (_ → _ ∧ _))
  | .sleep _ _ => inferInstanceAs (Decidable (_ ≠ _))
  | .pause _ | .yield | .sigaction _ _ | .sigreturn _ _ | .timer | .sleepResume | .wakeup _ | .copy _ _ _ _ | .store _
  | .trapReturn _ _ => .isTrue trivial

variable {tf : TrapFrame}

section Idle

variable {s s' : ThreadState} {xs : List Nat}

theorem ShellRuns.scheduled (runs : ShellRuns s) : Scheduled s [idlePid] := by
  refine ⟨runs.ready, by rw [runs.current.1]; decide, ?_⟩
  rw [runs.current.1]
  exact .inl runs.current.2

theorem ShellRuns.idleLives (runs : ShellRuns s) : IdleLives s := by
  refine ⟨.inl ((runs.ready.member idlePid).1 (List.mem_singleton.2 rfl)).2, ?_⟩
  rw [tcbGetPendingSignals, runs.quiet idlePid (by decide) (by decide)]
  rfl

namespace IdleLives

theorem congr (lives : IdleLives s) (state : tcbGetState s' idlePid = tcbGetState s idlePid)
    (curid : getCurid s' = getCurid s) (pending : tcbGetPendingSignals s' idlePid = tcbGetPendingSignals s idlePid) :
    IdleLives s' := by
  refine ⟨?_, pending.trans lives.quiet⟩
  rw [state, curid]
  exact lives.awake

theorem pending_of_sig (lives : IdleLives s) (sig : ∀ q, tcbGetSigstate s' q = tcbGetSigstate s q) :
    tcbGetPendingSignals s' idlePid = 0#32 := by
  rw [tcbGetPendingSignals, sig]
  exact lives.quiet

theorem onlySignals (lives : IdleLives s) (only : OnlySignals s s')
    (pending : tcbGetPendingSignals s' idlePid = tcbGetPendingSignals s idlePid) : IdleLives s' :=
  lives.congr (only.state idlePid) only.curid pending

theorem wakes (lives : IdleLives s) (wakes : Wakes s s') : IdleLives s' := by
  refine ⟨?_, lives.pending_of_sig wakes.sig⟩
  rcases wakes.state idlePid with same | ⟨-, ready⟩
  · rw [same, wakes.curid]
    exact lives.awake
  · exact .inl ready

theorem switched {t : ThreadState} {p : Nat} (ready : tcbGetState t idlePid = .ready)
    (quiet : tcbGetPendingSignals t idlePid = 0#32) (switched : Switched t s' p xs) : IdleLives s' := by
  constructor
  · rw [switched.state, switched.curid]
    by_cases here : idlePid = p
    · exact .inr ⟨here.symm, if_pos here⟩
    · rw [if_neg here]
      exact .inl ready
  · rw [tcbGetPendingSignals, switched.sig]
    exact quiet

theorem ready_of_ne (lives : IdleLives s) (other : getCurid s ≠ idlePid) : tcbGetState s idlePid = .ready :=
  lives.awake.resolve_right fun runs => other runs.1

theorem cons (lives : IdleLives s) (scheduled : Scheduled s xs) (other : getCurid s ≠ idlePid) :
    ∃ p ys, xs = p :: ys := by
  have member := (scheduled.member idlePid).2 ⟨by decide, lives.ready_of_ne other⟩
  cases xs with
  | nil => cases member
  | cons p ys => exact ⟨p, ys, rfl⟩

theorem yield (ready : ReadyList s xs) (lt : getCurid s < numIds) (out : tcbGetState s (getCurid s) ≠ .ready)
    (idle : tcbGetState s idlePid = .ready ∨ getCurid s = idlePid) (quiet : tcbGetPendingSignals s idlePid = 0#32) :
    ∃ s' ys, threadYield s = .ok s' ∧ Scheduled s' ys ∧ IdleLives s' := by
  obtain ⟨s', p, ys, done, scheduled, -, switched⟩ := threadYield_ready ready lt out
  have frame := onlyLinks_tqueueEnqueue (tcbSetState s (getCurid s) .ready) numIds (getCurid s)
  refine ⟨s', ys, done, scheduled, IdleLives.switched ?_ ?_ switched⟩
  · rw [frame.state, state_setState]
    split
    · rfl
    · rename_i other
      exact idle.resolve_right fun same => other same.symm
  · rw [tcbGetPendingSignals, frame.sig, sig_setState]
    exact quiet

variable (lives : IdleLives s)
include lives

theorem yield_scheduled (scheduled : Scheduled s xs) :
    ∃ s' ys, threadYield s = .ok s' ∧ Scheduled s' ys ∧ IdleLives s' :=
  yield scheduled.toReadyList scheduled.curid_lt scheduled.cur_not_ready (lives.awake.imp_right And.left) lives.quiet

theorem pause (scheduled : Scheduled s xs) (tf : TrapFrame) :
    ∃ s' tf' ys, sysPause s tf = .ok (s', tf') ∧ Scheduled s' ys ∧ IdleLives s' := by
  by_cases pending : tcbGetPendingSignals s (getCurid s) ≠ 0
  · exact ⟨s, _, xs, if_pos pending, scheduled, lives⟩
  · have asleep := scheduled.toReadyList.setState scheduled.cur_not_ready (by simp : TState.sleep ≠ .ready)
    have idle : tcbGetState (tcbSetState s (getCurid s) .sleep) idlePid = .ready ∨ getCurid s = idlePid := by
      by_cases here : getCurid s = idlePid
      · exact .inr here
      · rw [state_setState, if_neg (Ne.symm here)]
        exact .inl (lives.ready_of_ne here)
    obtain ⟨s', ys, done, next, lives'⟩ := yield asleep scheduled.curid_lt (by simp) idle
      (by rw [tcbGetPendingSignals, sig_setState]; exact lives.quiet)
    exact ⟨s', syscallSetErrno tf .succ, ys, by simp only [sysPause, if_neg pending, done], next, lives'⟩

theorem timer (scheduled : Scheduled s xs) : ∃ s' ys, schedUpdate s = .ok s' ∧ Scheduled s' ys ∧ IdleLives s' := by
  unfold schedUpdate
  dsimp only
  split
  · have lives' : IdleLives { s with schedTicks := Function.update s.schedTicks (getPcpuIdx s) 0 } :=
      lives.congr rfl rfl rfl
    exact lives'.yield_scheduled (scheduled.congr rfl (fun _ => rfl) rfl)
  · exact ⟨_, xs, rfl, scheduled.congr rfl (fun _ => rfl) rfl, lives.congr rfl rfl rfl⟩

theorem sleep (scheduled : Scheduled s xs) (other : getCurid s ≠ idlePid) (chan : Word)
    {lk : Word} (lock : lk ≠ 0) : ∃ s' ys, threadSleep s chan lk = .ok s' ∧ Scheduled s' ys ∧ IdleLives s' := by
  obtain ⟨p, ys, rfl⟩ := lives.cons scheduled other
  obtain ⟨s', done, next, switched⟩ := threadSleep_switched scheduled chan lock
  refine ⟨s', ys, done, next, IdleLives.switched ?_ ?_ switched⟩
  · rw [state_setChan, state_setState, if_neg (Ne.symm other)]
    exact lives.ready_of_ne other
  · rw [tcbGetPendingSignals, sig_setChan, sig_setState]
    exact lives.quiet

theorem exit (scheduled : Scheduled s xs) (other : getCurid s ≠ idlePid) :
    ∃ s' ys, threadExit (terminateProcess s (getCurid s)) = .ok s' ∧ Scheduled s' ys ∧ IdleLives s' := by
  obtain ⟨p, ys, rfl⟩ := lives.cons scheduled other
  obtain ⟨s', done, next, switched, -⟩ := terminateExit_spec scheduled
  refine ⟨s', ys, done, next, IdleLives.switched ?_ ?_ switched⟩
  · rw [terminateProcess_state, if_neg (Ne.symm other)]
    exact lives.ready_of_ne other
  · rw [tcbGetPendingSignals, terminateProcess_sig, if_neg (Ne.symm other)]
    exact lives.quiet

theorem modifySigstate {pid : Nat} (other : pid ≠ idlePid) (f : SigState → SigState) :
    IdleLives (Certikos.modifySigstate s pid f) := by
  refine lives.onlySignals (onlySignals_modifySigstate ..) ?_
  rw [tcbGetPendingSignals, sig_modifySigstate, if_neg (Ne.symm other), tcbGetPendingSignals]

theorem add {pid : Nat} (other : pid ≠ idlePid) (signum : Int) : IdleLives (tcbAddPendingSignal s pid signum) := by
  unfold tcbAddPendingSignal
  split
  · exact lives.modifySigstate other _
  · exact lives

theorem kill (scheduled : Scheduled s xs)
    (spared : (syscallGetArg2 tf).toInt = idlePid → (syscallGetArg3 tf).toInt < 1 ∨ nsig ≤ (syscallGetArg3 tf).toInt) :
    ∃ ys, Scheduled (sysKill s tf).1 ys ∧ IdleLives (sysKill s tf).1 := by
  cases killed : sysKill s tf with
  | mk s' tf' =>
    cases killed ▸ sysKill_cases s tf with
    | invalSignum => exact ⟨xs, scheduled, lives⟩
    | invalPid => exact ⟨xs, scheduled, lives⟩
    | terminated pid arg lt alive kill =>
      have other : pid ≠ idlePid := by
        rintro rfl
        rw [kill] at spared
        exact absurd (spared arg) (by decide)
      refine ⟨_, scheduled.terminate lt, lives.congr ?_ (terminateProcess_curid ..) ?_⟩
      · rw [terminateProcess_state, if_neg (Ne.symm other)]
      · rw [tcbGetPendingSignals, terminateProcess_sig, if_neg (Ne.symm other), tcbGetPendingSignals]
    | posted pid arg lt alive signum signal pos bound notKill =>
      have other : pid ≠ idlePid := by
        rintro rfl
        rw [signal] at spared
        simp only [nsig] at *
        omega
      obtain ⟨ys, next, woken⟩ := wakeForSignal_tcbAdd (p := pid) scheduled signum
      exact ⟨ys, next, (lives.add other signum).wakes woken⟩

theorem spawn (scheduled : Scheduled s xs) {p : Nat} (lt : p < numIds) (fresh : Buried s p) :
    ∃ ys, Scheduled (threadSpawn s p) ys ∧ IdleLives (threadSpawn s p) := by
  refine ⟨_, scheduled.spawn lt (by simp [fresh.1]) fresh.2, lives.congr ?_ (curid_threadSpawn s p) ?_⟩
  · have other : idlePid ≠ p := by
      rintro rfl
      rcases lives.awake with ready | ⟨runs, -⟩
      · rw [fresh.1] at ready
        cases ready
      · exact fresh.2 runs
    rw [state_threadSpawn, if_neg other]
  · rw [tcbGetPendingSignals, sig_threadSpawn, tcbGetPendingSignals]

theorem clear {pid : Nat} (other : pid ≠ idlePid) (signum : Int) :
    IdleLives (tcbClearPendingSignal s pid signum) := by
  unfold tcbClearPendingSignal
  split
  · exact lives.modifySigstate other _
  · exact lives

end IdleLives

end Idle

/-! ## Steps -/

structure Runnable (k : KState) : Prop where
  scheduled : ∃ xs, Scheduled k.thread xs
  idle : IdleLives k.thread

section Steps

variable {images : Nat → Word} {k k' : KState}

theorem Runnable.of_thread {s : ThreadState} (next : ∃ ys, Scheduled s ys ∧ IdleLives s) (vm : VmState) :
    Runnable ⟨s, vm⟩ := by
  obtain ⟨ys, scheduled, lives⟩ := next
  exact ⟨⟨ys, scheduled⟩, lives⟩

theorem Runnable.onlySignals {s : ThreadState} (runnable : Runnable k) (only : OnlySignals k.thread s)
    (pending : tcbGetPendingSignals s idlePid = tcbGetPendingSignals k.thread idlePid) (vm : VmState) :
    Runnable ⟨s, vm⟩ := by
  obtain ⟨⟨xs, scheduled⟩, lives⟩ := runnable
  exact ⟨⟨xs, only.scheduled scheduled⟩, lives.onlySignals only pending⟩

theorem sysSigaction_thread (buf : LocalBuf) (k : KState) (tf : TrapFrame) :
    (sysSigaction buf k tf).1.thread = k.thread ∨
      ∃ signum act, (sysSigaction buf k tf).1.thread = tcbSetSigaction k.thread (getCurid k.thread) signum act := by
  unfold sysSigaction
  dsimp only
  split
  · exact .inl rfl
  · split
    · exact .inr ⟨_, _, rfl⟩
    · exact .inl rfl

theorem sysSigreturn_thread (buf : LocalBuf) (k : KState) (tf : TrapFrame) :
    (sysSigreturn buf k tf).1.thread = k.thread ∨
      (sysSigreturn buf k tf).1.thread = tcbClearSignalContext k.thread (getCurid k.thread) := by
  unfold sysSigreturn
  dsimp only
  split
  · exact .inl rfl
  · split
    · exact .inl rfl
    · split
      · exact .inl rfl
      · exact .inr rfl

theorem Runnable.readline (runnable : Runnable k) {buf : LocalBuf} {line : Option (Word × Word)}
    (spared : getCurid k.thread = idlePid → line ≠ none) (done : step images k (.readline buf tf line) = .ok k') :
    Runnable k' := by
  obtain ⟨tf', read⟩ := map_fst_ok done
  unfold sysReadline at read
  obtain ⟨⟨xs, scheduled⟩, lives⟩ := runnable
  cases line with
  | none =>
    cases read
    exact .of_thread ⟨xs, (onlySignals_add _ _ sigint).scheduled scheduled,
      lives.add (fun here => spared here rfl) sigint⟩ _
  | some text =>
    dsimp only at read
    split at read
    · contradiction
    · cases read
      exact ⟨⟨xs, scheduled⟩, lives⟩

variable {e : Event} (runnable : Runnable k)
include runnable

theorem Runnable.pageFault {faultVa : Word}
    (spared : getCurid k.thread = idlePid → tf.err &&& pfePr = 0#32 ∧ vmUserlo ≤ faultVa.toNat)
    (done : step images k (.pageFault tf faultVa) = .ok k') : Runnable k' := by
  have fault : pgfltHandler k tf faultVa = .ok k' := done
  unfold pgfltHandler at fault
  obtain ⟨⟨xs, scheduled⟩, lives⟩ := runnable
  dsimp only at fault
  split at fault
  · rename_i bad
    cases fault
    refine .of_thread ⟨xs, (onlySignals_add _ _ sigsegv).scheduled scheduled, lives.add (fun here => ?_) sigsegv⟩ _
    obtain ⟨allowed, high⟩ := spared here
    rcases bad.2 with denied | low
    · exact denied allowed
    · omega
  · split at fault
    · contradiction
    · split at fault
      · contradiction
      · cases fault
        exact ⟨⟨xs, scheduled⟩, lives⟩

theorem Runnable.trapReturn (images : Nat → Word) (buf : LocalBuf) (tf : TrapFrame) :
    ∃ k', step images k (.trapReturn buf tf) = .ok k' ∧ Runnable k' := by
  obtain ⟨⟨xs, scheduled⟩, lives⟩ := runnable
  have ways := handlePendingSignals_cases buf k tf
  have others : ∀ signum, firstSignal (tcbGetPendingSignals k.thread (getCurid k.thread)) = some signum →
      getCurid k.thread ≠ idlePid := by
    intro signum first here
    rw [here, lives.quiet] at first
    cases first
  show ∃ k', (handlePendingSignals buf k tf).map Prod.fst = .ok k' ∧ Runnable k'
  generalize handlePendingSignals buf k tf = r at ways
  cases ways with
  | nothing quiet => exact ⟨k, rfl, ⟨xs, scheduled⟩, lives⟩
  | terminated signum first fatal =>
    have other := others signum first
    have cleared : Scheduled (tcbClearPendingSignal k.thread (getCurid k.thread) signum) xs :=
      (onlySignals_clear ..).scheduled scheduled
    have lives' := lives.clear other signum
    rw [← curid_clear k.thread (getCurid k.thread) signum] at other
    obtain ⟨s', ys, done, next, lives''⟩ := lives'.exit cleared other
    unfold terminateCurrent
    rw [done]
    exact ⟨_, rfl, ⟨ys, next⟩, lives''⟩
  | delivered signum first catchable handler =>
    have other := others signum first
    have lt := (firstSignal_eq_some.1 first).1.2
    obtain ⟨thread, -⟩ := deliverSignal_state buf (cleared k signum) tf lt (by rwa [handlerOf_cleared])
    refine ⟨_, rfl, ?_, ?_⟩
    · show ∃ ys, Scheduled (deliverSignal buf (cleared k signum) tf signum).1.thread ys
      rw [thread]
      exact ⟨xs, (onlySignals_modifySigstate ..).scheduled ((onlySignals_clear ..).scheduled scheduled)⟩
    · show IdleLives (deliverSignal buf (cleared k signum) tf signum).1.thread
      rw [thread]
      refine (lives.clear other signum).modifySigstate ?_ _
      rw [cleared, curid_clear]
      exact other

theorem Runnable.sleep (images : Nat → Word) (other : getCurid k.thread ≠ idlePid)
    (chan : Word) {lk : Word} (lock : lk ≠ 0) : ∃ k', step images k (.sleep chan lk) = .ok k' ∧ Runnable k' := by
  obtain ⟨⟨xs, scheduled⟩, lives⟩ := runnable
  obtain ⟨s', ys, done, next, lives'⟩ := lives.sleep scheduled other chan lock
  refine ⟨{ k with thread := s' }, ?_, ⟨ys, next⟩, lives'⟩
  show k.onThread (threadSleep k.thread chan lk) = _
  rw [done]
  rfl

theorem step_runnable (spared : e.SparesIdle k) (done : step images k e = .ok k') :
    Runnable k' := by
  have now := runnable
  obtain ⟨⟨xs, scheduled⟩, lives⟩ := runnable
  cases e with
  | kill tf =>
    cases done
    exact .of_thread (lives.kill scheduled spared) _
  | pause tf =>
    obtain ⟨s, paused, rfl⟩ := onThread_ok done
    obtain ⟨s', tf', ys, here, next⟩ := lives.pause scheduled tf
    rw [here] at paused
    cases paused
    exact .of_thread ⟨ys, next⟩ _
  | yield =>
    obtain ⟨s, yielded, rfl⟩ := onThread_ok done
    obtain ⟨s', ys, here, next⟩ := lives.yield_scheduled scheduled
    rw [here] at yielded
    cases yielded
    exact .of_thread ⟨ys, next⟩ _
  | spawn tf junk =>
    obtain ⟨tf', spawned⟩ := map_fst_ok done
    rcases sysSpawn_ok spawned with rfl | ⟨-, lt, quota, vm, -, rfl⟩
    · exact now
    · exact .of_thread (lives.spawn scheduled lt spared) _
  | sigaction buf tf =>
    cases done
    rcases sysSigaction_thread buf k tf with same | ⟨signum, act, set⟩
    · exact .of_thread (same ▸ ⟨xs, scheduled, lives⟩) _
    · refine now.onlySignals (set ▸ onlySignals_setSigaction ..) ?_ _
      rw [set]
      exact (sameSignals_setSigaction ..).pending idlePid
  | sigreturn buf tf =>
    cases done
    rcases sysSigreturn_thread buf k tf with same | cleared
    · exact .of_thread (same ▸ ⟨xs, scheduled, lives⟩) _
    · refine now.onlySignals (cleared ▸ onlySignals_clearContext ..) ?_ _
      rw [cleared]
      exact pending_clearContext ..
  | readline buf tf line => exact now.readline spared done
  | pageFault tf faultVa => exact now.pageFault spared done
  | timer =>
    obtain ⟨s, updated, rfl⟩ := onThread_ok done
    obtain ⟨s', ys, here, next⟩ := lives.timer scheduled
    rw [here] at updated
    cases updated
    exact .of_thread ⟨ys, next⟩ _
  | sleep chan lk =>
    by_cases lock : lk = 0
    · obtain ⟨s, slept, rfl⟩ := onThread_ok done
      rw [threadSleep, if_pos lock] at slept
      contradiction
    · obtain ⟨k₁, slept, next⟩ := now.sleep images spared chan lock
      cases slept.symm.trans done
      exact next
  | sleepResume =>
    cases done
    refine ⟨⟨xs, scheduled.congr (links_setChan ..) (fun q => state_setChan ..) (curid_setChan ..)⟩,
      lives.congr (state_setChan ..) (curid_setChan ..) ?_⟩
    show tcbGetPendingSignals (tcbSetChan k.thread (getCurid k.thread) 0) idlePid = _
    rw [tcbGetPendingSignals, sig_setChan, tcbGetPendingSignals]
  | wakeup chan =>
    have woken : { k with thread := threadWakeup k.thread chan } = k' := Except.ok.inj done
    obtain ⟨ys, next, wakes⟩ := threadWakeup_spec chan scheduled
    generalize threadWakeup k.thread chan = s at woken next wakes
    subst woken
    exact .of_thread ⟨ys, next, lives.wakes wakes⟩ _
  | copy pid uva len copy =>
    cases done
    exact ⟨⟨xs, scheduled⟩, lives⟩
  | store mem =>
    cases done
    exact ⟨⟨xs, scheduled⟩, lives⟩
  | trapReturn buf tf =>
    obtain ⟨k₁, returned, next⟩ := now.trapReturn images buf tf
    cases returned.symm.trans done
    exact next

end Steps

/-! ## Runs -/

/-- As long as the idle process is left alone, `thread_sleep` finds a thread to switch to whenever another process
sleeps, and no return from a trap ends in the panic of `thread_exit`. -/
theorem run_alwaysRunnable (images : Nat → Word) (start : KState) (runs : ShellRuns start.thread) (es : List Event)
    (spares : Along (step images) (fun k e => e.SparesIdle k) start es) (k : KState)
    (reached : run (step images) start es = .ok k) :
    (∀ chan lk, lk ≠ 0 → Event.SparesIdle k (.sleep chan lk) →
      (tqueueDequeue k.thread numIds).2 < numIds ∧ ∃ k', step images k (.sleep chan lk) = .ok k') ∧
    ∀ buf tf, ∃ k', step images k (.trapReturn buf tf) = .ok k' := by
  have runnable : Runnable k := run_invariant Runnable (fun _ _ _ => step_runnable)
    ⟨⟨_, runs.scheduled⟩, runs.idleLives⟩ spares reached
  constructor
  · intro chan lk lock other
    obtain ⟨xs, scheduled⟩ := runnable.scheduled
    obtain ⟨p, ys, rfl⟩ := runnable.idle.cons scheduled other
    obtain ⟨popped, -⟩ := scheduled.queue.dequeue
    obtain ⟨k', slept, -⟩ := runnable.sleep images other chan lock
    refine ⟨?_, k', slept⟩
    rw [popped]
    exact ((scheduled.member p).1 (.head _)).1
  · intro buf tf
    obtain ⟨k', returned, -⟩ := runnable.trapReturn images buf tf
    exact ⟨k', returned⟩

def shellOnly : KState := ⟨startShell idleThreads, blankVm⟩

theorem shellOnly_runs : ShellRuns shellOnly.thread := by
  have init : Initialised ⟨idleThreads, fun _ _ => 0, fun _ => 0⟩ := by
    refine ⟨fun pid nonzero _ => ⟨?_, rfl, fun _ => rfl⟩, fun _ _ _ _ => rfl, rfl, rfl⟩
    simp [idleThreads, nonzero, deadTcb, noSignals]
  exact init.shellRuns (by decide)

def diskWait : List Event := [.kill (killFrame 7), .sleep 64 8, .timer, .wakeup 64]

theorem diskWait_spares : Along (step fun _ => 0) (fun k e => e.SparesIdle k) shellOnly diskWait := by
  decide +kernel

theorem diskWait_reaches : Reaches (run (step fun _ => 0) shellOnly diskWait) fun k => getCurid k.thread = idlePid := by
  decide +kernel

theorem run_alwaysRunnable_diskWait :
    Reaches (run (step fun _ => 0) shellOnly diskWait) fun k => ∀ buf tf, ∃ k',
      step (fun _ => 0) k (.trapReturn buf tf) = .ok k' := by
  obtain ⟨k, reached, -⟩ := diskWait_reaches
  exact ⟨k, reached, (run_alwaysRunnable (fun _ => 0) shellOnly shellOnly_runs diskWait diskWait_spares k reached).2⟩

instance (h : Halt KState) : Decidable (∃ k, h = .wildAccess k) :=
  match h with
  | .panic _ _ => .isFalse (by simp)
  | .wildAccess k => .isTrue ⟨k, rfl⟩

theorem sleep_without_idle :
    Reaches (run (step fun _ => 0) shellOnly [.kill (killFrame 1)])
      (fun k => (tqueueDequeue k.thread numIds).2 = numIds) ∧
    Halts (run (step fun _ => 0) shellOnly [.kill (killFrame 1), .sleep 64 8]) fun h => ∃ k, h = .wildAccess k := by
  decide +kernel

end Certikos
