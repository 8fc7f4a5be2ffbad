import Certikos.Trap.System

/-!
# The saved context of a process

What changes the context that `sigreturn` restores: a delivery sets it, `sigreturn` clears it, and nothing
else that the kernel does touches it.
-/

namespace Certikos
open Lib

/-! ## Scheduling keeps signal state -/

variable {k k' : KState} {tf tf' : TrapFrame}

section Signals

variable {s s' : ThreadState}

theorem switchTo_signals {p : Nat} (h : switchTo s p = .ok s') : SameSignals s s' := by
  unfold switchTo at h
  split at h
  · cases h
    apply SameSignals.of_sig
    intro q
    rw [sig_setCurid, sig_setState]
  · contradiction

theorem SameSignals.trans {s₁ s₂ s₃ : ThreadState} (h : SameSignals s₁ s₂) (k : SameSignals s₂ s₃) :
    SameSignals s₁ s₃ :=
  ⟨fun q => (k.pending q).trans (h.pending q), fun q => (k.context q).trans (h.context q)⟩

theorem dequeue_switch_signals (h : switchTo (tqueueDequeue s numIds).1 (tqueueDequeue s numIds).2 = .ok s') :
    SameSignals s s' :=
  (SameSignals.of_sig (onlyLinks_tqueueDequeue s numIds).sig).trans (switchTo_signals h)

theorem setState_signals (s : ThreadState) (pid : Nat) (st : TState) : SameSignals s (tcbSetState s pid st) :=
  .of_sig fun _ => sig_setState ..

theorem setChan_signals (s : ThreadState) (pid : Nat) (chan : Word) : SameSignals s (tcbSetChan s pid chan) :=
  .of_sig fun _ => sig_setChan ..

theorem threadYield_signals (h : threadYield s = .ok s') : SameSignals s s' := by
  refine SameSignals.trans (.of_sig fun q => ?_) (dequeue_switch_signals h)
  rw [(onlyLinks_tqueueEnqueue ..).sig, sig_setState]

theorem threadExit_signals (h : threadExit s = .ok s') : SameSignals s s' := by
  unfold threadExit at h
  dsimp only at h
  split at h
  · contradiction
  · exact dequeue_switch_signals h

theorem threadSleep_signals {chan lk : Word} (h : threadSleep s chan lk = .ok s') : SameSignals s s' := by
  unfold threadSleep at h
  split at h
  · contradiction
  · exact ((setState_signals ..).trans (setChan_signals ..)).trans (dequeue_switch_signals h)

theorem schedUpdate_signals (h : schedUpdate s = .ok s') : SameSignals s s' := by
  unfold schedUpdate at h
  dsimp only at h
  split at h
  · have yielded := threadYield_signals h
    exact ⟨yielded.pending, yielded.context⟩
  · cases h
    exact ⟨fun _ => rfl, fun _ => rfl⟩

theorem threadWakeup_signals (s : ThreadState) (chan : Word) : SameSignals s (threadWakeup s chan) := by
  refine loop_preserves (SameSignals s) (.refl s) ?_
  intro i t lt same
  refine same.trans ?_
  unfold wakeupOne
  split
  · apply SameSignals.of_sig
    intro q
    rw [(onlyLinks_tqueueEnqueue ..).sig, sig_setChan, sig_setState]
  · exact .refl t

theorem sysPause_signals (h : sysPause s tf = .ok (s', tf')) : SameSignals s s' := by
  unfold sysPause at h
  dsimp only at h
  split at h
  · cases h
    exact .refl s
  · cases yield : threadYield (tcbSetState s (getCurid s) .sleep) with
    | error halt =>
      rw [yield] at h
      contradiction
    | ok t =>
      rw [yield] at h
      cases h
      exact (setState_signals ..).trans (threadYield_signals yield)

theorem terminateProcess_context (s : ThreadState) (pid q : Nat) :
    signalContext (terminateProcess s pid) q = signalContext s q := by
  unfold signalContext
  rw [terminateProcess_sig]
  split
  · rename_i here
    rw [here]
    rfl
  · rfl

theorem sysKill_context (s : ThreadState) (tf : TrapFrame) (q : Nat) :
    signalContext (sysKill s tf).1 q = signalContext s q := by
  cases killed : sysKill s tf with
  | mk s' tf' =>
    cases killed ▸ sysKill_cases s tf with
    | invalSignum => rfl
    | invalPid => rfl
    | terminated pid arg lt alive kill => exact terminateProcess_context ..
    | posted pid arg lt alive signum signal pos bound notKill =>
      unfold wakeForSignal
      split
      · split
        · rw [(threadWakeup_signals ..).context, signalContext_add]
        · exact signalContext_add ..
      · exact signalContext_add ..

theorem sysSigaction_signals (buf : LocalBuf) (k : KState) (tf : TrapFrame) :
    SameSignals k.thread (sysSigaction buf k tf).1.thread := by
  unfold sysSigaction
  dsimp only
  split
  · exact .refl _
  · split
    · exact sameSignals_setSigaction ..
    · exact .refl _

theorem sysReadline_context {buf : LocalBuf} {line : Option (Word × Word)}
    (h : sysReadline buf k tf line = .ok (k', tf')) (q : Nat) :
    signalContext k'.thread q = signalContext k.thread q := by
  unfold sysReadline at h
  cases line with
  | none =>
    cases h
    exact signalContext_add k.thread (getCurid k.thread) sigint q
  | some text =>
    dsimp only at h
    split at h
    · contradiction
    · cases h
      rfl

theorem pgfltHandler_context {tf : TrapFrame} {faultVa : Word} (h : pgfltHandler k tf faultVa = .ok k') (q : Nat) :
    signalContext k'.thread q = signalContext k.thread q := by
  unfold pgfltHandler at h
  dsimp only at h
  split at h
  · cases h
    exact signalContext_add k.thread (getCurid k.thread) sigsegv q
  · split at h
    · contradiction
    · split at h
      · contradiction
      · cases h
        rfl

theorem step_context {images : Nat → Word} {e : Event} (h : step images k e = .ok k')
    (notReturn : ∀ buf tf, e ≠ .sigreturn buf tf) (notTrap : ∀ buf tf, e ≠ .trapReturn buf tf) (q : Nat) :
    signalContext k'.thread q = signalContext k.thread q := by
  cases e with
  | kill tf =>
    cases h
    exact sysKill_context ..
  | pause tf =>
    obtain ⟨s, pause, rfl⟩ := onThread_ok h
    obtain ⟨tf', paused⟩ := map_fst_ok pause
    exact (sysPause_signals paused).context q
  | yield =>
    obtain ⟨s, yield, rfl⟩ := onThread_ok h
    exact (threadYield_signals yield).context q
  | spawn tf junk =>
    obtain ⟨tf', spawn⟩ := map_fst_ok h
    rcases sysSpawn_ok spawn with rfl | ⟨-, -, quota, vm, -, rfl⟩
    · rfl
    · exact (sameSignals_threadSpawn ..).context q
  | sigaction buf tf =>
    cases h
    exact (sysSigaction_signals ..).context q
  | sigreturn buf tf => exact absurd rfl (notReturn buf tf)
  | readline buf tf line =>
    obtain ⟨tf', read⟩ := map_fst_ok h
    exact sysReadline_context read q
  | pageFault tf faultVa => exact pgfltHandler_context h q
  | timer =>
    obtain ⟨s, update, rfl⟩ := onThread_ok h
    exact (schedUpdate_signals update).context q
  | sleep chan lk =>
    obtain ⟨s, sleep, rfl⟩ := onThread_ok h
    exact (threadSleep_signals sleep).context q
  | sleepResume =>
    cases h
    exact (setChan_signals ..).context q
  | wakeup chan =>
    have woken : { k with thread := threadWakeup k.thread chan } = k' := Except.ok.inj h
    have same := (threadWakeup_signals k.thread chan).context q
    generalize threadWakeup k.thread chan = s at woken same
    subst woken
    exact same
  | copy pid uva len copy =>
    cases h
    rfl
  | store mem =>
    cases h
    rfl
  | trapReturn buf tf => exact absurd rfl (notTrap buf tf)

/-! ## Delivery and return -/

theorem signalContext_set (s : ThreadState) (pid : Nat) (espAddr eipAddr : Word) (q : Nat) :
    signalContext (tcbSetSignalContext s pid espAddr eipAddr) q =
      if q = pid then ⟨espAddr, eipAddr, 1#32⟩ else signalContext s q := by
  unfold signalContext tcbSetSignalContext
  rw [sig_modifySigstate]
  split
  · rfl
  · rfl

theorem delivered_context {k : KState} (buf : LocalBuf) (tf : TrapFrame) {signum : Nat} (lt : signum < nsig)
    (handler : handlerOf k.thread (getCurid k.thread) signum ≠ 0#32) (q : Nat) :
    signalContext (deliverSignal buf (cleared k signum) tf signum).1.thread q =
      if q = getCurid k.thread then ⟨tf.esp - 8#32, tf.esp - 4#32, 1#32⟩ else signalContext k.thread q := by
  obtain ⟨thread, -⟩ := deliverSignal_state buf (cleared k signum) tf lt (by rwa [handlerOf_cleared])
  rw [thread, signalContext_set, cleared, curid_clear]
  split
  · rfl
  · exact signalContext_clear ..

instance (k : KState) : Decidable (Delivers k) :=
  match first : firstSignal (tcbGetPendingSignals k.thread (getCurid k.thread)) with
  | none => .isFalse (by simp [Delivers, first])
  | some signum =>
    decidable_of_iff (signum ≠ sigkill ∧ handlerOf k.thread (getCurid k.thread) signum ≠ 0#32)
      (by simp [Delivers, first])

theorem handlePendingSignals_context {buf : LocalBuf}
    (handled : handlePendingSignals buf k tf = .ok (k', tf')) (q : Nat) : signalContext k'.thread q =
      if Delivers k ∧ q = getCurid k.thread then ⟨tf.esp - 8#32, tf.esp - 4#32, 1#32⟩
      else signalContext k.thread q := by
  have ways := handlePendingSignals_cases buf k tf
  generalize handlePendingSignals buf k tf = r at handled ways
  cases ways with
  | nothing quiet =>
    cases handled
    rw [if_neg]
    rintro ⟨⟨signum, first, -⟩, -⟩
    rw [quiet] at first
    contradiction
  | terminated signum first fatal =>
    rw [if_neg]
    · cases exit : terminateCurrent (cleared k signum) with
      | error halt =>
        rw [← cleared, exit] at handled
        contradiction
      | ok k₁ =>
        rw [← cleared, exit] at handled
        cases handled
        obtain ⟨s, exited, rfl⟩ := onThread_ok exit
        exact ((threadExit_signals exited).context q).trans
          ((terminateProcess_context ..).trans (signalContext_clear ..))
    · rintro ⟨⟨other, second, catchable, handler⟩, -⟩
      rw [first] at second
      cases second
      exact fatal.elim catchable handler
  | delivered signum first catchable handler =>
    have lt := (firstSignal_eq_some.1 first).1.2
    have state : (deliverSignal buf (cleared k signum) tf signum).1 = k' := congrArg Prod.fst (Except.ok.inj handled)
    rw [← state, delivered_context buf tf lt handler]
    have delivers : Delivers k := ⟨signum, first, catchable, handler⟩
    simp only [delivers, true_and]

theorem signalContext_clearContext (s : ThreadState) (pid q : Nat) :
    signalContext (tcbClearSignalContext s pid) q = if q = pid then ⟨0#32, 0#32, 0#32⟩ else signalContext s q := by
  unfold signalContext tcbClearSignalContext
  rw [sig_modifySigstate]
  split
  · rfl
  · rfl

end Signals

end Certikos
