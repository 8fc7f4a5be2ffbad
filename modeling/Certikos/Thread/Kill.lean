import Certikos.Thread.Sched

/-!
# Killing, pausing and terminating

The parts of `TSyscall.c` and `TTrapHandler.c` that post a signal, wait for one or end a process: `sys_kill`,
`sys_pause` and `terminate_process`.
-/

namespace Certikos
open Lib

def terminateProcess (s : ThreadState) (pid : Nat) : ThreadState :=
  -- a RUNNING process is not in the queue; only a READY one is taken out
  let s := if tcbGetState s pid = .ready then tqueueRemove s numIds pid else s
  let s := tcbSetState s pid .dead
  tcbSetPendingSignals s pid 0

def sysKill (s : ThreadState) (tf : TrapFrame) : ThreadState × TrapFrame :=
  let pid := (syscallGetArg2 tf).toInt
  let signum := (syscallGetArg3 tf).toInt
  if signum < 1 ∨ signum ≥ nsig then (s, syscallSetErrno tf .invalSignum)
  else if pid < 0 ∨ pid ≥ numIds ∨ tcbGetState s pid.toNat = .dead then
    (s, syscallSetErrno tf .invalPid)
  else if signum = sigkill then
    let s := if tcbGetState s pid.toNat = .ready then tqueueRemove s numIds pid.toNat else s
    let s := tcbSetState s pid.toNat .dead
    let s := tcbSetPendingSignals s pid.toNat 0
    (s, syscallSetErrno tf .succ)
  else
    let s := tcbAddPendingSignal s pid.toNat signum
    let s :=
      if tcbIsSleeping s pid.toNat then
        let chan := tcbGetChan s pid.toNat
        if chan ≠ 0 then threadWakeup s chan else s
      else s
    (s, syscallSetErrno tf .succ)

def sysPause (s : ThreadState) (tf : TrapFrame) :
    Except (Halt ThreadState) (ThreadState × TrapFrame) :=
  let curPid := getCurid s
  if tcbGetPendingSignals s curPid ≠ 0 then .ok (s, syscallSetErrno tf .succ)
  else
    match threadYield (tcbSetState s curPid .sleep) with
    | .ok s => .ok (s, syscallSetErrno tf .succ)
    | .error halt => .error halt

/-! ## The invariant of the scheduler -/

structure Scheduled (s : ThreadState) (xs : List Nat) : Prop extends ReadyList s xs where
  curid_lt : getCurid s < numIds
  curState : tcbGetState s (getCurid s) = .run ∨ tcbGetState s (getCurid s) = .dead

def Buried (s : ThreadState) (p : Nat) : Prop := tcbGetState s p = .dead ∧ getCurid s ≠ p

section Preservation

variable {s s' : ThreadState} {xs : List Nat} {p : Nat}

theorem Scheduled.cur_not_ready (h : Scheduled s xs) : tcbGetState s (getCurid s) ≠ .ready := by
  rcases h.curState with e | e <;> simp [e]

theorem Scheduled.cur_not_mem (h : Scheduled s xs) : getCurid s ∉ xs :=
  h.not_mem h.cur_not_ready

theorem Scheduled.congr (h : Scheduled s xs) (sameLinks : links s' numIds = links s numIds)
    (sameState : ∀ q, tcbGetState s' q = tcbGetState s q) (sameCur : getCurid s' = getCurid s) : Scheduled s' xs :=
  ⟨h.toReadyList.congr sameLinks sameState, sameCur ▸ h.curid_lt, by
    rw [sameCur, sameState]; exact h.curState⟩

theorem Switched.scheduled (h : Switched s s' p xs) (hp : p < numIds) : Scheduled s' xs :=
  ⟨h.ready, h.curid ▸ hp, .inl (by rw [h.curid, h.state, if_pos rfl])⟩

theorem Switched.buried {q : Nat} (h : Switched s s' p xs) (dead : tcbGetState s q = .dead)
    (hq : q ≠ p) : Buried s' q :=
  ⟨by rw [h.state, if_neg hq, dead], by rw [h.curid]; exact fun e => hq e.symm⟩

/-! ### Waking -/

structure Wakes (s s' : ThreadState) : Prop where
  state : ∀ q, tcbGetState s' q = tcbGetState s q ∨
    tcbGetState s q = .sleep ∧ tcbGetState s' q = .ready
  sig : ∀ q, tcbGetSigstate s' q = tcbGetSigstate s q
  curid : getCurid s' = getCurid s

theorem Wakes.refl (s : ThreadState) : Wakes s s := ⟨fun _ => .inl rfl, fun _ => rfl, rfl⟩

theorem Wakes.trans {s₁ s₂ s₃ : ThreadState} (h : Wakes s₁ s₂) (k : Wakes s₂ s₃) : Wakes s₁ s₃ := by
  refine ⟨fun q => ?_, fun q => (k.sig q).trans (h.sig q), k.curid.trans h.curid⟩
  rcases h.state q with e | ⟨e, e'⟩ <;> rcases k.state q with f | ⟨f, f'⟩
  · exact .inl (f.trans e)
  · exact .inr ⟨e ▸ f, f'⟩
  · exact .inr ⟨e, f.trans e'⟩
  · simp [e'] at f

theorem Wakes.buried (h : Wakes s s') (b : Buried s p) : Buried s' p := by
  refine ⟨?_, by rw [h.curid]; exact b.2⟩
  rcases h.state p with e | ⟨e, -⟩
  · exact e.trans b.1
  · simp [b.1] at e

theorem wakeupOne_spec (chan : Word) (hp : p < numIds) (h : Scheduled s xs) :
    ∃ ys, Scheduled (wakeupOne chan p s) ys ∧ Wakes s (wakeupOne chan p s) := by
  unfold wakeupOne
  split
  · rename_i asleep
    have noCur : p ≠ getCurid s := by
      rintro rfl
      rcases h.curState with e | e <;> simp [e] at asleep
    have ready := h.toReadyList.enqueue hp (by simp [asleep.2])
    have frame := onlyLinks_tqueueEnqueue (tcbSetChan (tcbSetState s p .ready) p 0) numIds p
    have frame' := onlyLinks_tqueueEnqueue (tcbSetState s p .ready) numIds p
    have sameState (q) : tcbGetState (tqueueEnqueue (tcbSetChan (tcbSetState s p .ready) p 0) numIds p) q =
        if q = p then .ready else tcbGetState s q := by
      rw [frame.state, state_setChan, state_setState]
    have sameCur : getCurid (tqueueEnqueue (tcbSetChan (tcbSetState s p .ready) p 0) numIds p) =
        getCurid s := by
      rw [frame.curid, curid_setChan, curid_setState]
    refine ⟨xs ++ [p], ⟨ready.congr ?_ fun q => ?_, ?_, ?_⟩, ⟨fun q => ?_, fun q => ?_, sameCur⟩⟩
    · rw [links_tqueueEnqueue, links_tqueueEnqueue, links_setChan]
    · rw [sameState, frame'.state, state_setState]
    · exact sameCur ▸ h.curid_lt
    · rw [sameCur, sameState, if_neg noCur.symm]
      exact h.curState
    · rw [sameState]
      by_cases hq : q = p
      · exact .inr ⟨hq ▸ asleep.2, if_pos hq⟩
      · exact .inl (if_neg hq)
    · rw [frame.sig, sig_setChan, sig_setState]
  · exact ⟨xs, h, Wakes.refl s⟩

theorem threadWakeup_spec (chan : Word) (h : Scheduled s xs) :
    ∃ ys, Scheduled (threadWakeup s chan) ys ∧ Wakes s (threadWakeup s chan) := by
  refine loop_preserves (fun t => ∃ ys, Scheduled t ys ∧ Wakes s t) ⟨xs, h, Wakes.refl s⟩ ?_
  rintro i t hi ⟨ys, scheduled, wakes⟩
  obtain ⟨zs, scheduled', wakes'⟩ := wakeupOne_spec chan (p := i + 1) (by omega) scheduled
  exact ⟨zs, scheduled', wakes.trans wakes'⟩

def Woken (s : ThreadState) (chan : Word) (q : Nat) : Prop :=
  (1 ≤ q ∧ q < numIds) ∧ tcbGetChan s q = chan ∧ tcbGetState s q = .sleep
deriving Decidable

theorem wakeupOne_effect (chan : Word) (p : Nat) (s : ThreadState) (q : Nat) : tcbGetState (wakeupOne chan p s) q =
        (if q = p ∧ tcbGetChan s q = chan ∧ tcbGetState s q = .sleep then .ready else tcbGetState s q) ∧
      tcbGetChan (wakeupOne chan p s) q =
        if q = p ∧ tcbGetChan s q = chan ∧ tcbGetState s q = .sleep then 0#32 else tcbGetChan s q := by
  unfold wakeupOne
  split
  · rename_i asleep
    have frame := onlyLinks_tqueueEnqueue (tcbSetChan (tcbSetState s p .ready) p 0) numIds p
    rw [frame.state, frame.chan, state_setChan, state_setState, chan_setChan, chan_setState]
    by_cases here : q = p
    · subst here
      simp [asleep]
    · simp [here]
  · rename_i awake
    have same : ¬(q = p ∧ tcbGetChan s q = chan ∧ tcbGetState s q = .sleep) := by
      rintro ⟨rfl, asleep⟩
      exact awake asleep
    exact ⟨(if_neg same).symm, (if_neg same).symm⟩

theorem threadWakeup_effect (s : ThreadState) (chan : Word) (q : Nat) :
    tcbGetState (threadWakeup s chan) q = (if Woken s chan q then .ready else tcbGetState s q) ∧
      tcbGetChan (threadWakeup s chan) q = if Woken s chan q then 0#32 else tcbGetChan s q := by
  -- after `n` rounds the threads 1 to `n` have been looked at
  have rounds : ∀ n, n ≤ numIds - 1 →
      let t := loop (fun i => wakeupOne chan (i + 1)) n s
      tcbGetState t q = (if Woken s chan q ∧ q ≤ n then .ready else tcbGetState s q) ∧
        tcbGetChan t q = if Woken s chan q ∧ q ≤ n then 0#32 else tcbGetChan s q := by
    intro n
    induction n with
    | zero =>
      intro _
      have none : ¬(Woken s chan q ∧ q ≤ 0) := fun h => absurd h.1.1.1 (by omega)
      exact ⟨(if_neg none).symm, (if_neg none).symm⟩
    | succ n ih =>
      intro le
      obtain ⟨state, chans⟩ := ih (by omega)
      have one := wakeupOne_effect chan (n + 1) (loop (fun i => wakeupOne chan (i + 1)) n s) q
      rw [state, chans] at one
      dsimp only [loop]
      rw [one.1, one.2]
      by_cases here : q = n + 1
      · have before : ¬(Woken s chan q ∧ q ≤ n) := by omega
        simp only [before, if_false]
        have range : UserPid q := by omega
        have now : (q = n + 1 ∧ tcbGetChan s q = chan ∧ tcbGetState s q = .sleep) ↔ Woken s chan q ∧ q ≤ n + 1 := by
          unfold Woken
          constructor
          · intro h
            exact ⟨⟨range, h.2⟩, by omega⟩
          · intro h
            exact ⟨here, h.1.2⟩
        simp only [now]
        exact ⟨trivial, trivial⟩
      · have same : (Woken s chan q ∧ q ≤ n) ↔ (Woken s chan q ∧ q ≤ n + 1) := by
          constructor
          · exact fun h => ⟨h.1, by omega⟩
          · exact fun h => ⟨h.1, by omega⟩
        simp only [here, false_and, if_false, same]
        exact ⟨trivial, trivial⟩
  have whole := rounds (numIds - 1) le_rfl
  have all : (Woken s chan q ∧ q ≤ numIds - 1) ↔ Woken s chan q := by
    constructor
    · exact fun h => h.1
    · exact fun h => ⟨h, Nat.le_pred_of_lt h.1.2⟩
  simp only [all] at whole
  exact whole

/-! ### Switching away -/

structure Moves (s s' : ThreadState) : Prop where
  sig : ∀ q, tcbGetSigstate s' q = tcbGetSigstate s q
  buried : ∀ q, Buried s q → Buried s' q

section

variable (h : ReadyList s xs) (lt : getCurid s < numIds) (out : tcbGetState s (getCurid s) ≠ .ready)
include h lt out

theorem threadYield_ready : ∃ s' p ys, threadYield s = .ok s' ∧ Scheduled s' ys ∧ xs ++ [getCurid s] = p :: ys ∧
      Switched (tqueueEnqueue (tcbSetState s (getCurid s) .ready) numIds (getCurid s)) s' p ys := by
  have ready := h.enqueue lt out
  obtain ⟨p, ys, cons⟩ : ∃ p ys, xs ++ [getCurid s] = p :: ys := by
    cases xs with
    | nil => exact ⟨_, _, rfl⟩
    | cons x xs => exact ⟨_, _, rfl⟩
  rw [cons] at ready
  obtain ⟨s', switch, switched⟩ := ready.switch
  have hp := ((ready.member p).1 (.head _)).1
  exact ⟨s', p, ys, switch, switched.scheduled hp, cons, switched⟩

theorem threadYield_spec : ∃ s' ys, threadYield s = .ok s' ∧ Scheduled s' ys ∧ Moves s s' := by
  obtain ⟨s', p, ys, yield, scheduled, cons, switched⟩ := threadYield_ready h lt out
  have frame := onlyLinks_tqueueEnqueue (tcbSetState s (getCurid s) .ready) numIds (getCurid s)
  refine ⟨s', ys, yield, scheduled, fun q => ?_, fun q b => ?_⟩
  · rw [switched.sig, frame.sig, sig_setState]
  · apply switched.buried
    · rw [frame.state, state_setState, if_neg (Ne.symm b.2), b.1]
    · rintro rfl
      have member : q ∈ xs ++ [getCurid s] := cons ▸ .head _
      rcases List.mem_append.1 member with hq | hq
      · exact h.not_mem (by simp [b.1]) hq
      · exact b.2 (List.mem_singleton.1 hq).symm

end

theorem threadExit_spec (h : ReadyList s (p :: xs)) :
    ∃ s', threadExit s = .ok s' ∧ Scheduled s' xs ∧ Switched s s' p xs := by
  obtain ⟨popped, -⟩ := h.queue.dequeue
  have hp : p < numIds := ((h.member p).1 (.head _)).1
  obtain ⟨s', switch, switched⟩ := h.switch
  refine ⟨s', ?_, switched.scheduled hp, switched⟩
  unfold threadExit
  simpa [popped, ne_of_lt hp] using switch

theorem threadSleep_switched (h : Scheduled s (p :: xs)) (chan : Word) {lk : Word} (hlk : lk ≠ 0) :
    ∃ s', threadSleep s chan lk = .ok s' ∧ Scheduled s' xs ∧
      Switched (tcbSetChan (tcbSetState s (getCurid s) .sleep) (getCurid s) chan) s' p xs := by
  have asleep : ReadyList (tcbSetChan (tcbSetState s (getCurid s) .sleep) (getCurid s) chan) (p :: xs) :=
    (h.toReadyList.setState h.cur_not_ready (by simp)).congr (links_setChan ..) (by simp)
  have hp : p < numIds := ((h.member p).1 (.head _)).1
  obtain ⟨s', switch, switched⟩ := asleep.switch
  refine ⟨s', ?_, switched.scheduled hp, switched⟩
  unfold threadSleep
  rw [if_neg hlk]
  exact switch

theorem threadSleep_spec (h : Scheduled s (p :: xs)) (chan : Word) {lk : Word} (hlk : lk ≠ 0) :
    ∃ s', threadSleep s chan lk = .ok s' ∧ Scheduled s' xs ∧ Moves s s' := by
  obtain ⟨s', slept, scheduled, switched⟩ := threadSleep_switched h chan hlk
  refine ⟨s', slept, scheduled, fun q => ?_, fun q b => ?_⟩
  · rw [switched.sig, sig_setChan, sig_setState]
  · apply switched.buried
    · rw [state_setChan, state_setState, if_neg (Ne.symm b.2), b.1]
    · rintro rfl
      exact h.not_mem (by simp [b.1]) (.head _)

theorem threadSleep_nil (h : Scheduled s []) (chan : Word) {lk : Word} (hlk : lk ≠ 0) :
    ∃ halt, threadSleep s chan lk = .error halt := by
  have asleep : ReadyList (tcbSetChan (tcbSetState s (getCurid s) .sleep) (getCurid s) chan) [] :=
    (h.toReadyList.setState h.cur_not_ready (by simp)).congr (links_setChan ..) (by simp)
  unfold threadSleep
  rw [if_neg hlk]
  dsimp only
  rw [asleep.queue.dequeue_nil]
  exact ⟨_, rfl⟩

/-! ### Terminating -/

theorem terminateProcess_state (s : ThreadState) (p q : Nat) :
    tcbGetState (terminateProcess s p) q = if q = p then .dead else tcbGetState s q := by
  unfold terminateProcess tcbSetPendingSignals
  simp only [state_modifySigstate, state_setState]
  split
  · rfl
  · split
    · exact (onlyLinks_tqueueRemove s numIds p).state q
    · rfl

theorem terminateProcess_curid (s : ThreadState) (p : Nat) : getCurid (terminateProcess s p) = getCurid s := by
  unfold terminateProcess tcbSetPendingSignals
  split
  · exact (onlyLinks_tqueueRemove s numIds p).curid
  · rfl

theorem terminateProcess_sig (s : ThreadState) (p q : Nat) :
    tcbGetSigstate (terminateProcess s p) q =
      if q = p then { tcbGetSigstate s p with pendingSignals := 0 } else tcbGetSigstate s q := by
  unfold terminateProcess tcbSetPendingSignals
  simp only [sig_modifySigstate, sig_setState]
  split
  all_goals
    split
    · rw [(onlyLinks_tqueueRemove s numIds p).sig]
    · rfl

theorem Scheduled.terminate (h : Scheduled s xs) (hp : p < numIds) :
    Scheduled (terminateProcess s p) (xs.erase p) := by
  refine ⟨?_, by rw [terminateProcess_curid]; exact h.curid_lt, ?_⟩
  · unfold terminateProcess tcbSetPendingSignals
    split
    · rename_i ready
      exact (h.remove ((h.member p).2 ⟨hp, ready⟩) (by simp : TState.dead ≠ .ready)).congr
        (links_modifySigstate ..) (by simp)
    · rename_i ready
      rw [List.erase_of_not_mem (h.not_mem ready)]
      exact (h.toReadyList.setState ready (by simp : TState.dead ≠ .ready)).congr
        (links_modifySigstate ..) (by simp)
  · rw [terminateProcess_curid, terminateProcess_state]
    split
    · exact .inr rfl
    · exact h.curState

theorem Buried.terminate {q : Nat} (b : Buried s q) : Buried (terminateProcess s p) q := by
  refine ⟨?_, by rw [terminateProcess_curid]; exact b.2⟩
  rw [terminateProcess_state]
  split
  · rfl
  · exact b.1

theorem terminateExit_spec (h : Scheduled s (p :: xs)) :
    ∃ s', threadExit (terminateProcess s (getCurid s)) = .ok s' ∧ Scheduled s' xs ∧
      Switched (terminateProcess s (getCurid s)) s' p xs ∧ Buried s' (getCurid s) ∧
      ∀ q, Buried s q → Buried s' q := by
  have ended := h.terminate h.curid_lt
  rw [List.erase_of_not_mem h.cur_not_mem] at ended
  obtain ⟨s', exit, scheduled, switched⟩ := threadExit_spec ended.toReadyList
  have dead (q) (hq : tcbGetState (terminateProcess s (getCurid s)) q = .dead) : Buried s' q := by
    refine switched.buried hq ?_
    rintro rfl
    exact ended.not_mem (by simp [hq]) (.head _)
  exact ⟨s', exit, scheduled, switched, dead _ (by rw [terminateProcess_state, if_pos rfl]),
    fun q b => dead q b.terminate.1⟩

/-! ### The system calls -/

def wakeForSignal (s : ThreadState) (pid : Nat) : ThreadState :=
  if tcbIsSleeping s pid then
    if tcbGetChan s pid ≠ 0 then threadWakeup s (tcbGetChan s pid) else s
  else s

theorem wakeForSignal_spec (h : Scheduled s xs) :
    ∃ ys, Scheduled (wakeForSignal s p) ys ∧ Wakes s (wakeForSignal s p) := by
  unfold wakeForSignal
  split
  · split
    · exact threadWakeup_spec _ h
    · exact ⟨xs, h, Wakes.refl s⟩
  · exact ⟨xs, h, Wakes.refl s⟩

theorem sysPause_spec (h : Scheduled s xs) (tf : TrapFrame) :
    ∃ s' ys, sysPause s tf = .ok (s', syscallSetErrno tf .succ) ∧ Scheduled s' ys ∧ Moves s s' := by
  by_cases pending : tcbGetPendingSignals s (getCurid s) ≠ 0
  · exact ⟨s, xs, if_pos pending, h, fun _ => rfl, fun _ b => b⟩
  · obtain ⟨s', ys, yield, scheduled, moves⟩ := threadYield_spec
      (h.toReadyList.setState h.cur_not_ready (by simp : TState.sleep ≠ .ready))
      (by simpa using h.curid_lt) (by simp)
    refine ⟨s', ys, by simp only [sysPause, if_neg pending, yield], scheduled, fun q => ?_, fun q b => ?_⟩
    · rw [moves.sig, sig_setState]
    · exact moves.buried q ⟨by rw [state_setState, if_neg (Ne.symm b.2), b.1], by simpa using b.2⟩

inductive Killed (s : ThreadState) (tf : TrapFrame) : ThreadState × TrapFrame → Prop
  | invalSignum : Killed s tf (s, syscallSetErrno tf .invalSignum)
  | invalPid : Killed s tf (s, syscallSetErrno tf .invalPid)
  | terminated (pid : Nat) (arg : (syscallGetArg2 tf).toInt = pid) (lt : pid < numIds)
      (alive : tcbGetState s pid ≠ .dead) (kill : (syscallGetArg3 tf).toInt = sigkill) :
      Killed s tf (terminateProcess s pid, syscallSetErrno tf .succ)
  | posted (pid : Nat) (arg : (syscallGetArg2 tf).toInt = pid) (lt : pid < numIds)
      (alive : tcbGetState s pid ≠ .dead) (signum : Nat) (signal : (syscallGetArg3 tf).toInt = signum)
      (pos : 1 ≤ signum) (bound : signum < nsig) (notKill : signum ≠ sigkill) :
      Killed s tf (wakeForSignal (tcbAddPendingSignal s pid signum) pid, syscallSetErrno tf .succ)

theorem sysKill_cases (s : ThreadState) (tf : TrapFrame) : Killed s tf (sysKill s tf) := by
  unfold sysKill
  dsimp only
  split
  · exact .invalSignum
  rename_i signumOk
  split
  · exact .invalPid
  rename_i pidOk
  rw [not_or, not_or] at pidOk
  obtain ⟨pid, arg⟩ := Int.eq_ofNat_of_zero_le (Int.not_lt.1 pidOk.1)
  obtain ⟨signum, signal⟩ := Int.eq_ofNat_of_zero_le (a := (syscallGetArg3 tf).toInt) (by omega)
  rw [arg, Int.toNat_natCast] at pidOk ⊢
  rw [signal] at signumOk ⊢
  have lt : pid < numIds := by exact_mod_cast Int.not_le.1 pidOk.2.1
  split
  · rename_i kill
    exact .terminated pid arg lt pidOk.2.2 (signal.trans kill)
  · rename_i kill
    exact .posted pid arg lt pidOk.2.2 signum signal (by omega) (by simp only [nsig] at *; omega)
      (by exact_mod_cast kill)

theorem wakeForSignal_tcbAdd (h : Scheduled s xs) (signum : Int) :
    ∃ ys, Scheduled (wakeForSignal (tcbAddPendingSignal s p signum) p) ys ∧
      Wakes (tcbAddPendingSignal s p signum) (wakeForSignal (tcbAddPendingSignal s p signum) p) := by
  refine wakeForSignal_spec (h.congr ?_ ?_ ?_) <;> unfold tcbAddPendingSignal <;> split <;> simp

theorem sysKill_spec (h : Scheduled s xs) (tf : TrapFrame) :
    (∃ ys, Scheduled (sysKill s tf).1 ys) ∧ ∀ q, Buried s q → Buried (sysKill s tf).1 q := by
  cases killed : sysKill s tf with
  | mk s' tf' =>
    cases killed ▸ sysKill_cases s tf with
    | invalSignum => exact ⟨⟨xs, h⟩, fun _ b => b⟩
    | invalPid => exact ⟨⟨xs, h⟩, fun _ b => b⟩
    | terminated pid arg lt alive kill => exact ⟨⟨_, h.terminate lt⟩, fun _ b => b.terminate⟩
    | posted pid arg lt alive signum signal pos bound notKill =>
      obtain ⟨ys, scheduled, wakes⟩ := wakeForSignal_tcbAdd (p := pid) h signum
      refine ⟨⟨ys, scheduled⟩, fun q b => wakes.buried ?_⟩
      unfold tcbAddPendingSignal
      split <;> simpa [Buried] using b

theorem schedUpdate_spec (h : Scheduled s xs) : ∃ s' ys, schedUpdate s = .ok s' ∧ Scheduled s' ys ∧ Moves s s' := by
  unfold schedUpdate
  dsimp only
  split
  · obtain ⟨s', ys, yield, scheduled, moves⟩ :=
      threadYield_spec (s := { s with schedTicks := Function.update s.schedTicks (getPcpuIdx s) 0 })
        (h.toReadyList.congr rfl fun _ => rfl) h.curid_lt h.cur_not_ready
    exact ⟨s', ys, yield, scheduled, moves.sig, moves.buried⟩
  · exact ⟨_, xs, rfl, h.congr rfl (fun _ => rfl) rfl, fun _ => rfl, fun _ b => b⟩

theorem state_threadSpawn (s : ThreadState) (p q : Nat) :
    tcbGetState (threadSpawn s p) q = if q = p then .ready else tcbGetState s q := by
  rw [threadSpawn, (onlyLinks_tqueueEnqueue ..).state, state_setState]

theorem curid_threadSpawn (s : ThreadState) (p : Nat) : getCurid (threadSpawn s p) = getCurid s := by
  rw [threadSpawn, (onlyLinks_tqueueEnqueue ..).curid, curid_setState]

theorem sig_threadSpawn (s : ThreadState) (p q : Nat) : tcbGetSigstate (threadSpawn s p) q = tcbGetSigstate s q := by
  rw [threadSpawn, (onlyLinks_tqueueEnqueue ..).sig, sig_setState]

theorem Scheduled.spawn (h : Scheduled s xs) (hp : p < numIds) (fresh : tcbGetState s p ≠ .ready)
    (other : getCurid s ≠ p) : Scheduled (threadSpawn s p) (xs ++ [p]) := by
  refine ⟨h.toReadyList.enqueue hp fresh, curid_threadSpawn s p ▸ h.curid_lt, ?_⟩
  rw [curid_threadSpawn, state_threadSpawn, if_neg other]
  exact h.curState

theorem threadSpawn_spec (h : Scheduled s xs) (hp : p < numIds) (buried : Buried s p) :
    Scheduled (threadSpawn s p) (xs ++ [p]) ∧ (∀ q, tcbGetSigstate (threadSpawn s p) q = tcbGetSigstate s q) ∧
      ∀ q, q ≠ p → Buried s q → Buried (threadSpawn s p) q := by
  refine ⟨h.spawn hp (by simp [buried.1]) buried.2, sig_threadSpawn s p, fun q hq b => ?_⟩
  exact ⟨by rw [state_threadSpawn, if_neg hq, b.1], by rw [curid_threadSpawn]; exact b.2⟩

end Preservation

end Certikos
