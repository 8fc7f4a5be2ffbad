import Certikos.Trap.ProcessTree

/-!
# No signal is lost or invented

What becomes of the pending masks in every run: which events set a bit, which event clears one, and what the return
from a trap does with the lowest bit.
-/

namespace Certikos
open Lib

def Lowest (pending : Word) (signum : Nat) : Prop :=
  pending.getLsbD signum = true ∧ ∀ n, n < signum → pending.getLsbD n = false

structure Catchable (s : ThreadState) : Prop where
  zero : ∀ p, pendingBit s p 0 = false
  kill : ∀ p, pendingBit s p sigkill = false

structure Terminated (k k' : KState) (pid : Nat) : Prop where
  dead : tcbGetState k'.thread pid = .dead
  empty : tcbGetPendingSignals k'.thread pid = 0#32
  others : ∀ q, q ≠ pid → tcbGetPendingSignals k'.thread q = tcbGetPendingSignals k.thread q

/-- What `handle_pending_signals` does with a pending signal. It halts only where the last thread ends. -/
inductive Consumes (k : KState) (signum : Nat) : Except (Halt KState) (KState × TrapFrame) → Prop
  | delivered {k' : KState} {tf : TrapFrame} (handler : handlerOf k.thread (getCurid k.thread) signum ≠ 0#32)
      (eip : tf.eip = handlerOf k.thread (getCurid k.thread) signum)
      (pending : ∀ q n, pendingBit k'.thread q n =
        (pendingBit k.thread q n && !decide (q = getCurid k.thread ∧ n = signum)))
      (state : ∀ q, tcbGetState k'.thread q = tcbGetState k.thread q) : Consumes k signum (.ok (k', tf))
  | ended {k' : KState} {tf : TrapFrame} (default : handlerOf k.thread (getCurid k.thread) signum = 0#32)
      (terminated : Terminated k k' (getCurid k.thread)) : Consumes k signum (.ok (k', tf))
  | halted {k' : KState} {msg : String} (default : handlerOf k.thread (getCurid k.thread) signum = 0#32)
      (terminated : Terminated k k' (getCurid k.thread)) : Consumes k signum (.error (.panic msg k'))

structure TrapReturnLaw (k : KState) (buf : LocalBuf) (tf : TrapFrame) : Prop where
  quiet : tcbGetPendingSignals k.thread (getCurid k.thread) = 0#32 → handlePendingSignals buf k tf = .ok (k, tf)
  consumes : tcbGetPendingSignals k.thread (getCurid k.thread) ≠ 0#32 →
    ∃ signum, Lowest (tcbGetPendingSignals k.thread (getCurid k.thread)) signum ∧ signum ≠ sigkill ∧
      Consumes k signum (handlePendingSignals buf k tf)

inductive Consumed (k : KState) : Event → (pid signum : Nat) → Prop
  | lowest (buf : LocalBuf) (tf : TrapFrame) {signum : Nat}
      (lowest : Lowest (tcbGetPendingSignals k.thread (getCurid k.thread)) signum) :
      Consumed k (.trapReturn buf tf) (getCurid k.thread) signum

structure EventLaw (k : KState) (e : Event) (k' : KState) : Prop where
  kept : ∀ p n, pendingBit k.thread p n = true →
    pendingBit k'.thread p n = true ∨ tcbGetState k'.thread p = .dead ∨ Consumed k e p n
  set : ∀ p n, pendingBit k'.thread p n = true → pendingBit k.thread p n = true ∨ Posts k e p n
  posted : ∀ p n, Posts k e p n → pendingBit k'.thread p n = true

variable {xs : List Nat}

section Laws

variable {k k' : KState}

variable {signum pid : Nat} {images : Nat → Word} {e : Event}

theorem lowest_of_first (clean : Catchable k.thread)
    (first : firstSignal (tcbGetPendingSignals k.thread (getCurid k.thread)) = some signum) :
    Lowest (tcbGetPendingSignals k.thread (getCurid k.thread)) signum := by
  obtain ⟨-, here, before⟩ := firstSignal_eq_some.1 first
  refine ⟨here, fun n less => ?_⟩
  cases n with
  | zero => exact clean.zero _
  | succ n => exact before (n + 1) (Nat.succ_pos n) less

theorem firstSignal_some (clean : Catchable k.thread)
    (pending : tcbGetPendingSignals k.thread (getCurid k.thread) ≠ 0#32) :
    ∃ signum, firstSignal (tcbGetPendingSignals k.thread (getCurid k.thread)) = some signum := by
  cases first : firstSignal (tcbGetPendingSignals k.thread (getCurid k.thread)) with
  | some signum => exact ⟨signum, rfl⟩
  | none =>
    refine absurd (BitVec.eq_of_getLsbD_eq fun n lt => ?_) pending
    rw [BitVec.getLsbD_zero]
    cases n with
    | zero => exact clean.zero _
    | succ n => exact firstSignal_eq_none.1 first (n + 1) (Nat.succ_pos n) lt

theorem terminated_of_sig (signum : Nat) (dead : tcbGetState k'.thread (getCurid k.thread) = .dead)
    (sig : ∀ q, tcbGetSigstate k'.thread q =
      tcbGetSigstate (terminateProcess (cleared k signum).thread (getCurid k.thread)) q) :
    Terminated k k' (getCurid k.thread) := by
  refine ⟨dead, ?_, fun q other => ?_⟩
  · rw [tcbGetPendingSignals, sig, terminateProcess_sig, if_pos rfl]
    rfl
  · rw [tcbGetPendingSignals, sig, terminateProcess_sig, if_neg other]
    unfold cleared tcbClearPendingSignal
    split
    · rw [sig_modifySigstate, if_neg other]
      rfl
    · rfl

theorem catchable_of_bits (clean : Catchable k.thread)
    (old : ∀ p n, pendingBit k'.thread p n = true → pendingBit k.thread p n = true ∨ 1 ≤ n ∧ n ≠ sigkill) :
    Catchable k'.thread := by
  constructor
  · intro p
    rw [← Bool.not_eq_true]
    intro set
    rcases old p 0 set with bit | ⟨pos, -⟩
    · rw [clean.zero] at bit
      contradiction
    · contradiction
  · intro p
    rw [← Bool.not_eq_true]
    intro set
    rcases old p sigkill set with bit | ⟨-, other⟩
    · rw [clean.kill] at bit
      contradiction
    · contradiction

theorem pendingBit_delivered (buf : LocalBuf) (tf : TrapFrame) (lt : signum < nsig)
    (handler : handlerOf k.thread (getCurid k.thread) signum ≠ 0#32) (q n : Nat) :
    pendingBit (deliverSignal buf (cleared k signum) tf signum).1.thread q n =
      (pendingBit k.thread q n && !decide (q = getCurid k.thread ∧ n = signum)) := by
  obtain ⟨thread, -⟩ := deliverSignal_state buf (cleared k signum) tf lt (by rwa [handlerOf_cleared])
  rw [← pendingBit_clear k.thread (getCurid k.thread) lt, thread]
  unfold pendingBit
  congr 1
  exact part_modifySigstate SigState.pendingSignals _ _ _ q fun _ => rfl

theorem trapReturnLaw (scheduled : Scheduled k.thread xs) (clean : Catchable k.thread)
    (buf : LocalBuf) (tf : TrapFrame) : TrapReturnLaw k buf tf := by
  have ways := handlePendingSignals_cases buf k tf
  constructor
  · intro empty
    cases first : firstSignal (tcbGetPendingSignals k.thread (getCurid k.thread)) with
    | none =>
      unfold handlePendingSignals
      dsimp only
      rw [first]
    | some signum =>
      have here := (firstSignal_eq_some.1 first).2.1
      rw [empty, BitVec.getLsbD_zero] at here
      contradiction
  · intro pending
    obtain ⟨signum, first⟩ := firstSignal_some clean pending
    have lowest := lowest_of_first clean first
    have notKill : signum ≠ sigkill := by
      rintro rfl
      have bit := clean.kill (getCurid k.thread)
      rw [pendingBit, lowest.1] at bit
      contradiction
    refine ⟨signum, lowest, notKill, ?_⟩
    generalize handlePendingSignals buf k tf = r at ways
    cases ways with
    | nothing quiet =>
      rw [first] at quiet
      contradiction
    | terminated other second fatal =>
      rw [first] at second
      cases second
      have default := fatal.resolve_left notKill
      have kept : Scheduled (cleared k signum).thread xs := (onlySignals_clear ..).scheduled scheduled
      rcases terminateCurrent_cases kept with ⟨k', done, -, buried, sig⟩ | ⟨msg, halted⟩
      · rw [← cleared, done]
        rw [cleared, curid_clear] at buried sig
        exact .ended default (terminated_of_sig signum buried.1 sig)
      · rw [← cleared, halted]
        refine .halted default (terminated_of_sig signum ?_ fun q => ?_)
        · rw [terminateProcess_state, cleared, curid_clear, if_pos rfl]
        · rw [cleared, curid_clear]
    | delivered other second catchable handler =>
      rw [first] at second
      cases second
      have lt := (firstSignal_eq_some.1 first).1.2
      have frame := deliverSignal_frame buf (cleared k signum) tf lt (by rwa [handlerOf_cleared])
      obtain ⟨thread, -⟩ := deliverSignal_state buf (cleared k signum) tf lt (by rwa [handlerOf_cleared])
      refine .delivered handler ?_ (pendingBit_delivered buf tf lt handler) ?_
      · exact (congrArg TrapFrame.eip frame).trans (handlerOf_cleared k signum)
      · intro q
        exact (congrArg (tcbGetState · q) thread).trans
          (((onlySignals_clear ..).trans (onlySignals_modifySigstate ..)).state q)

theorem sysKill_post {s : ThreadState} {tf : TrapFrame} (arg : (syscallGetArg2 tf).toInt = pid)
    (signal : (syscallGetArg3 tf).toInt = signum) (lt : pid < numIds) (alive : tcbGetState s pid ≠ .dead)
    (pos : 1 ≤ signum) (bound : signum < nsig) (notKill : signum ≠ sigkill) :
    (sysKill s tf).1 = wakeForSignal (tcbAddPendingSignal s pid signum) pid := by
  unfold sysKill
  dsimp only
  rw [arg, signal, Int.toNat_natCast, if_neg, if_neg, if_neg]
  · rfl
  · exact_mod_cast notKill
  · simp only [numIds] at *
    rintro (neg | large | dead)
    · omega
    · omega
    · exact alive dead
  · simp only [nsig] at *
    omega

theorem posts_pending (scheduled : Scheduled k.thread xs) (h : step images k e = .ok k')
    (posts : Posts k e pid signum) :
    pendingBit k'.thread pid signum = true := by
  cases posts with
  | kill tf _ _ arg signal lt alive pos bound notKill =>
    have thread : (sysKill k.thread tf).1 = k'.thread := congrArg KState.thread (Except.ok.inj h)
    obtain ⟨ys, -, wakes⟩ := wakeForSignal_tcbAdd (p := pid) scheduled signum
    rw [← thread, sysKill_post arg signal lt alive pos bound notKill, pendingBit,
      (SameSignals.of_sig wakes.sig).pending, ← pendingBit, pendingBit_add _ _ bound]
    simp
  | segv tf faultVa user bad =>
    have fault : pgfltHandler k tf faultVa = .ok k' := h
    rw [pgfltHandler, if_pos ⟨user, bad⟩] at fault
    cases fault
    rw [pendingBit_add _ _ (by decide)]
    simp
  | interrupt buf tf =>
    cases h
    rw [pendingBit_add _ _ (by decide)]
    simp

theorem eventLaw (scheduled : Scheduled k.thread xs) (clean : Catchable k.thread) (h : step images k e = .ok k') :
    EventLaw k e k' := by
  have posted (p n : Nat) (posts : Posts k e p n) := posts_pending scheduled h posts
  have of_same (same : ∀ q, tcbGetPendingSignals k'.thread q = tcbGetPendingSignals k.thread q) : EventLaw k e k' := by
    have bit (q n : Nat) : pendingBit k'.thread q n = pendingBit k.thread q n := by
      rw [pendingBit, same, pendingBit]
    exact ⟨fun p n pending => .inl ((bit p n).trans pending), fun p n pending => .inl ((bit p n).symm.trans pending),
      posted⟩
  have of_terminated (pid : Nat) (ended : Terminated k k' pid) : EventLaw k e k' := by
    have other {p : Nat} (hp : p ≠ pid) (n : Nat) : pendingBit k'.thread p n = pendingBit k.thread p n := by
      rw [pendingBit, ended.others p hp, pendingBit]
    refine ⟨fun p n pending => ?_, fun p n pending => ?_, posted⟩
    · by_cases here : p = pid
      · exact .inr (.inl (here ▸ ended.dead))
      · exact .inl ((other here n).trans pending)
    · by_cases here : p = pid
      · rw [pendingBit, here, ended.empty, BitVec.getLsbD_zero] at pending
        contradiction
      · exact .inl ((other here n).symm.trans pending)
  cases step_cases ⟨xs, scheduled⟩ h with
  | quiet same moved => exact of_same same.pending
  | posted pid signum posts pending context moved =>
    refine ⟨fun p n old => .inl ?_, fun p n new => ?_, posted⟩
    · rw [pending, old, Bool.true_or]
    · rw [pending, Bool.or_eq_true, decide_eq_true_eq] at new
      rcases new with old | ⟨rfl, rfl⟩
      · exact .inl old
      · exact .inr posts
  | killed pid arg signal lt alive =>
    refine of_terminated pid ⟨?_, ?_, fun q other => ?_⟩
    · exact (terminateProcess_state ..).trans (if_pos rfl)
    · rw [tcbGetPendingSignals, terminateProcess_sig, if_pos rfl]
      rfl
    · rw [tcbGetPendingSignals, terminateProcess_sig, if_neg other, tcbGetPendingSignals]
  | spawned quota vm parent lt children => exact of_same (sameSignals_threadSpawn ..).pending
  | returned vm children => exact of_same fun q => pending_clearContext ..
  | delivered signum first catchable handler =>
    rename_i buf tf
    have lt := (firstSignal_eq_some.1 first).1.2
    have bit := pendingBit_delivered (k := k) buf tf lt handler
    refine ⟨fun p n pending => ?_, fun p n pending => ?_, posted⟩
    · by_cases taken : p = getCurid k.thread ∧ n = signum
      · obtain ⟨rfl, rfl⟩ := taken
        exact .inr (.inr (.lowest buf tf (lowest_of_first clean first)))
      · exact .inl ((bit p n).trans (by simp [pending, taken]))
    · have both := (bit p n).symm.trans pending
      rw [Bool.and_eq_true] at both
      exact .inl both.1
  | ended signum first fatal exit =>
    obtain ⟨-, buried, sig⟩ := ended_ok scheduled exit
    exact of_terminated _ (terminated_of_sig signum buried.1 sig)

theorem EventLaw.catchable (law : EventLaw k e k') (clean : Catchable k.thread) : Catchable k'.thread :=
  catchable_of_bits clean fun p n pending =>
    (law.set p n pending).imp id fun posts => ⟨posts.range.1, posts.range.2.2⟩

end Laws

/-- In every run each return from a trap consumes the lowest pending signal and nothing else, every other
event keeps what is pending and adds only what is posted, and SIGKILL is never pending. -/
theorem run_signalLaw (images : Nat → Word) (start : KState) (booted : Booted start)
    (clean : Catchable start.thread) (es : List Event)
    (range : Along (step images) (fun k e => e.SpawnsInRange k) start es) (k : KState)
    (reached : run (step images) start es = .ok k) :
    Catchable k.thread ∧ (∀ buf tf, TrapReturnLaw k buf tf) ∧
      ∀ e k', step images k e = .ok k' → EventLaw k e k' := by
  have inv : Booted k ∧ Catchable k.thread := by
    refine run_invariant (fun k => Booted k ∧ Catchable k.thread) ?_ ⟨booted, clean⟩ range reached
    rintro k e k' ⟨booted, clean⟩ inRange next
    obtain ⟨xs, scheduled⟩ := booted.scheduled
    exact ⟨((step_cases booted.scheduled next).grown booted inRange).booted,
      (eventLaw scheduled clean next).catchable clean⟩
  obtain ⟨xs, scheduled⟩ := inv.1.scheduled
  exact ⟨inv.2, trapReturnLaw scheduled inv.2, fun e k' next => eventLaw scheduled inv.2 next⟩

theorem threeProcesses_catchable : Catchable threeProcesses.thread := by
  have idle (p n : Nat) : pendingBit threeProcesses.thread p n = false := by
    have two := (sameSignals_threadSpawn (threadSpawn idleThreads 1) 2).pending p
    have one := (sameSignals_threadSpawn idleThreads 1).pending p
    rw [pendingBit, threeProcesses, two, one]
    exact BitVec.getLsbD_zero
  exact ⟨fun p => idle p 0, fun p => idle p sigkill⟩

def postRun : List Event :=
  [.yield, .kill (syscallFrame .kill 2 10 0), .yield, .trapReturn stackBuf (syscallFrame .pause 0 0 0)]

theorem postRun_reaches : Reaches (run (step fun _ => 0) threeProcesses postRun) fun _ => True := by
  decide +kernel

theorem postRun_inRange : Along (step fun _ => 0) (fun k e => e.SpawnsInRange k) threeProcesses postRun := by
  decide +kernel

theorem run_signalLaw_postRun : Reaches (run (step fun _ => 0) threeProcesses postRun) fun k =>
    Catchable k.thread ∧ (∀ buf tf, TrapReturnLaw k buf tf) ∧
      ∀ e k', step (fun _ => 0) k e = .ok k' → EventLaw k e k' := by
  obtain ⟨k, reached, -⟩ := postRun_reaches
  exact ⟨k, reached, run_signalLaw (fun _ => 0) threeProcesses threeProcesses_booted threeProcesses_catchable postRun
    postRun_inRange k reached⟩

end Certikos
