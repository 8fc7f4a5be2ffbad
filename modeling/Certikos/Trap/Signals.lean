import Certikos.Memory.Copy
import Certikos.Thread.Kill

/-!
# Delivering signals

`deliver_signal`, `handle_pending_signals` and `pgflt_handler` of `TTrapHandler.c`, and `sys_sigaction`,
`sys_sigreturn` and `sys_readline` of `TSyscall.c`.
-/

namespace Certikos
open Lib

structure KState where
  thread : ThreadState
  vm : VmState

def Halt.map {σ τ : Type} (f : σ → τ) : Halt σ → Halt τ
  | .panic msg s => .panic msg (f s)
  | .wildAccess s => .wildAccess (f s)

def KState.onThread (k : KState) : Except (Halt ThreadState) ThreadState → Except (Halt KState) KState
  | .ok thread => .ok { k with thread := thread }
  | .error halt => .error (halt.map fun thread => { k with thread := thread })

structure LocalBuf where
  addr : Word
  low : addr.toNat + 64 ≤ vmUserlo

section

variable (buf : LocalBuf)

/-! ## Delivery -/

def pushWord (vm : VmState) (pid : Nat) (uva value : Word) : VmState :=
  (ptCopyout { vm with mem := writeWord vm.mem buf.addr value } buf.addr pid uva 4#32).vm

def trampoline : List Byte :=
  [0xB8, SyscallNr.sigreturn.code.setWidth 8, 0x00, 0x00, 0x00, 0xCD, 0x30, 0xEB, 0xFE, 0x90, 0x90, 0x90]

def pushTrampoline (vm : VmState) (pid : Nat) (uva : Word) : VmState :=
  (ptCopyout { vm with mem := writeBytes vm.mem buf.addr trampoline } buf.addr pid uva 12#32).vm

def deliverSignal (k : KState) (tf : TrapFrame) (signum : Nat) : KState × TrapFrame :=
  let curPid := getCurid k.thread
  match tcbGetSigaction k.thread curPid signum with
  | none => (k, tf)
  | some sa =>
    if sa.saHandler ≠ 0#32 then
      let savedEipAddr := tf.esp - 4#32
      let vm := pushWord buf k.vm curPid savedEipAddr tf.eip
      let savedEspAddr := savedEipAddr - 4#32
      let vm := pushWord buf vm curPid savedEspAddr tf.esp
      let trampolineAddr := savedEspAddr - 12#32
      let vm := pushTrampoline buf vm curPid trampolineAddr
      let newEsp := trampolineAddr &&& ~~~3#32
      let newEsp := newEsp - 4#32
      let vm := pushWord buf vm curPid newEsp (BitVec.ofNat 32 signum)
      let newEsp := newEsp - 4#32
      let vm := pushWord buf vm curPid newEsp trampolineAddr
      let thread := tcbSetSignalContext k.thread curPid savedEspAddr savedEipAddr
      (⟨thread, vm⟩, { tf with esp := newEsp, eip := sa.saHandler })
    else (k, tf)

def firstSignal (pending : Word) : Option Nat :=
  (List.range' 1 (nsig - 1)).find? fun signum => pending &&& (1#32 <<< signum) ≠ 0#32

def terminateCurrent (k : KState) : Except (Halt KState) KState :=
  k.onThread (threadExit (terminateProcess k.thread (getCurid k.thread)))

def handlePendingSignals (k : KState) (tf : TrapFrame) : Except (Halt KState) (KState × TrapFrame) :=
  let curPid := getCurid k.thread
  match firstSignal (tcbGetPendingSignals k.thread curPid) with
  | none => .ok (k, tf)
  | some signum =>
    let k := { k with thread := tcbClearPendingSignal k.thread curPid signum }
    if signum = sigkill then (terminateCurrent k).map (·, tf)
    else
      match tcbGetSigaction k.thread curPid signum with
      | none => (terminateCurrent k).map (·, tf)
      | some sa =>
        if sa.saHandler ≠ 0#32 then .ok (deliverSignal buf k tf signum)
        else (terminateCurrent k).map (·, tf)

/-! ## System calls and page faults -/

def sysSigreturn (k : KState) (tf : TrapFrame) : KState × TrapFrame :=
  let curPid := getCurid k.thread
  let (savedEspAddr, savedEipAddr) := tcbGetSignalContext k.thread curPid
  if savedEspAddr = 0#32 ∨ savedEipAddr = 0#32 then (k, syscallSetErrno tf .invalAddr)
  else
    let esp := ptCopyin k.vm curPid savedEspAddr buf.addr 4#32
    if esp.copied ≠ 4#32 then (⟨k.thread, esp.vm⟩, syscallSetErrno tf .mem)
    else
      let eip := ptCopyin esp.vm curPid savedEipAddr (buf.addr + 4#32) 4#32
      if eip.copied ≠ 4#32 then (⟨k.thread, eip.vm⟩, syscallSetErrno tf .mem)
      else
        let savedEsp := readWord eip.vm.mem buf.addr
        let savedEip := readWord eip.vm.mem (buf.addr + 4#32)
        let thread := tcbClearSignalContext k.thread curPid
        (⟨thread, eip.vm⟩, syscallSetErrno { tf with esp := savedEsp, eip := savedEip } .succ)

def readSigaction (m : Mem) (a : Word) : Sigaction :=
  ⟨readWord m a, readWord m (a + 4#32), readWord m (a + 8#32), readWord m (a + 12#32), readWord m (a + 16#32)⟩

def writeSigaction (m : Mem) (a : Word) (act : Sigaction) : Mem :=
  let m := writeWord m a act.saHandler
  let m := writeWord m (a + 4#32) act.saSigaction
  let m := writeWord m (a + 8#32) act.saFlags
  let m := writeWord m (a + 12#32) act.saRestorer
  writeWord m (a + 16#32) act.saMask

def sysSigaction (k : KState) (tf : TrapFrame) : KState × TrapFrame :=
  let signum := (syscallGetArg2 tf).toInt
  let userAct := syscallGetArg3 tf
  let userOldact := syscallGetArg4 tf
  let curPid := getCurid k.thread
  if signum < 1 ∨ signum ≥ nsig then (k, syscallSetErrno tf .invalSignum)
  else
    let vm :=
      if userOldact ≠ 0#32 then
        match tcbGetSigaction k.thread curPid signum with
        | none => k.vm
        | some act =>
          let vm := { k.vm with mem := writeSigaction k.vm.mem buf.addr act }
          (ptCopyout vm buf.addr curPid userOldact 20#32).vm
      else k.vm
    if userAct ≠ 0#32 then
      -- when the copy is refused, the action is whatever the stack held
      let vm := (ptCopyin vm curPid userAct (buf.addr + 20#32) 20#32).vm
      let thread := tcbSetSigaction k.thread curPid signum (readSigaction vm.mem (buf.addr + 20#32))
      (⟨thread, vm⟩, syscallSetErrno tf .succ)
    else (⟨k.thread, vm⟩, syscallSetErrno tf .succ)

/-- `line` is what `readline` returns: the address and length of the line, `none` after Ctrl+C. -/
def sysReadline (k : KState) (tf : TrapFrame) (line : Option (Word × Word)) :
    Except (Halt KState) (KState × TrapFrame) :=
  let curPid := getCurid k.thread
  let userbuf := syscallGetArg2 tf
  match line with
  | none =>
    let thread := tcbAddPendingSignal k.thread curPid sigint
    let vm := { k.vm with mem := writeBytes k.vm.mem buf.addr [0] }
    let vm := (ptCopyout vm buf.addr curPid userbuf 1#32).vm
    .ok (⟨thread, vm⟩, syscallSetRetval1 (syscallSetErrno tf .invalEvent) (-1#32))
  | some (kernbuf, nLen) =>
    let r := ptCopyout k.vm kernbuf curPid userbuf nLen
    if r.copied ≠ nLen then .error (.panic "Readline fails!\n" { k with vm := r.vm })
    else .ok (⟨k.thread, r.vm⟩, syscallSetRetval1 (syscallSetErrno tf .succ) 0#32)

end

abbrev pfePr : Word := 1#32

def pgfltHandler (k : KState) (tf : TrapFrame) (faultVa : Word) : Except (Halt KState) KState :=
  let curPid := getCurid k.thread
  if curPid > 0 ∧ (tf.err &&& pfePr ≠ 0#32 ∨ faultVa.toNat < vmUserlo) then
    .ok { k with thread := tcbAddPendingSignal k.thread curPid sigsegv }
  else if tf.err &&& pfePr ≠ 0#32 then
    .error (.panic "Permission denied: va = 0x%08x, errno = 0x%08x.\n" k)
  else
    let (vm, result) := allocPage k.vm curPid faultVa (pteW + pteU + pteP)
    if result = magicNumber then
      .error (.panic "Page allocation failed: va = 0x%08x, errno = 0x%08x.\n" { k with vm := vm })
    else .ok { k with vm := vm }

/-! ## Pending bits -/

theorem decide_bit (pending : Word) {n : Nat} (hn : n < 32) :
    decide (pending &&& (1#32 <<< n) ≠ 0#32) = pending.getLsbD n := by
  rw [← BitVec.twoPow_eq, BitVec.and_twoPow]
  cases bit : pending.getLsbD n with
  | false => simp
  | true =>
    simp only [if_true, decide_eq_true_eq]
    intro zero
    have := congrArg (BitVec.getLsbD · n) zero
    simp [hn] at this

theorem firstSignal_eq_some {pending : Word} {n : Nat} :
    firstSignal pending = some n ↔ (1 ≤ n ∧ n < nsig) ∧ pending.getLsbD n = true ∧
      ∀ j, 1 ≤ j → j < n → pending.getLsbD j = false := by
  unfold firstSignal
  rw [List.find?_range'_eq_some, List.mem_range'_1]
  constructor
  · rintro ⟨here, range, before⟩
    simp only [nsig] at range
    have lt : n < 32 := by omega
    refine ⟨⟨range.1, lt⟩, ?_, fun j pos less => ?_⟩
    · rwa [decide_bit pending lt] at here
    · have := before j pos less
      rwa [decide_bit pending (by omega), Bool.not_eq_true'] at this
  · rintro ⟨⟨pos, lt⟩, here, before⟩
    have lt32 : n < 32 := lt
    refine ⟨?_, ⟨pos, by simp only [nsig]; omega⟩, fun j pos less => ?_⟩
    · rw [decide_bit pending lt32, here]
    · rw [decide_bit pending (by omega), before j pos less, Bool.not_false]

theorem firstSignal_eq_none {pending : Word} :
    firstSignal pending = none ↔ ∀ n, 1 ≤ n → n < nsig → pending.getLsbD n = false := by
  unfold firstSignal
  rw [List.find?_range'_eq_none]
  constructor
  · intro none n pos lt
    have lt32 : n < 32 := lt
    have := none n pos (by simp only [nsig]; omega)
    rwa [decide_bit pending lt32, Bool.not_eq_true'] at this
  · intro none n pos lt
    have lt32 : n < 32 := by simp only [nsig] at lt; omega
    rw [decide_bit pending lt32, none n pos lt32, Bool.not_false]

def pendingBit (s : ThreadState) (pid n : Nat) : Bool := (tcbGetPendingSignals s pid).getLsbD n

variable {signum : Nat}

variable (esp : Word) (buf : LocalBuf) (k : KState) (tf : TrapFrame) (s : ThreadState) (pid : Nat)

theorem pendingBit_add (lt : signum < nsig) (q n : Nat) :
    pendingBit (tcbAddPendingSignal s pid signum) q n = (pendingBit s q n || decide (q = pid ∧ n = signum)) := by
  have range : (signum : Int) ≥ 0 ∧ (signum : Int) < nsig := ⟨by omega, by exact_mod_cast lt⟩
  have lt32 : signum < 32 := lt
  unfold pendingBit tcbGetPendingSignals tcbAddPendingSignal
  rw [if_pos range, sig_modifySigstate]
  by_cases here : q = pid
  · rw [if_pos here, here]
    simp only [Int.toNat_natCast, BitVec.getLsbD_or, ← BitVec.twoPow_eq, BitVec.getLsbD_twoPow, true_and]
    by_cases bit : n = signum
    · simp [bit, lt32]
    · simp [bit, Ne.symm bit]
  · simp [here]

theorem pendingBit_clear (lt : signum < nsig) (q n : Nat) :
    pendingBit (tcbClearPendingSignal s pid signum) q n = (pendingBit s q n && !decide (q = pid ∧ n = signum)) := by
  have range : (signum : Int) ≥ 0 ∧ (signum : Int) < nsig := ⟨by omega, by exact_mod_cast lt⟩
  unfold pendingBit tcbGetPendingSignals tcbClearPendingSignal
  rw [if_pos range, sig_modifySigstate]
  by_cases here : q = pid
  · rw [if_pos here, here]
    simp only [Int.toNat_natCast, BitVec.getLsbD_and, BitVec.getLsbD_not, ← BitVec.twoPow_eq, BitVec.getLsbD_twoPow,
      true_and]
    by_cases bit : n = signum
    · simp [bit, lt]
    · by_cases top : n < 32
      · simp [bit, Ne.symm bit, top]
      · simp [BitVec.getLsbD_of_ge _ n (not_lt.mp top)]
  · simp [here]

/-! ## What handling a pending signal does -/

def handlerOf (s : ThreadState) (pid signum : Nat) : Word :=
  ((tcbGetSigstate s pid).sigactions signum).saHandler

theorem tcbGetSigaction_eq (lt : signum < nsig) :
    tcbGetSigaction s pid signum = some ((tcbGetSigstate s pid).sigactions signum) := by
  have range : ¬((signum : Int) < 0 ∨ (signum : Int) ≥ nsig) := by
    have : (signum : Int) < nsig := by exact_mod_cast lt
    omega
  rw [tcbGetSigaction, if_neg range, Int.toNat_natCast]

@[simp] theorem actions_clear (q : Nat) (signum : Int) :
    (tcbGetSigstate (tcbClearPendingSignal s pid signum) q).sigactions = (tcbGetSigstate s q).sigactions := by
  unfold tcbClearPendingSignal
  split
  · rw [sig_modifySigstate]
    split
    · rename_i here
      rw [here]
    · rfl
  · rfl

@[simp] theorem curid_clear (signum : Int) :
    getCurid (tcbClearPendingSignal s pid signum) = getCurid s := by
  unfold tcbClearPendingSignal
  split
  · rfl
  · rfl

inductive Handled (buf : LocalBuf) (k : KState) (tf : TrapFrame) : Except (Halt KState) (KState × TrapFrame) → Prop
  | nothing (quiet : firstSignal (tcbGetPendingSignals k.thread (getCurid k.thread)) = none) :
      Handled buf k tf (.ok (k, tf))
  | terminated (signum : Nat)
      (first : firstSignal (tcbGetPendingSignals k.thread (getCurid k.thread)) = some signum)
      (fatal : signum = sigkill ∨ handlerOf k.thread (getCurid k.thread) signum = 0#32) :
      Handled buf k tf ((terminateCurrent
        { k with thread := tcbClearPendingSignal k.thread (getCurid k.thread) signum }).map (·, tf))
  | delivered (signum : Nat)
      (first : firstSignal (tcbGetPendingSignals k.thread (getCurid k.thread)) = some signum)
      (catchable : signum ≠ sigkill) (handler : handlerOf k.thread (getCurid k.thread) signum ≠ 0#32) :
      Handled buf k tf (.ok (deliverSignal buf
        { k with thread := tcbClearPendingSignal k.thread (getCurid k.thread) signum } tf signum))

theorem handlePendingSignals_cases :
    Handled buf k tf (handlePendingSignals buf k tf) := by
  unfold handlePendingSignals
  dsimp only
  cases first : firstSignal (tcbGetPendingSignals k.thread (getCurid k.thread)) with
  | none => exact .nothing first
  | some signum =>
    have lt := (firstSignal_eq_some.1 first).1.2
    dsimp only
    rw [tcbGetSigaction_eq _ _ lt]
    by_cases kill : signum = sigkill
    · rw [if_pos kill]
      exact .terminated signum first (.inl kill)
    · rw [if_neg kill]
      by_cases handler : handlerOf k.thread (getCurid k.thread) signum = 0#32
      · dsimp only
        rw [actions_clear, ← handlerOf, if_neg (not_not.2 handler)]
        exact .terminated signum first (.inr handler)
      · dsimp only
        rw [actions_clear, ← handlerOf, if_pos handler]
        exact .delivered signum first kill handler

/-! ## The frame of a handler -/

theorem sub_frame : esp - 4#32 - 4#32 - 12#32 = esp - 20#32 := by bv_omega

theorem sub_args : esp - 4#32 - 4#32 = esp - 8#32 := by bv_omega

def frameBase (esp : Word) : Word := (esp - 20#32) &&& ~~~3#32

/-- The last three copies of `deliver_signal`: the trampoline, the argument of the handler and its return address. -/
def callVm (buf : LocalBuf) (vm : VmState) (pid : Nat) (esp : Word) (signum : Nat) : VmState :=
  let vm := pushTrampoline buf vm pid (esp - 20#32)
  let vm := pushWord buf vm pid (frameBase esp - 4#32) (BitVec.ofNat 32 signum)
  pushWord buf vm pid (frameBase esp - 8#32) (esp - 20#32)

def frameVm (buf : LocalBuf) (vm : VmState) (pid : Nat) (esp eip : Word) (signum : Nat) : VmState :=
  callVm buf (pushWord buf (pushWord buf vm pid (esp - 4#32) eip) pid (esp - 8#32) esp) pid esp signum

def Delivering (k : KState) (signum : Nat) : Prop :=
  signum < nsig ∧ handlerOf k.thread (getCurid k.thread) signum ≠ 0#32
deriving Decidable

theorem deliverSignal_eq (signum : Nat) :
    deliverSignal buf k tf signum =
      if Delivering k signum then
        (⟨tcbSetSignalContext k.thread (getCurid k.thread) (tf.esp - 8#32) (tf.esp - 4#32),
            frameVm buf k.vm (getCurid k.thread) tf.esp tf.eip signum⟩,
          { tf with
            esp := frameBase tf.esp - 8#32
            eip := handlerOf k.thread (getCurid k.thread) signum })
      else (k, tf) := by
  by_cases lt : signum < nsig
  · unfold deliverSignal
    dsimp only
    rw [tcbGetSigaction_eq _ _ lt]
    dsimp only
    rw [← handlerOf]
    by_cases handler : handlerOf k.thread (getCurid k.thread) signum = 0#32
    · rw [if_neg (not_not.2 handler), if_neg fun delivering => delivering.2 handler]
    · rw [if_pos handler, if_pos ⟨lt, handler⟩, sub_frame, sub_args tf.esp, ← frameBase, sub_args (frameBase tf.esp)]
      rfl
  · have none : tcbGetSigaction k.thread (getCurid k.thread) signum = none := by
      rw [tcbGetSigaction, if_pos]
      exact .inr (by exact_mod_cast not_lt.mp lt)
    rw [if_neg fun delivering => lt delivering.1]
    unfold deliverSignal
    dsimp only
    rw [none]

theorem deliverSignal_frame (lt : signum < nsig)
    (handler : handlerOf k.thread (getCurid k.thread) signum ≠ 0#32) :
    (deliverSignal buf k tf signum).2 =
      { tf with
        esp := frameBase tf.esp - 8#32
        eip := handlerOf k.thread (getCurid k.thread) signum } := by
  rw [deliverSignal_eq, if_pos ⟨lt, handler⟩]

theorem frame_esp_ne : frameBase esp - 8#32 ≠ esp := by
  intro same
  have rounded := toNat_wordMask (esp - 20#32)
  rw [← frameBase] at rounded
  generalize frameBase esp = base at *
  bv_omega

/-! ## Frames of kernel mode -/

def Delivers (k : KState) : Prop :=
  ∃ signum, firstSignal (tcbGetPendingSignals k.thread (getCurid k.thread)) = some signum ∧
    signum ≠ sigkill ∧ handlerOf k.thread (getCurid k.thread) signum ≠ 0#32

def FrameKept (tf : TrapFrame) : Except (Halt KState) (KState × TrapFrame) → Prop
  | .ok (_, tf') => tf'.eip = tf.eip ∧ tf'.esp = tf.esp
  | .error _ => True

theorem frameKept_map (r : Except (Halt KState) KState) : FrameKept tf (r.map (·, tf)) := by
  cases r with
  | error halt => trivial
  | ok k => exact ⟨rfl, rfl⟩

theorem Handled.frameKept_iff {buf : LocalBuf} {k : KState} {tf : TrapFrame}
    {r : Except (Halt KState) (KState × TrapFrame)} (handled : Handled buf k tf r) :
    FrameKept tf r ↔ ¬Delivers k := by
  cases handled with
  | nothing quiet =>
    refine iff_of_true ⟨rfl, rfl⟩ ?_
    rintro ⟨signum, first, -⟩
    rw [quiet] at first
    contradiction
  | terminated signum first fatal =>
    refine iff_of_true (frameKept_map tf _) ?_
    rintro ⟨other, second, catchable, handler⟩
    rw [first] at second
    cases second
    exact fatal.elim catchable handler
  | delivered signum first catchable handler =>
    refine iff_of_false ?_ (not_not.2 ⟨signum, first, catchable, handler⟩)
    intro kept
    have lt := (firstSignal_eq_some.1 first).1.2
    have frame := deliverSignal_frame buf
      { k with thread := tcbClearPendingSignal k.thread (getCurid k.thread) signum } tf lt
      (by rwa [handlerOf, actions_clear, curid_clear])
    exact frame_esp_ne tf.esp ((congrArg TrapFrame.esp frame).symm.trans kept.2)

theorem handlePendingSignals_kernelFrame (buf : LocalBuf) (k : KState) (tf : TrapFrame) :
    tf.KernelMode → (FrameKept tf (handlePendingSignals buf k tf) ↔ ¬Delivers k) :=
  fun _ => (handlePendingSignals_cases buf k tf).frameKept_iff

/-- A timer interrupt that arrives while `sys_produce` runs with interrupts enabled. -/
def producerFrame : TrapFrame :=
  { syscallFrame .produce 0 0 0 with trapno := 32, eip := 0x100000, cs := 0x08, esp := 0x00200000, ss := 0x10 }

def stackBuf : LocalBuf := ⟨0x00300000, by decide⟩

def signalled : KState where
  thread :=
    let act : Sigaction := ⟨0x40001000, 0, 0, 0, 0⟩
    tcbAddPendingSignal (tcbSetSigaction (setCurid idleThreads 1) 1 10 act) 1 10
  vm := blankVm

theorem handlePendingSignals_kernelFrame_idle :
    FrameKept producerFrame (handlePendingSignals stackBuf ⟨idleThreads, blankVm⟩ producerFrame) ↔
      ¬Delivers ⟨idleThreads, blankVm⟩ :=
  handlePendingSignals_kernelFrame stackBuf ⟨idleThreads, blankVm⟩ producerFrame (by decide)

theorem handlePendingSignals_entersHandler :
    producerFrame.KernelMode ∧
      ∃ k tf, handlePendingSignals stackBuf signalled producerFrame = .ok (k, tf) ∧ tf.KernelMode ∧
        tf.eip = 0x40001000 ∧ tf.eip ≠ producerFrame.eip ∧ tf.esp ≠ producerFrame.esp := by
  refine ⟨by decide, _, _, rfl, by decide, rfl, by decide, ?_⟩
  decide

end Certikos
