import Certikos.Machine
import Mathlib.Logic.Function.Basic

/-!
# Thread control blocks, queue heads and the current thread

The accessors of `PTCBIntro.c`, `PTQueueIntro.c` and `PCurID.c` over an explicit state. Every
setter writes one field at one index; the `simp` lemmas say what each getter sees afterwards, so
that nothing above this module looks inside the state.
-/

namespace Certikos
open Lib Function

inductive TState
  | ready | run | sleep | dead
  deriving DecidableEq, Repr

structure Sigaction where
  saHandler : Word
  saSigaction : Word
  saFlags : Word
  saRestorer : Word
  saMask : Word
  deriving DecidableEq, Repr

structure SigState where
  sigactions : Nat → Sigaction
  pendingSignals : Word
  savedEspAddr : Word
  savedEipAddr : Word
  inSignalHandler : Word

structure TCB where
  state : TState
  prev : Nat
  next : Nat
  channel : Word
  sigstate : SigState

structure TQueue where
  head : Nat
  tail : Nat
  deriving DecidableEq

structure ThreadState where
  tcbPool : Nat → TCB
  tqueuePool : Nat → Nat → TQueue
  curid : Nat → Nat
  schedTicks : Nat → Word
  pcpuIdx : Nat

/-! ## The thread control block -/

def tcbGetState (s : ThreadState) (pid : Nat) : TState := (s.tcbPool pid).state
def tcbGetPrev (s : ThreadState) (pid : Nat) : Nat := (s.tcbPool pid).prev
def tcbGetNext (s : ThreadState) (pid : Nat) : Nat := (s.tcbPool pid).next
def tcbGetChan (s : ThreadState) (pid : Nat) : Word := (s.tcbPool pid).channel
def tcbGetSigstate (s : ThreadState) (pid : Nat) : SigState := (s.tcbPool pid).sigstate

def modifyTcb (s : ThreadState) (pid : Nat) (f : TCB → TCB) : ThreadState :=
  { s with tcbPool := update s.tcbPool pid (f (s.tcbPool pid)) }

def tcbSetState (s : ThreadState) (pid : Nat) (state : TState) : ThreadState :=
  modifyTcb s pid fun t => { t with state := state }

def tcbSetPrev (s : ThreadState) (pid prevPid : Nat) : ThreadState :=
  modifyTcb s pid fun t => { t with prev := prevPid }

def tcbSetNext (s : ThreadState) (pid nextPid : Nat) : ThreadState :=
  modifyTcb s pid fun t => { t with next := nextPid }

def tcbSetChan (s : ThreadState) (pid : Nat) (chan : Word) : ThreadState :=
  modifyTcb s pid fun t => { t with channel := chan }

def modifySigstate (s : ThreadState) (pid : Nat) (f : SigState → SigState) : ThreadState :=
  modifyTcb s pid fun t => { t with sigstate := f t.sigstate }

def tcbIsSleeping (s : ThreadState) (pid : Nat) : Bool := tcbGetState s pid = .sleep

/-! ## Signal accessors -/

/-- The action of a signal, `none` for the null pointer of a number out of range. -/
def tcbGetSigaction (s : ThreadState) (pid : Nat) (signum : Int) : Option Sigaction :=
  if signum < 0 ∨ signum ≥ nsig then none
  else some ((tcbGetSigstate s pid).sigactions signum.toNat)

def tcbSetSigaction (s : ThreadState) (pid : Nat) (signum : Int) (act : Sigaction) : ThreadState :=
  if signum ≥ 0 ∧ signum < nsig then
    modifySigstate s pid fun g =>
      { g with sigactions := update g.sigactions signum.toNat act }
  else s

def tcbGetPendingSignals (s : ThreadState) (pid : Nat) : Word :=
  (tcbGetSigstate s pid).pendingSignals

def tcbSetPendingSignals (s : ThreadState) (pid : Nat) (signals : Word) : ThreadState :=
  modifySigstate s pid fun g => { g with pendingSignals := signals }

def tcbAddPendingSignal (s : ThreadState) (pid : Nat) (signum : Int) : ThreadState :=
  if signum ≥ 0 ∧ signum < nsig then
    modifySigstate s pid fun g =>
      { g with pendingSignals := g.pendingSignals ||| (1#32 <<< signum.toNat) }
  else s

def tcbClearPendingSignal (s : ThreadState) (pid : Nat) (signum : Int) : ThreadState :=
  if signum ≥ 0 ∧ signum < nsig then
    modifySigstate s pid fun g =>
      { g with pendingSignals := g.pendingSignals &&& ~~~(1#32 <<< signum.toNat) }
  else s

def tcbSetSignalContext (s : ThreadState) (pid : Nat) (savedEspAddr savedEipAddr : Word) :
    ThreadState :=
  modifySigstate s pid fun g =>
    { g with savedEspAddr := savedEspAddr, savedEipAddr := savedEipAddr, inSignalHandler := 1 }

def tcbGetSignalContext (s : ThreadState) (pid : Nat) : Word × Word :=
  ((tcbGetSigstate s pid).savedEspAddr, (tcbGetSigstate s pid).savedEipAddr)

def tcbClearSignalContext (s : ThreadState) (pid : Nat) : ThreadState :=
  modifySigstate s pid fun g =>
    { g with savedEspAddr := 0, savedEipAddr := 0, inSignalHandler := 0 }

def tcbInSignalHandler (s : ThreadState) (pid : Nat) : Word :=
  (tcbGetSigstate s pid).inSignalHandler

/-! ## Queue heads and the current thread -/

def getPcpuIdx (s : ThreadState) : Nat := s.pcpuIdx

def tqueueGetHead (s : ThreadState) (chid : Nat) : Nat := (s.tqueuePool (getPcpuIdx s) chid).head
def tqueueGetTail (s : ThreadState) (chid : Nat) : Nat := (s.tqueuePool (getPcpuIdx s) chid).tail

def modifyTqueue (s : ThreadState) (chid : Nat) (f : TQueue → TQueue) : ThreadState :=
  let row := s.tqueuePool (getPcpuIdx s)
  { s with
    tqueuePool := update s.tqueuePool (getPcpuIdx s) (update row chid (f (row chid))) }

def tqueueSetHead (s : ThreadState) (chid head : Nat) : ThreadState :=
  modifyTqueue s chid fun q => { q with head := head }

def tqueueSetTail (s : ThreadState) (chid tail : Nat) : ThreadState :=
  modifyTqueue s chid fun q => { q with tail := tail }

def getCurid (s : ThreadState) : Nat := s.curid (getPcpuIdx s)

def setCurid (s : ThreadState) (curid : Nat) : ThreadState :=
  { s with curid := update s.curid (getPcpuIdx s) curid }

/-! ## What the getters see -/

section Getters

variable (s : ThreadState) (pid chid v q : Nat) (st : TState) (w : Word)
variable (f : SigState → SigState)

theorem tcbPool_modifyTcb (g : TCB → TCB) :
    (modifyTcb s pid g).tcbPool q = if q = pid then g (s.tcbPool q) else s.tcbPool q := by
  by_cases h : q = pid
  · subst h
    simp [modifyTcb]
  · simp [modifyTcb, h]

theorem field_modifyTcb {α : Type} (field : TCB → α) {g : TCB → TCB} (keep : ∀ t, field (g t) = field t) :
    field ((modifyTcb s pid g).tcbPool q) = field (s.tcbPool q) := by
  rw [tcbPool_modifyTcb]
  split
  · exact keep _
  · rfl

theorem field_modifyTcb_set {α : Type} (field : TCB → α) {g : TCB → TCB} {value : α}
    (write : field (g (s.tcbPool pid)) = value) :
    field ((modifyTcb s pid g).tcbPool q) = if q = pid then value else field (s.tcbPool q) := by
  rw [tcbPool_modifyTcb]
  split
  · rename_i h
    rw [h, write]
  · rfl

@[simp] theorem head_setPrev : tqueueGetHead (tcbSetPrev s pid v) chid = tqueueGetHead s chid := rfl

@[simp] theorem tail_setPrev : tqueueGetTail (tcbSetPrev s pid v) chid = tqueueGetTail s chid := rfl

@[simp] theorem curid_setPrev : getCurid (tcbSetPrev s pid v) = getCurid s := rfl

@[simp] theorem head_setNext : tqueueGetHead (tcbSetNext s pid v) chid = tqueueGetHead s chid := rfl

@[simp] theorem tail_setNext : tqueueGetTail (tcbSetNext s pid v) chid = tqueueGetTail s chid := rfl

@[simp] theorem curid_setNext : getCurid (tcbSetNext s pid v) = getCurid s := rfl

@[simp] theorem curid_modifySigstate : getCurid (modifySigstate s pid f) = getCurid s := rfl

@[simp] theorem state_setHead : tcbGetState (tqueueSetHead s chid v) q = tcbGetState s q := rfl

@[simp] theorem prev_setHead : tcbGetPrev (tqueueSetHead s chid v) q = tcbGetPrev s q := rfl

@[simp] theorem next_setHead : tcbGetNext (tqueueSetHead s chid v) q = tcbGetNext s q := rfl

@[simp] theorem chan_setHead : tcbGetChan (tqueueSetHead s chid v) q = tcbGetChan s q := rfl

@[simp] theorem sig_setHead : tcbGetSigstate (tqueueSetHead s chid v) q = tcbGetSigstate s q := rfl

@[simp] theorem state_setTail : tcbGetState (tqueueSetTail s chid v) q = tcbGetState s q := rfl

@[simp] theorem prev_setTail : tcbGetPrev (tqueueSetTail s chid v) q = tcbGetPrev s q := rfl

@[simp] theorem next_setTail : tcbGetNext (tqueueSetTail s chid v) q = tcbGetNext s q := rfl

@[simp] theorem chan_setTail : tcbGetChan (tqueueSetTail s chid v) q = tcbGetChan s q := rfl

@[simp] theorem sig_setTail : tcbGetSigstate (tqueueSetTail s chid v) q = tcbGetSigstate s q := rfl

@[simp] theorem curid_setHead : getCurid (tqueueSetHead s chid v) = getCurid s := rfl

@[simp] theorem curid_setTail : getCurid (tqueueSetTail s chid v) = getCurid s := rfl

@[simp] theorem state_setState : tcbGetState (tcbSetState s pid st) q = if q = pid then st else tcbGetState s q :=
  field_modifyTcb_set s pid q TCB.state rfl

@[simp] theorem prev_setPrev : tcbGetPrev (tcbSetPrev s pid v) q = if q = pid then v else tcbGetPrev s q :=
  field_modifyTcb_set s pid q TCB.prev rfl

@[simp] theorem next_setNext : tcbGetNext (tcbSetNext s pid v) q = if q = pid then v else tcbGetNext s q :=
  field_modifyTcb_set s pid q TCB.next rfl

@[simp] theorem chan_setChan : tcbGetChan (tcbSetChan s pid w) q = if q = pid then w else tcbGetChan s q :=
  field_modifyTcb_set s pid q TCB.channel rfl

@[simp] theorem sig_modifySigstate : tcbGetSigstate (modifySigstate s pid f) q =
      if q = pid then f (tcbGetSigstate s pid) else tcbGetSigstate s q :=
  field_modifyTcb_set s pid q TCB.sigstate rfl

@[simp] theorem state_setPrev : tcbGetState (tcbSetPrev s pid v) q = tcbGetState s q :=
  field_modifyTcb s pid q TCB.state fun _ => rfl

@[simp] theorem state_setNext : tcbGetState (tcbSetNext s pid v) q = tcbGetState s q :=
  field_modifyTcb s pid q TCB.state fun _ => rfl

@[simp] theorem state_setChan : tcbGetState (tcbSetChan s pid w) q = tcbGetState s q :=
  field_modifyTcb s pid q TCB.state fun _ => rfl

@[simp] theorem state_modifySigstate : tcbGetState (modifySigstate s pid f) q = tcbGetState s q :=
  field_modifyTcb s pid q TCB.state fun _ => rfl

@[simp] theorem prev_setState : tcbGetPrev (tcbSetState s pid st) q = tcbGetPrev s q :=
  field_modifyTcb s pid q TCB.prev fun _ => rfl

@[simp] theorem prev_setNext : tcbGetPrev (tcbSetNext s pid v) q = tcbGetPrev s q :=
  field_modifyTcb s pid q TCB.prev fun _ => rfl

@[simp] theorem prev_setChan : tcbGetPrev (tcbSetChan s pid w) q = tcbGetPrev s q :=
  field_modifyTcb s pid q TCB.prev fun _ => rfl

@[simp] theorem prev_modifySigstate : tcbGetPrev (modifySigstate s pid f) q = tcbGetPrev s q :=
  field_modifyTcb s pid q TCB.prev fun _ => rfl

@[simp] theorem next_setState : tcbGetNext (tcbSetState s pid st) q = tcbGetNext s q :=
  field_modifyTcb s pid q TCB.next fun _ => rfl

@[simp] theorem next_setPrev : tcbGetNext (tcbSetPrev s pid v) q = tcbGetNext s q :=
  field_modifyTcb s pid q TCB.next fun _ => rfl

@[simp] theorem next_setChan : tcbGetNext (tcbSetChan s pid w) q = tcbGetNext s q :=
  field_modifyTcb s pid q TCB.next fun _ => rfl

@[simp] theorem next_modifySigstate : tcbGetNext (modifySigstate s pid f) q = tcbGetNext s q :=
  field_modifyTcb s pid q TCB.next fun _ => rfl

@[simp] theorem chan_setState : tcbGetChan (tcbSetState s pid st) q = tcbGetChan s q :=
  field_modifyTcb s pid q TCB.channel fun _ => rfl

@[simp] theorem chan_setPrev : tcbGetChan (tcbSetPrev s pid v) q = tcbGetChan s q :=
  field_modifyTcb s pid q TCB.channel fun _ => rfl

@[simp] theorem chan_setNext : tcbGetChan (tcbSetNext s pid v) q = tcbGetChan s q :=
  field_modifyTcb s pid q TCB.channel fun _ => rfl

@[simp] theorem chan_modifySigstate : tcbGetChan (modifySigstate s pid f) q = tcbGetChan s q :=
  field_modifyTcb s pid q TCB.channel fun _ => rfl

@[simp] theorem sig_setState : tcbGetSigstate (tcbSetState s pid st) q = tcbGetSigstate s q :=
  field_modifyTcb s pid q TCB.sigstate fun _ => rfl

@[simp] theorem sig_setPrev : tcbGetSigstate (tcbSetPrev s pid v) q = tcbGetSigstate s q :=
  field_modifyTcb s pid q TCB.sigstate fun _ => rfl

@[simp] theorem sig_setNext : tcbGetSigstate (tcbSetNext s pid v) q = tcbGetSigstate s q :=
  field_modifyTcb s pid q TCB.sigstate fun _ => rfl

@[simp] theorem sig_setChan : tcbGetSigstate (tcbSetChan s pid w) q = tcbGetSigstate s q :=
  field_modifyTcb s pid q TCB.sigstate fun _ => rfl

@[simp] theorem curid_setState : getCurid (tcbSetState s pid st) = getCurid s := rfl

@[simp] theorem curid_setChan : getCurid (tcbSetChan s pid w) = getCurid s := rfl

@[simp] theorem state_setCurid : tcbGetState (setCurid s v) q = tcbGetState s q := rfl

@[simp] theorem chan_setCurid : tcbGetChan (setCurid s v) q = tcbGetChan s q := rfl

@[simp] theorem sig_setCurid : tcbGetSigstate (setCurid s v) q = tcbGetSigstate s q := rfl

@[simp] theorem curid_setCurid : getCurid (setCurid s v) = v := by
  simp [getCurid, setCurid, getPcpuIdx]

@[simp] theorem head_setHead :
    tqueueGetHead (tqueueSetHead s chid v) q = if q = chid then v else tqueueGetHead s q := by
  by_cases h : q = chid
  · subst h
    simp [tqueueGetHead, tqueueSetHead, modifyTqueue, getPcpuIdx]
  · simp [tqueueGetHead, tqueueSetHead, modifyTqueue, getPcpuIdx, h]

@[simp] theorem head_setTail : tqueueGetHead (tqueueSetTail s chid v) q = tqueueGetHead s q := by
  by_cases h : q = chid
  · subst h
    simp [tqueueGetHead, tqueueSetTail, modifyTqueue, getPcpuIdx]
  · simp [tqueueGetHead, tqueueSetTail, modifyTqueue, getPcpuIdx, h]

@[simp] theorem tail_setTail :
    tqueueGetTail (tqueueSetTail s chid v) q = if q = chid then v else tqueueGetTail s q := by
  by_cases h : q = chid
  · subst h
    simp [tqueueGetTail, tqueueSetTail, modifyTqueue, getPcpuIdx]
  · simp [tqueueGetTail, tqueueSetTail, modifyTqueue, getPcpuIdx, h]

@[simp] theorem tail_setHead : tqueueGetTail (tqueueSetHead s chid v) q = tqueueGetTail s q := by
  by_cases h : q = chid
  · subst h
    simp [tqueueGetTail, tqueueSetHead, modifyTqueue, getPcpuIdx]
  · simp [tqueueGetTail, tqueueSetHead, modifyTqueue, getPcpuIdx, h]

end Getters

end Certikos
