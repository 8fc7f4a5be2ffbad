import Certikos.Lib.Bytes

/-!
# Constants of the kernel and the trap frame

The constants of `kern/lib/x86.h`, `kern/lib/signal.h`, `kern/lib/syscall.h`, `kern/lib/trap.h` and
`kern/dev/intr.h`, and the frame that `_alltraps` builds on the kernel stack.
-/

namespace Certikos
open Lib

abbrev numIds : Nat := 64
abbrev maxChildren : Nat := 3
abbrev magicNumber : Nat := 1048577
abbrev pageSize : Nat := 4096

abbrev vmUserlo : Nat := 0x40000000
abbrev vmUserhi : Nat := 0xf0000000

abbrev UserPid (pid : Nat) : Prop := 1 ≤ pid ∧ pid < numIds

abbrev pteP : Nat := 0x001
abbrev pteW : Nat := 0x002
abbrev pteU : Nat := 0x004
abbrev pteG : Nat := 0x100

abbrev nsig : Nat := 32
abbrev sigint : Nat := 2
abbrev sigkill : Nat := 9
abbrev sigsegv : Nat := 11

inductive ErrorNr
  | succ | mem | ipc | invalCallnr | invalAddr | invalPid | invalReg | invalSeg | invalEvent
  | invalPort | invalHvm | invalChid | invalId | diskOp | hvmVmrun | hvmMmap | hvmReg | hvmSeg
  | hvmNeip | hvmInject | hvmIoport | hvmMsr | hvmIntrwin | exceedsQuota | maxNumChildenReached
  | invalChildId | nexist | create | fnf | badf | invalSignum | invalHandler
  deriving DecidableEq, Repr

def ErrorNr.code (e : ErrorNr) : Word := BitVec.ofNat 32 e.ctorIdx

inductive SyscallNr
  | puts | spawn | yield | produce | consume | open | close | read | write | mkdir | chdir | link
  | unlink | stat | syncSend | syncRecv | isDir | ls | mv | rm | pwd | cp | cat | touch | readline
  | sigaction | kill | pause | sigreturn
  deriving DecidableEq, Repr

def SyscallNr.code (n : SyscallNr) : Word := BitVec.ofNat 32 n.ctorIdx

structure PushRegs where
  edi : Word
  esi : Word
  ebp : Word
  oesp : Word
  ebx : Word
  edx : Word
  ecx : Word
  eax : Word
  deriving DecidableEq, Repr

/-- `tf_t`. The CPU pushes `esp` and `ss` only when the trap crosses rings; in the frame of a trap
taken in kernel mode the two fields are whatever the interrupted kernel code had on its stack. -/
structure TrapFrame where
  regs : PushRegs
  es : BitVec 16
  ds : BitVec 16
  trapno : Word
  err : Word
  eip : Word
  cs : BitVec 16
  eflags : Word
  esp : Word
  ss : BitVec 16
  deriving DecidableEq, Repr

def TrapFrame.rpl (tf : TrapFrame) : Nat := (tf.cs &&& 3).toNat

def TrapFrame.KernelMode (tf : TrapFrame) : Prop := tf.rpl = 0
deriving Decidable

def syscallFrame (nr : SyscallNr) (arg2 arg3 arg4 : Word) : TrapFrame where
  regs := { edi := 0, esi := 0, ebp := 0, oesp := 0, ebx := arg2, edx := arg4, ecx := arg3, eax := nr.code }
  es := 0x23
  ds := 0x23
  trapno := 48
  err := 0
  eip := BitVec.ofNat 32 vmUserlo
  cs := 0x1b
  eflags := 0x200
  esp := BitVec.ofNat 32 vmUserhi
  ss := 0x23

/-! ## Arguments and results of system calls (`TSyscallArg.c`) -/

def syscallGetArg1 (tf : TrapFrame) : Word := tf.regs.eax
def syscallGetArg2 (tf : TrapFrame) : Word := tf.regs.ebx
def syscallGetArg3 (tf : TrapFrame) : Word := tf.regs.ecx
def syscallGetArg4 (tf : TrapFrame) : Word := tf.regs.edx
def syscallGetArg5 (tf : TrapFrame) : Word := tf.regs.esi

def syscallSetErrno (tf : TrapFrame) (errno : ErrorNr) : TrapFrame :=
  { tf with regs.eax := errno.code }

def syscallSetRetval1 (tf : TrapFrame) (retval : Word) : TrapFrame :=
  { tf with regs.ebx := retval }

end Certikos
