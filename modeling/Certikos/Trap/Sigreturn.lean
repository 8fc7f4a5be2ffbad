import Certikos.Memory.UserView
import Certikos.Trap.Context

/-!
# Returning from a handler

`deliver_signal` leaves the interrupted `eip` and `esp` in two words below the interrupted stack pointer and their
addresses in the thread control block.
-/

namespace Certikos
open Lib

structure FrameIntact (vm : VmState) (pid : Nat) (esp eip : Word) : Prop where
  savedEip : UserWord vm pid (esp - 4#32) eip
  savedEsp : UserWord vm pid (esp - 8#32) esp

instance (vm : VmState) (pid : Nat) (esp eip : Word) : Decidable (FrameIntact vm pid esp eip) :=
  decidable_of_iff (UserWord vm pid (esp - 4#32) eip ∧ UserWord vm pid (esp - 8#32) esp)
    ⟨fun h => ⟨h.1, h.2⟩, fun h => ⟨h.savedEip, h.savedEsp⟩⟩

section Sigreturn

variable {k : KState} {esp eip : Word}

theorem UserWord.ne_zero {vm : VmState} {pid : Nat} {va w : Word} (h : UserWord vm pid va w) : va ≠ 0#32 := by
  rintro rfl
  have low := h.range.1
  exact absurd low (by decide)

theorem readWord_pair (m : Mem) (a v w : Word) : readWord (writeWord (writeWord m a v) (a + 4#32) w) a = v := by
  rw [← readWord_writeWord m a v]
  apply readWord_congr
  intro i lt
  rw [readWord_writeWord]
  refine if_neg ?_
  bv_omega

theorem sysSigreturn_intact (buf : LocalBuf) (tf : TrapFrame)
    (context : tcbGetSignalContext k.thread (getCurid k.thread) = (esp - 8#32, esp - 4#32))
    (intact : FrameIntact k.vm (getCurid k.thread) esp eip) :
    ∃ vm, sysSigreturn buf k tf =
      (⟨tcbClearSignalContext k.thread (getCurid k.thread), vm⟩,
        syscallSetErrno { tf with esp := esp, eip := eip } .succ) := by
  have low := buf.low
  have first : buf.addr.toNat + 4 ≤ vmUserlo := by omega
  have second : (buf.addr + 4#32).toNat + 4 ≤ vmUserlo := by
    simp only [vmUserlo] at *
    bv_omega
  obtain ⟨copied₁, vm₁⟩ := ptCopyin_word intact.savedEsp first
  have kept := intact.savedEip.congr (m := writeWord k.vm.mem buf.addr esp) fun x high => writeWord_high first high
  obtain ⟨copied₂, vm₂⟩ := ptCopyin_word kept second
  unfold sysSigreturn
  dsimp only
  rw [context]
  rw [if_neg (not_or.2 ⟨intact.savedEsp.ne_zero, intact.savedEip.ne_zero⟩), if_neg (not_not.2 copied₁), vm₁,
    if_neg (not_not.2 copied₂), vm₂]
  rw [readWord_pair, readWord_writeWord]
  exact ⟨_, rfl⟩

end Sigreturn

/-! ## What the interrupted code can see -/

def userRegisters (tf : TrapFrame) : List Word :=
  [tf.regs.eax, tf.regs.ebx, tf.regs.ecx, tf.regs.edx, tf.regs.esi, tf.regs.edi, tf.regs.ebp, tf.eflags, tf.esp, tf.eip]

def Unnoticed (tf tf₂ : TrapFrame) : Prop :=
  tf.regs.eax = ErrorNr.succ.code ∧ tf₂.regs.ebx = tf.regs.ebx ∧ tf₂.regs.ecx = tf.regs.ecx ∧
    tf₂.regs.edx = tf.regs.edx ∧ tf₂.regs.esi = tf.regs.esi ∧ tf₂.regs.edi = tf.regs.edi ∧
    tf₂.regs.ebp = tf.regs.ebp ∧ tf₂.eflags = tf.eflags

def stackVm : VmState :=
  { modifyPdir blankVm 1 959 0x40000007 with mem := writeWord (fun _ => 0) 0x40000ffc 0x40001007 }

def timerFrame (eax : Word) : TrapFrame :=
  { syscallFrame .yield 1 2 3 with
    regs := { edi := 4, esi := 5, ebp := 0xefffff80, oesp := 0, ebx := 1, edx := 3, ecx := 2, eax := eax }
    trapno := 32
    eip := 0x40000100
    esp := 0xefffff00 }

def trampolineFrame (tf : TrapFrame) : TrapFrame := { tf with regs.eax := SyscallNr.sigreturn.code }

def interrupted : KState := ⟨signalled.thread, stackVm⟩

theorem interrupted_delivers : Delivers interrupted := ⟨10, by decide +kernel, by decide, by decide +kernel⟩

theorem timerFrame_delivered : Reaches (handlePendingSignals stackBuf interrupted (timerFrame 0)) fun r =>
    getCurid r.1.thread = 1 ∧ FrameIntact r.1.vm 1 (timerFrame 0).esp (timerFrame 0).eip := by
  decide +kernel

end Certikos
