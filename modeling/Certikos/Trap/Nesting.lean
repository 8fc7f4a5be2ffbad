import Certikos.Trap.Sigreturn

/-!
# Handlers inside handlers

The deliveries and the returns of a process match like brackets as long as a handler is not interrupted by another
one.
-/

namespace Certikos
open Lib Function

/-! ## Brackets -/

structure Saved where
  esp : Word
  eip : Word
  deriving DecidableEq

structure Tracked where
  kernel : KState
  active : Nat → List Saved

def brackets (t : Tracked) : Event → Nat → List Saved
  | .trapReturn _ tf =>
    let pid := getCurid t.kernel.thread
    if Delivers t.kernel then update t.active pid (⟨tf.esp, tf.eip⟩ :: t.active pid) else t.active
  | .sigreturn _ _ =>
    let pid := getCurid t.kernel.thread
    update t.active pid (t.active pid).tail
  | _ => t.active

def trackedStep (images : Nat → Word) (t : Tracked) (e : Event) : Except (Halt KState) Tracked :=
  (step images t.kernel e).map fun k => ⟨k, brackets t e⟩

def Event.Returns (t : Tracked) : Event → Prop
  | .sigreturn _ _ =>
    ∃ saved rest, t.active (getCurid t.kernel.thread) = saved :: rest ∧
      FrameIntact t.kernel.vm (getCurid t.kernel.thread) saved.esp saved.eip
  | _ => True

def Event.Flat (t : Tracked) : Event → Prop
  | .trapReturn _ _ =>
    Delivers t.kernel → tcbInSignalHandler t.kernel.thread (getCurid t.kernel.thread) = 0#32
  | _ => True

def Unwinds (t : Tracked) : Prop :=
  ∀ (buf : LocalBuf) (tf : TrapFrame) (saved : Saved) (rest : List Saved),
    t.active (getCurid t.kernel.thread) = saved :: rest →
    FrameIntact t.kernel.vm (getCurid t.kernel.thread) saved.esp saved.eip →
    (sysSigreturn buf t.kernel tf).2.regs.eax = ErrorNr.succ.code ∧
      (sysSigreturn buf t.kernel tf).2.esp = saved.esp ∧ (sysSigreturn buf t.kernel tf).2.eip = saved.eip

inductive OneFrame : SignalContext → List Saved → Prop
  | none (espAddr eipAddr : Word) : OneFrame ⟨espAddr, eipAddr, 0#32⟩ []
  | one (saved : Saved) : OneFrame ⟨saved.esp - 8#32, saved.esp - 4#32, 1#32⟩ [saved]

def Nested (t : Tracked) : Prop := ∀ p, OneFrame (signalContext t.kernel.thread p) (t.active p)

theorem Nested.opened {t : Tracked} (h : Nested t) {saved : Saved} {rest : List Saved} {pid : Nat}
    (opened : t.active pid = saved :: rest) :
    rest = [] ∧ tcbGetSignalContext t.kernel.thread pid = (saved.esp - 8#32, saved.esp - 4#32) := by
  have frame := h pid
  rw [opened] at frame
  cases found : signalContext t.kernel.thread pid with
  | mk espAddr eipAddr flag =>
    rw [found] at frame
    cases frame
    exact ⟨rfl, congrArg (fun c : SignalContext => (c.savedEspAddr, c.savedEipAddr)) found⟩

theorem Nested.unwinds {t : Tracked} (h : Nested t) : Unwinds t := by
  intro buf tf saved rest opened intact
  obtain ⟨vm, returned⟩ := sysSigreturn_intact buf tf (h.opened opened).2 intact
  rw [returned]
  exact ⟨rfl, rfl, rfl⟩

section Tracked

variable {images : Nat → Word} {t t' : Tracked}

theorem trackedStep_ok {e : Event} (next : trackedStep images t e = .ok t') :
    step images t.kernel e = .ok t'.kernel ∧ t'.active = brackets t e := by
  unfold trackedStep at next
  cases done : step images t.kernel e with
  | error halt =>
    rw [done] at next
    contradiction
  | ok k =>
    rw [done] at next
    cases next
    exact ⟨rfl, rfl⟩

theorem Nested.other (h : Nested t) {e : Event} (next : trackedStep images t e = .ok t')
    (notReturn : ∀ buf tf, e ≠ .sigreturn buf tf) (notTrap : ∀ buf tf, e ≠ .trapReturn buf tf) : Nested t' := by
  obtain ⟨done, active⟩ := trackedStep_ok next
  have same : brackets t e = t.active := by
    cases e with
    | sigreturn buf tf => exact absurd rfl (notReturn buf tf)
    | trapReturn buf tf => exact absurd rfl (notTrap buf tf)
    | _ => rfl
  intro p
  rw [active, same, step_context done notReturn notTrap]
  exact h p

theorem Nested.sigreturn (h : Nested t) {buf : LocalBuf} {tf : TrapFrame}
    (returns : (Event.sigreturn buf tf).Returns t)
    (next : trackedStep images t (.sigreturn buf tf) = .ok t') : Nested t' := by
  obtain ⟨done, active⟩ := trackedStep_ok next
  obtain ⟨saved, rest, opened, intact⟩ := returns
  obtain ⟨rfl, context⟩ := h.opened opened
  obtain ⟨vm, returned⟩ := sysSigreturn_intact buf tf context intact
  have kernel : (sysSigreturn buf t.kernel tf).1 = t'.kernel := Except.ok.inj done
  rw [returned] at kernel
  intro p
  rw [← kernel, active, brackets]
  rw [signalContext_clearContext]
  by_cases here : p = getCurid t.kernel.thread
  · rw [if_pos here, here, update_self, opened]
    exact .none ..
  · rw [if_neg here, update_of_ne here]
    exact h p

theorem Nested.trapReturn (h : Nested t) {buf : LocalBuf} {tf : TrapFrame} (flat : (Event.trapReturn buf tf).Flat t)
    (next : trackedStep images t (.trapReturn buf tf) = .ok t') : Nested t' := by
  obtain ⟨done, active⟩ := trackedStep_ok next
  intro p
  obtain ⟨tf', handled⟩ := map_fst_ok done
  rw [handlePendingSignals_context handled, active, brackets]
  by_cases delivers : Delivers t.kernel
  · rw [if_pos delivers]
    by_cases here : p = getCurid t.kernel.thread
    · have frame := h (getCurid t.kernel.thread)
      have free : (signalContext t.kernel.thread (getCurid t.kernel.thread)).inSignalHandler = 0#32 := flat delivers
      rw [if_pos ⟨delivers, here⟩, here, update_self]
      cases found : signalContext t.kernel.thread (getCurid t.kernel.thread) with
      | mk espAddr eipAddr flag =>
        rw [found] at frame free
        cases opened : t.active (getCurid t.kernel.thread) with
        | nil => exact .one ⟨tf.esp, tf.eip⟩
        | cons saved rest =>
          rw [opened] at frame
          cases frame
          exact absurd free (show 1#32 ≠ 0#32 by decide)
    · rw [if_neg fun both => here both.2, update_of_ne here]
      exact h p
  · rw [if_neg delivers, if_neg fun both => delivers both.1]
    exact h p

theorem Nested.step (h : Nested t) {e : Event} (returns : e.Returns t) (flat : e.Flat t)
    (next : trackedStep images t e = .ok t') : Nested t' := by
  cases e with
  | sigreturn buf tf => exact h.sigreturn returns next
  | trapReturn buf tf => exact h.trapReturn flat next
  | _ => exact h.other next (fun _ _ => by simp) fun _ _ => by simp

end Tracked

theorem interrupted_idle (p : Nat) : tcbInSignalHandler interrupted.thread p = 0#32 := by
  have context : signalContext interrupted.thread p = signalContext idleThreads p := by
    unfold interrupted signalled
    rw [signalContext_add, (sameSignals_setSigaction ..).context]
    rfl
  exact congrArg SignalContext.inSignalHandler context

theorem timerFrame_flat : Along (trackedStep fun _ => 0) (fun t e => e.Returns t ∧ e.Flat t)
    ⟨interrupted, fun _ => []⟩ [.trapReturn stackBuf (timerFrame 7)] :=
  ⟨⟨trivial, fun _ => interrupted_idle 1⟩, fun _ _ => trivial⟩

theorem timerFrame_opens : Reaches
    (run (trackedStep fun _ => 0) ⟨interrupted, fun _ => []⟩ [.trapReturn stackBuf (timerFrame 7)])
    fun t => t.active 1 = [⟨(timerFrame 7).esp, (timerFrame 7).eip⟩] := by
  decide +kernel

def twiceSignalled : KState :=
  let act : Sigaction := ⟨0x40002000, 0, 0, 0, 0⟩
  { interrupted with thread := tcbAddPendingSignal (tcbSetSigaction interrupted.thread 1 12 act) 1 12 }

def handlerFrame : TrapFrame := { timerFrame 0 with trapno := 48, eip := 0x40001010, esp := 0xeffffe80 }

def nestedRun : List Event := [.trapReturn stackBuf (timerFrame 7), .trapReturn stackBuf handlerFrame]

end Certikos
