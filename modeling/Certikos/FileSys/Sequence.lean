import Certikos.FileSys.Calls
import Certikos.FileSys.Frames

/-!
# Calls one after the other

The kernel with one call in it at a time: whenever the process waits, the drive completes its command. A call that stops
the machine, or waits for what nobody will bring, is not completed.
-/

namespace Certikos.FileSys
open Lib
open Fs (nbuf Block Buf Disk)

def drive (s : State) : State :=
  match ideIntr false 0 s with
  | .done _ t => t
  | _ => s

def watched (watch : Note → Bool) : World Nat State Note where
  runs p s := s.thread p = .running
  meanwhile := drive
  watch := watch

abbrev world : World Nat State Note := watched fun _ => false

abbrev KernM.Acts {α : Type} (x : KernM α) (watch : Note → Bool) (E : Cut Stop Note → Prop) (p : Nat)
    (P : State → Prop) (Q : α → State → Prop) : Prop := x.Does (watched watch) E p P Q

def call (s : State) (c : Nat × Trap) : Except (Cut Stop Note) State :=
  if s.thread c.1 = .running then ((trap c.2).alone world c.1 s).map Prod.snd else .ok s

variable {s : State}

theorem drive_eq (ide : s.locks .ide = false) (sched : s.locks .sched = false) : drive s = s.ideDone false := by
  rw [drive, ideIntr_eq ide sched]

theorem drive_within {G : State → State → Prop} [IsPreorder State G] (within : (ideIntr false).Within G) (s : State) :
    G s (drive s) := by
  have bound := within 0 s
  unfold drive
  cases result : ideIntr false 0 s with
  | done a t =>
    rw [result] at bound
    exact bound
  | _ => exact refl_of G s

theorem call_cases {s t : State} {c : Nat × Trap} (done : call s c = .ok t) :
    t = s ∨ s.thread c.1 = .running ∧ ∃ reply, (trap c.2).alone world c.1 s = .ok (reply, t) := by
  unfold call at done
  split at done
  · next runs =>
      cases result : (trap c.2).alone world c.1 s with
      | ok r =>
        rw [result] at done
        exact .inr ⟨runs, r.1, by rw [← Except.ok.inj done]⟩
      | error e =>
        rw [result] at done
        cases done
  · exact .inl (Except.ok.inj done).symm

/-! ## Nothing is left held -/

theorem ideDone_rest (error : Bool) :
    (s.ideDone error).locks = s.locks ∧ (s.ideDone error).log = s.log ∧ (s.ideDone error).first = s.first ∧
      (s.ideDone error).openfiles = s.openfiles ∧ (s.ideDone error).inode = s.inode := by
  unfold State.ideDone
  cases s.idequeue with
  | nil => exact ⟨rfl, rfl, rfl, rfl, rfl⟩
  | cons b rest => cases rest <;> exact ⟨rfl, rfl, rfl, rfl, rfl⟩

theorem ideDone_busy {error : Bool} (b : Fin nbuf) : ((s.ideDone error).buf b).busy = (s.buf b).busy := by
  have fetched : ∀ (c : Fin nbuf) (rest : List (Fin nbuf)) (d : Block),
      ((State.setBuf { s with idequeue := rest } c { s.buf c with data := d, valid := true, dirty := false }).buf b).busy
        = (s.buf b).busy := by
    intro c rest d
    by_cases same : b = c
    · rw [same, buf_setBuf_self]
    · rw [buf_setBuf_of_ne same]
  unfold State.ideDone
  cases s.idequeue with
  | nil => rfl
  | cons c rest => cases rest <;> exact fetched c _ _

theorem ideDone_alive {error : Bool} {q : Nat} (alive : s.thread q ≠ .dead) : (s.ideDone error).thread q ≠ .dead := by
  have woken : ∀ (u : State) (chan : Chan), u.thread = s.thread → (u.wake chan).thread q ≠ .dead := by
    intro u chan same
    show (if _ then _ else _) ≠ _
    rw [same]
    split
    · simp
    · exact alive
  unfold State.ideDone
  cases s.idequeue with
  | nil => exact alive
  | cons c rest => cases rest <;> exact woken _ _ rfl

theorem rules_inv_drive {h : Notes} (inv : rules.inv h s) : rules.inv h (drive s) := by
  obtain ⟨base, gate⟩ := inv
  have free : ∀ l, l ≠ .buf → s.locks l = false := by
    intro l ne
    cases taken : s.locks l with
    | false => rfl
    | true => exact absurd ((base.locks l taken).resolve_left (List.not_mem_nil)) ne
  rw [drive_eq (free .ide (by simp)) (free .sched (by simp))]
  obtain ⟨locks, log, first, openfiles, inode⟩ := ideDone_rest (s := s) false
  refine ⟨⟨?_, ?_, ?_, base.oneTrans, ?_, ?_, ?_, base.logged, base.recovery⟩, ⟨?_, gate.one⟩⟩
  · rw [locks]
    exact base.locks
  · intro r set
    refine base.busy r ?_
    cases r with
    | inode ip =>
      cases ip with
      | none => cases set
      | some i =>
        rw [State.busy, inode] at set
        exact set
    | buf b =>
      rw [State.busy, ideDone_busy] at set
      exact set
  · rw [log]
    exact base.transBusy
  · intro always q holding
    exact ideDone_alive (base.alive always q holding)
  · rw [first]
    exact base.first
  · rw [openfiles]
    exact base.files
  · rw [locks]
    exact gate.lock

def Between (s : State) : Prop := ∃ h, rules.inv h s ∧ ∀ q, Idle q h

theorem Between.free (between : Between s) (r : Resource) : s.busy r = false := by
  obtain ⟨h, inv, idle⟩ := between
  cases set : s.busy r with
  | false => rfl
  | true =>
    obtain ⟨q, held⟩ := inv.1.busy r set
    exact absurd (holding_of_holder held) (idle q).1

theorem call_between {s t : State} {c : Nat × Trap} (between : Between s) (done : call s c = .ok t) : Between t := by
  cases call_cases done with
  | inl same => exact same ▸ between
  | inr served =>
    obtain ⟨runs, reply, result⟩ := served
    obtain ⟨h, inv, idle⟩ := between
    have keeps := kernel_sound.code c.1 c.2 h s ⟨inv, runs, idle c.1⟩
    have gives := Turn.Keeps.gives (W := world)
      (fun u goes => of_decide_eq_true (p := u.thread c.1 = .running) goes) (fun _ _ => rules_inv_drive) keeps
    have returned : (kernel.code c.2 c.1 s).alone world c.1 = .ok (⟨⟩, t) := by
      show (Turn.note _ ((trap c.2 c.1 s).bind _)).alone world c.1 = _
      rw [Turn.alone, if_neg (by simp [world, watched]), Turn.alone_bind,
        show (trap c.2 c.1 s).alone world c.1 = .ok (reply, t) from result]
      rfl
    obtain ⟨h', own, inv', idle'⟩ := gives.of_ok returned
    refine ⟨h', inv', ?_⟩
    intro q
    by_cases same : q = c.1
    · exact same ▸ idle'
    · exact idle_later (own.later same) (idle q)

end Certikos.FileSys
