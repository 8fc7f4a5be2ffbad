import Certikos.FileSys.Syscall
import Mathlib.Data.Fintype.Option

/-!
# What the notes of a run say

The ledger reads off a history who holds which inode and buffer, who is in a transaction and who in a call that takes
`buf_lock`, and how far recovery has come.
-/

namespace Certikos.FileSys
open Lib Function
open Fs (nbuf Buf)

abbrev Notes := History Nat Note

def Trap.buffered : Trap → Bool
  | .read .. | .write .. => true
  | _ => false

def Trap.opens : Trap → Bool
  | .open .. => true
  | _ => false

def Trap.pathwise : Trap → Bool
  | .link .. | .unlink .. | .open .. | .mkdir .. | .chdir .. | .ls .. | .pwd .. => true
  | _ => false

structure Ledger where
  holder : Resource → Option Nat
  inTrans : Nat → Bool
  inBuffered : Nat → Bool
  initialising : Nat → Bool
  initialised : Bool
  recovered : Bool

def Ledger.enter (l : Ledger) (p : Nat) : Note → Ledger
  | .enter t => { l with inBuffered := update l.inBuffered p t.buffered }
  | .leave _ => { l with inBuffered := update l.inBuffered p false }
  | .take r => { l with holder := update l.holder r (some p) }
  | .drop r => { l with holder := update l.holder r none }
  | .beginTrans => { l with inTrans := update l.inTrans p true }
  | .commitTrans => { l with inTrans := update l.inTrans p false }
  | .logInit => { l with initialising := update l.initialising p true, initialised := true }
  | .recovered => { l with initialising := update l.initialising p false, recovered := true }
  | _ => l

def ledger : Notes → Ledger
  | [] => ⟨fun _ => none, fun _ => false, fun _ => false, fun _ => false, false, false⟩
  | (p, w) :: h => (ledger h).enter p w

def Ledger.Holding (l : Ledger) (q : Nat) : Prop :=
  l.inTrans q = true ∨ (∃ ip, l.holder (.inode ip) = some q) ∨ ∃ b, l.holder (.buf b) = some q

instance (l : Ledger) (q : Nat) : Decidable (l.Holding q) := by
  unfold Ledger.Holding
  infer_instance

variable {r : Resource} {ip : Slot} {v : Bool} {chan : Chan}

theorem holding_of_holder {l : Ledger} {q : Nat} (held : l.holder r = some q) : l.Holding q := by
  cases r with
  | inode ip => exact .inr (.inl ⟨ip, held⟩)
  | buf b => exact .inr (.inr ⟨b, held⟩)

def KillsIdle (h : Notes) (_ : Nat) : Note → Prop
  | .killed q => ¬ (ledger h).Holding q
  | _ => True

def FreesInTrans (h : Notes) (p : Nat) : Note → Prop
  | .frees _ | .hole .. => (ledger h).inTrans p = true
  | _ => True

def LogsInTrans (h : Notes) (p : Nat) : Note → Prop
  | .logWrite _ => (ledger h).inTrans p = true
  | _ => True

/-- A call that takes a path waits for recovery, but for the first `sys_open`, which runs it. -/
def OnTime (h : Notes) (_ : Nat) : Note → Prop
  | .enter t =>
    t.pathwise = true → (ledger h).recovered = true ∨ t.opens = true ∧ (ledger h).initialised = false
  | _ => True

def RecoveryFirst (h : Notes) (p : Nat) : Note → Prop
  | .block .. => (ledger h).recovered = true ∨ (ledger h).initialising p = true
  | .inode _ | .beginTrans => (ledger h).recovered = true
  | _ => True

instance (h : Notes) (p : Nat) (w : Note) : Decidable (KillsIdle h p w) := by
  cases w <;> unfold KillsIdle <;> infer_instance

instance (h : Notes) (p : Nat) (w : Note) : Decidable (FreesInTrans h p w) := by
  cases w <;> unfold FreesInTrans <;> infer_instance

instance (h : Notes) (p : Nat) (w : Note) : Decidable (LogsInTrans h p w) := by
  cases w <;> unfold LogsInTrans <;> infer_instance

instance (h : Notes) (p : Nat) (w : Note) : Decidable (OnTime h p w) := by
  cases w <;> unfold OnTime <;> infer_instance

instance (h : Notes) (p : Nat) (w : Note) : Decidable (RecoveryFirst h p w) := by
  cases w <;> unfold RecoveryFirst <;> infer_instance

def State.busy (s : State) : Resource → Bool
  | .inode none => false
  | .inode (some i) => (s.inode (some i)).busy
  | .buf b => (s.buf b).busy

/-! ## The invariant -/

/-- The state agrees with the notes, but for `buf_lock`. The locks of `L` may be taken. -/
structure Base (L : List Lock) (h : Notes) (s : State) : Prop where
  locks : ∀ l, s.locks l = true → l ∈ L ∨ l = .buf
  busy : ∀ r, s.busy r = true → ∃ q, (ledger h).holder r = some q
  transBusy : s.log.busy = true ↔ ∃ q, (ledger h).inTrans q = true
  oneTrans : ∀ q q', (ledger h).inTrans q = true → (ledger h).inTrans q' = true → q = q'
  alive : Always KillsIdle h → ∀ q, (ledger h).Holding q → s.thread q ≠ .dead
  first : s.first = true ↔ (ledger h).initialised = false
  files : Always OnTime h → (ledger h).recovered = true ∨ ∀ q fd, s.openfiles q fd = none
  logged : Always FreesInTrans h → Always LogsInTrans h
  recovery : Always OnTime h → Always RecoveryFirst h

structure Gate (h : Notes) (s : State) : Prop where
  lock : s.locks .buf = true ↔ ∃ q, (ledger h).inBuffered q = true
  one : ∀ q q', (ledger h).inBuffered q = true → (ledger h).inBuffered q' = true → q = q'

inductive Phase
  | early | init | ready
  deriving DecidableEq

structure Mode where
  buffered : Bool
  trans : Bool
  mayLog : Bool
  phase : Phase

structure Local (p : Nat) (m : Mode) (H : List Resource) (h : Notes) : Prop where
  held : ∀ r, (ledger h).holder r = some p → r ∈ H
  buffered : (ledger h).inBuffered p = m.buffered
  trans : (ledger h).inTrans p = m.trans
  mayLog : m.mayLog = true → Always FreesInTrans h → (ledger h).inTrans p = true
  init : m.phase = .init → (ledger h).initialising p = true
  ready : m.phase = .ready → Always OnTime h → (ledger h).recovered = true

structure At (p : Nat) (m : Mode) (L : List Lock) (H : List Resource) (h : Notes) (s : State) : Prop where
  base : Base L h s
  gate : Gate h s
  own : Local p m H h
  life : s.thread p = .running

def Allowed (e : Stop) (h : Notes) : Prop :=
  (Always FreesInTrans h → Always LogsInTrans h ∧ e ≠ .panic "write outside of trans") ∧
    (Always OnTime h → Always RecoveryFirst h)

def rules : Rules Nat State Stop Note where
  inv h s := Base [] h s ∧ Gate h s
  runs p s := s.thread p = .running
  allowed e h _ := Allowed e h

abbrev Steady {α : Type} (p : Nat) (m : Mode) (L : List Lock) (H : List Resource) (x : KernM α) : Prop :=
  x.Meets rules p (At p m L H) fun _ => At p m L H

def Idle (p : Nat) (h : Notes) : Prop := ¬ (ledger h).Holding p ∧ (ledger h).inBuffered p = false

variable {p q : Nat} {m : Mode} {L : List Lock} {H H' : List Resource} {h h' : Notes} {s t : State}

/-! ## What the others do -/

section Others

variable {l : Ledger} {w : Note} (other : q ≠ p)
include other

theorem Ledger.inTrans_enter : (l.enter q w).inTrans p = l.inTrans p := by
  cases w <;> simp [Ledger.enter, update_of_ne other.symm]

theorem Ledger.inBuffered_enter : (l.enter q w).inBuffered p = l.inBuffered p := by
  cases w <;> simp [Ledger.enter, update_of_ne other.symm]

theorem Ledger.initialising_enter : (l.enter q w).initialising p = l.initialising p := by
  cases w <;> simp [Ledger.enter, update_of_ne other.symm]

theorem Ledger.holder_enter (held : (l.enter q w).holder r = some p) : l.holder r = some p := by
  cases w with
  | take r' =>
    by_cases same : r = r'
    · rw [same] at held
      simp only [Ledger.enter, update_self, Option.some.injEq] at held
      exact absurd held other
    · simpa only [Ledger.enter, update_of_ne same] using held
  | drop r' =>
    by_cases same : r = r'
    · simp [Ledger.enter, same] at held
    · simpa only [Ledger.enter, update_of_ne same] using held
  | _ => exact held

theorem Ledger.holding_enter (holding : (l.enter q w).Holding p) : l.Holding p := by
  obtain trans | ⟨ip, held⟩ | ⟨b, held⟩ := holding
  · exact .inl (Ledger.inTrans_enter other ▸ trans)
  · exact .inr (.inl ⟨ip, Ledger.holder_enter other held⟩)
  · exact .inr (.inr ⟨b, Ledger.holder_enter other held⟩)

end Others

theorem Ledger.recovered_enter {l : Ledger} {w : Note} (ended : l.recovered = true) : (l.enter q w).recovered = true := by
  cases w <;> simp [Ledger.enter, ended]

theorem Local.later (own : Local p m H h) (later : Later p h h') : Local p m H h' := by
  refine later.induct (Local p m H) own ?_
  intro q w h other own
  refine ⟨?_, ?_, ?_, ?_, ?_, ?_⟩
  · intro r held
    exact own.held r (Ledger.holder_enter other held)
  · exact (Ledger.inBuffered_enter other).trans own.buffered
  · exact (Ledger.inTrans_enter other).trans own.trans
  · intro may always
    exact (Ledger.inTrans_enter other).trans (own.mayLog may always.2)
  · intro init
    exact (Ledger.initialising_enter other).trans (own.init init)
  · intro ended always
    exact Ledger.recovered_enter (own.ready ended always.2)

theorem idle_later (later : Later p h h') (idle : Idle p h) : Idle p h' := by
  refine later.induct (Idle p) idle ?_
  intro q w h other idle
  exact ⟨fun holding => idle.1 (Ledger.holding_enter other holding), (Ledger.inBuffered_enter other).trans idle.2⟩

/-! ## What leaves the notes alone -/

structure Frame (s t : State) : Prop where
  locks : t.locks = s.locks
  thread : t.thread = s.thread
  busy : ∀ r, t.busy r = true → s.busy r = true
  log : t.log.busy = s.log.busy
  first : t.first = s.first
  openfiles : t.openfiles = s.openfiles

theorem Base.frame (base : Base L h s) (frame : Frame s t) : Base L h t where
  locks := by rw [frame.locks]; exact base.locks
  busy r set := base.busy r (frame.busy r set)
  transBusy := by rw [frame.log]; exact base.transBusy
  oneTrans := base.oneTrans
  alive := by rw [frame.thread]; exact base.alive
  first := by rw [frame.first]; exact base.first
  files := by rw [frame.openfiles]; exact base.files
  logged := base.logged
  recovery := base.recovery

theorem At.frame (here : At p m L H h s) (frame : Frame s t) : At p m L H h t where
  base := here.base.frame frame
  gate := ⟨by rw [frame.locks]; exact here.gate.lock, here.gate.one⟩
  own := here.own
  life := by rw [frame.thread]; exact here.life

theorem busy_congr (buf : t.buf = s.buf) (inode : t.inode = s.inode) : t.busy = s.busy := by
  funext r
  cases r with
  | inode ip => cases ip <;> simp only [State.busy, inode]
  | buf b => simp only [State.busy, buf]

theorem Base.flags (base : Base L h s) (buf : t.buf = s.buf) (inode : t.inode = s.inode) (r : Resource)
    (set : t.busy r = true) : ∃ q, (ledger h).holder r = some q :=
  base.busy r (busy_congr buf inode ▸ set)

theorem frame_same (locks : t.locks = s.locks) (thread : t.thread = s.thread) (buf : t.buf = s.buf)
    (inode : t.inode = s.inode) (log : t.log.busy = s.log.busy) (first : t.first = s.first)
    (openfiles : t.openfiles = s.openfiles) : Frame s t := by
  refine ⟨locks, thread, ?_, log, first, openfiles⟩
  rw [busy_congr buf inode]
  exact fun _ set => set

variable {b : Fin nbuf} {x : Buf} {e : Stop} {α : Type} {lk : Lock} {sector : Word} {c : Trap}

theorem frame_setBuf (busy : x.busy = true → (s.buf b).busy = true) :
    Frame s (s.setBuf b x) := by
  refine ⟨rfl, rfl, ?_, rfl, rfl, rfl⟩
  intro r set
  cases r with
  | inode ip => cases ip <;> exact set
  | buf b' =>
    by_cases same : b' = b
    · rw [same] at set ⊢
      exact busy (by simpa [State.busy, State.setBuf] using set)
    · simpa [State.busy, State.setBuf, same] using set

theorem frame_setInode {x : Inode} (busy : x.busy = true → (s.inode ip).busy = true) : Frame s (s.setInode ip x) := by
  refine ⟨rfl, rfl, ?_, rfl, rfl, rfl⟩
  intro r set
  cases r with
  | buf b => exact set
  | inode ip' =>
    cases ip' with
    | none => exact set
    | some i =>
      by_cases same : some i = ip
      · subst same
        exact busy (by simpa [State.busy, State.setInode] using set)
      · simpa [State.busy, State.setInode, same] using set

theorem At.allowed (here : At p m L H h s) (other : e ≠ .panic "write outside of trans") : Allowed e h :=
  ⟨fun always => ⟨here.base.logged always, other⟩, here.base.recovery⟩

/-! ## Locks, waiting and waking -/

theorem stop_meets {Q : α → Notes → State → Prop} (other : e ≠ .panic "write outside of trans") :
    (Code.stop e : KernM α).Meets rules p (At p m L H) Q :=
  Code.Meets.stop fun _ _ here => here.allowed other

theorem kernPanic_meets {message : String} {Q : α → Notes → State → Prop} (other : message ≠ "write outside of trans") :
    (kernPanic message : KernM α).Meets rules p (At p m L H) Q :=
  stop_meets (by simpa using other)

theorem modify_meets {f : State → State} (frame : ∀ s, Frame s (f s)) :
    Steady p m L H (Code.modify f : KernM PUnit) :=
  Code.Meets.modify fun _ s here => here.frame (frame s)

theorem modifyBuf_meets {f : Buf → Buf} (busy : ∀ x, (f x).busy = true → x.busy = true) :
    Steady p m L H (modifyBuf b f) :=
  modify_meets fun s => frame_setBuf (busy (s.buf b))

theorem modifyInode_meets {f : Inode → Inode} (busy : ∀ x, (f x).busy = true → x.busy = true) :
    Steady p m L H (modifyInode ip f) :=
  modify_meets fun s => frame_setInode (busy (s.inode ip))

theorem modifyFile_meets {f : Fin nfile} {g : File → File} : Steady p m L H (modifyFile f g) :=
  modify_meets fun _ => frame_same rfl rfl rfl rfl rfl rfl rfl

theorem modifyLog_meets {f : Log → Log} (busy : ∀ log, (f log).busy = log.busy) : Steady p m L H (modifyLog f) :=
  modify_meets fun s => frame_same rfl rfl rfl rfl (busy s.log) rfl rfl

@[simp] theorem locks_setLock_self {l : Lock} : (s.setLock l v).locks l = v := update_self ..

theorem locks_setLock_of_ne {l k : Lock} (ne : k ≠ l) : (s.setLock l v).locks k = s.locks k :=
  update_of_ne ne ..

theorem Base.setLock {L' : List Lock} {l : Lock} (base : Base L h s)
    (locks : ∀ k, (s.setLock l v).locks k = true → k ∈ L' ∨ k = .buf) : Base L' h (s.setLock l v) :=
  { base with locks := locks, busy := base.flags rfl rfl }

theorem Base.setBufLock (base : Base L h s) : Base L h (s.setLock .buf v) := by
  refine base.setLock fun l taken => ?_
  by_cases same : l = .buf
  · exact .inr same
  · rw [locks_setLock_of_ne same] at taken
    exact base.locks l taken

theorem Gate.setLock {l : Lock} (gate : Gate h s) (ne : l ≠ .buf) : Gate h (s.setLock l v) := by
  refine ⟨?_, gate.one⟩
  rw [locks_setLock_of_ne ne.symm]
  exact gate.lock

theorem At.take {l : Lock} (here : At p m L H h s) (ne : l ≠ .buf) : At p m (l :: L) H h (s.setLock l true) where
  base := by
    refine here.base.setLock ?_
    intro k taken
    by_cases same : k = l
    · exact .inl (same ▸ .head _)
    · rw [locks_setLock_of_ne same] at taken
      exact (here.base.locks k taken).imp (List.mem_cons_of_mem _) id
  gate := here.gate.setLock ne
  own := here.own
  life := here.life

theorem At.free {l : Lock} (here : At p m (l :: L) H h s) (ne : l ≠ .buf) : At p m L H h (s.setLock l false) where
  base := by
    refine here.base.setLock ?_
    intro k taken
    by_cases same : k = l
    · simp [same] at taken
    · rw [locks_setLock_of_ne same] at taken
      cases here.base.locks k taken with
      | inl member => exact .inl ((List.mem_cons.mp member).resolve_left same)
      | inr buf => exact .inr buf
  gate := here.gate.setLock ne
  own := here.own
  life := here.life

theorem acquire_meets {l : Lock} (ne : l ≠ .buf) :
    (acquire l).Meets rules p (At p m L H) fun _ => At p m (l :: L) H := by
  refine Code.Meets.get fun s => Code.Meets.both ?_ ?_
  · exact stop_meets (by simp)
  · exact Code.Meets.modify fun _ _ here => here.take ne

theorem release_meets {l : Lock} (ne : l ≠ .buf) :
    (release l).Meets rules p (At p m (l :: L) H) fun _ => At p m L H :=
  Code.Meets.modify fun _ _ here => here.free ne

theorem spinlockInit_meets {l : Lock} (ne : l ≠ .buf) :
    Steady p m L H (Code.modify (State.setLock · l false) : KernM PUnit) := by
  refine (release_meets ne).strengthen fun h s here => ?_
  have locks : ∀ k, s.locks k = true → k ∈ l :: L ∨ k = .buf :=
    fun k taken => (here.base.locks k taken).imp (List.mem_cons_of_mem _) id
  exact { here with base := { here.base with locks := locks } }

theorem At.wake (here : At p m L H h s) : At p m L H h (s.wake chan) where
  base :=
    { here.base with
      busy := here.base.flags rfl rfl
      alive := by
        intro always q holding
        have alive := here.base.alive always q holding
        dsimp only [State.wake]
        split
        · simp
        · exact alive }
  gate := ⟨here.gate.lock, here.gate.one⟩
  own := here.own
  life := by simp [State.wake, here.life]

theorem threadWakeup_meets : Steady p m L H (threadWakeup chan) :=
  (acquire_meets (by simp)).seq <|
    (Code.Meets.modify fun _ _ here => here.wake).seq <| release_meets (by simp)

theorem Base.fallAsleep (base : Base L h s) (only : ∀ l ∈ L, l = lk) :
    Base [] h (s.fallAsleep p chan lk) where
  locks := by
    intro l taken
    by_cases same : l = lk
    · rw [same] at taken
      simp [State.fallAsleep] at taken
    · have before : s.locks l = true := by rwa [State.fallAsleep, locks_setLock_of_ne same] at taken
      exact .inr ((base.locks l before).resolve_left fun member => same (only l member))
  busy := base.flags rfl rfl
  transBusy := base.transBusy
  oneTrans := base.oneTrans
  alive := by
    intro always q holding
    have alive := base.alive always q holding
    by_cases same : q = p
    · simp [State.fallAsleep, same]
    · simpa [State.fallAsleep, State.setLock, same] using alive
  first := base.first
  files := base.files
  logged := base.logged
  recovery := base.recovery

theorem Gate.fallAsleep (gate : Gate h s) (ne : lk ≠ .buf) : Gate h (s.fallAsleep p chan lk) :=
  ⟨(gate.setLock ne).lock, gate.one⟩

theorem sleepWhile_meets {blocked : State → Option Chan} (ne : lk ≠ .buf)
    (indep : ∀ s v, blocked (s.setLock lk v) = blocked s) :
    (sleepWhile lk blocked).Meets rules p (At p m [lk] H) fun _ h s => At p m [lk] H h s ∧ blocked s = none := by
  intro h s here
  dsimp only [sleepWhile]
  cases waits : blocked s with
  | none => exact ⟨here, waits⟩
  | some chan =>
    dsimp only
    split
    · exact here.allowed (by simp)
    refine ⟨⟨here.base.fallAsleep (by simp), here.gate.fallAsleep ne⟩, ?_⟩
    intro h' s' later inv runs
    have resumed : At p m [] H h' s' := ⟨inv.1, inv.2, here.own.later later, runs⟩
    refine ⟨?_, ?_⟩
    · intro t again
      dsimp only at again
      split at again
      · cases again
      · obtain ⟨chan, -, rfl⟩ := Option.map_eq_some_iff.mp again
        exact ⟨resumed.base.fallAsleep (by simp), resumed.gate.fallAsleep ne⟩
    · intro ended
      dsimp only at ended ⊢
      split
      · exact resumed.allowed (by simp)
      split
      · exact resumed.allowed (by simp)
      rename_i sched free
      rw [if_neg (by simp [sched, free]), Option.map_eq_none_iff] at ended
      exact ⟨resumed.take ne, (indep s' true).trans ended⟩

/-! ## Notes -/

structure Enters (p : Nat) (w : Note) (h : Notes) (s t : State) : Prop where
  locks : t.locks = s.locks
  openfiles : t.openfiles = s.openfiles
  busy : ∀ r, t.busy r = true → ∃ q, ((ledger h).enter p w).holder r = some q
  transBusy : t.log.busy = true ↔ ∃ q, ((ledger h).enter p w).inTrans q = true
  oneTrans : ∀ q q', ((ledger h).enter p w).inTrans q = true → ((ledger h).enter p w).inTrans q' = true → q = q'
  first : t.first = true ↔ ((ledger h).enter p w).initialised = false
  logs : Always FreesInTrans ((p, w) :: h) → LogsInTrans h p w
  recovery : Always OnTime h → RecoveryFirst h p w

theorem Base.noted {w : Note} (base : Base L h s) (enters : Enters p w h s t)
    (alive : Always KillsIdle ((p, w) :: h) → ∀ q, ((ledger h).enter p w).Holding q → t.thread q ≠ .dead) :
    Base L ((p, w) :: h) t where
  locks := by rw [enters.locks]; exact base.locks
  busy := enters.busy
  transBusy := enters.transBusy
  oneTrans := enters.oneTrans
  alive := alive
  first := enters.first
  files := by
    rw [enters.openfiles]
    exact fun always => (base.files always.2).imp Ledger.recovered_enter id
  logged := fun always => ⟨enters.logs always, base.logged always.2⟩
  recovery := fun always => ⟨enters.recovery always.2, base.recovery always.2⟩

theorem At.noted {m' : Mode} {w : Note} (here : At p m L H h s) (enters : Enters p w h s t)
    (thread : t.thread = s.thread) (buffered : ((ledger h).enter p w).inBuffered = (ledger h).inBuffered)
    (own : Local p m' H' ((p, w) :: h)) : At p m' L H' ((p, w) :: h) t := by
  have life : t.thread p = .running := by rw [thread]; exact here.life
  refine ⟨here.base.noted enters ?_, ⟨?_, ?_⟩, own, life⟩
  · intro always q holding
    by_cases same : q = p
    · rw [same, life]
      simp
    · rw [thread]
      exact here.base.alive always.2 q (Ledger.holding_enter (Ne.symm same) holding)
  · rw [enters.locks, ledger, buffered]
    exact here.gate.lock
  · rw [ledger, buffered]
    exact here.gate.one

structure Sets (r : Resource) (s t : State) : Prop where
  locks : t.locks = s.locks
  thread : t.thread = s.thread
  busy : ∀ r', t.busy r' = true → r' ≠ r → s.busy r' = true
  log : t.log.busy = s.log.busy
  first : t.first = s.first
  openfiles : t.openfiles = s.openfiles

theorem At.holders {w : Note} {holder : Resource → Option Nat} (here : At p m L H h s) (sets : Sets r s t)
    (entry : (ledger h).enter p w = { ledger h with holder := holder })
    (logs : Always FreesInTrans ((p, w) :: h) → LogsInTrans h p w) (recovery : Always OnTime h → RecoveryFirst h p w)
    (busy : ∀ r', t.busy r' = true → ∃ q, holder r' = some q)
    (held : ∀ r', holder r' = some p → r' ∈ H') : At p m L H' ((p, w) :: h) t := by
  refine here.noted ⟨sets.locks, sets.openfiles, ?_, ?_, ?_, ?_, logs, recovery⟩ sets.thread ?_ ?_
  · rw [entry]
    exact busy
  · rw [entry, sets.log]
    exact here.base.transBusy
  · rw [entry]
    exact here.base.oneTrans
  · rw [entry, sets.first]
    exact here.base.first
  · rw [entry]
  · refine ⟨?_, ?_, ?_, ?_, ?_, ?_⟩ <;> rw [ledger, entry]
    · exact held
    · exact here.own.buffered
    · exact here.own.trans
    · exact fun may always => here.own.mayLog may always.2
    · exact here.own.init
    · exact fun ready always => here.own.ready ready always.2

theorem At.silent {w : Note} (here : At p m L H h s) (same : ∀ l : Ledger, l.enter p w = l)
    (logs : Always FreesInTrans ((p, w) :: h) → LogsInTrans h p w)
    (recovery : Always OnTime h → RecoveryFirst h p w) : At p m L H ((p, w) :: h) s :=
  here.holders (r := .buf 0) ⟨rfl, rfl, fun _ set _ => set, rfl, rfl, rfl⟩ (same _) logs recovery here.base.busy
    here.own.held

theorem block_meets {dev : Word} (known : m.phase ≠ .early) :
    Steady p m L H (Code.note (.block dev sector) : KernM PUnit) := by
  refine Code.Meets.note fun h s here => here.silent (fun _ => rfl) (fun _ => trivial) ?_
  intro always
  cases phase : m.phase with
  | early => exact absurd phase known
  | init => exact .inr (here.own.init phase)
  | ready => exact .inl (here.own.ready phase always)

theorem inode_meets (ready : m.phase = .ready) : Steady p m L H (Code.note (.inode ip) : KernM PUnit) :=
  Code.Meets.note fun _ _ here => here.silent (fun _ => rfl) (fun _ => trivial) fun always =>
    here.own.ready ready always

theorem blockAlloc_noted {found : Option Word} : Steady p m L H (Code.note (.blockAlloc found) : KernM PUnit) :=
  Code.Meets.note fun _ _ here => here.silent (fun _ => rfl) (fun _ => trivial) fun _ => trivial

theorem entry_noted {dp : Slot} {nlink : BitVec 16} : Steady p m L H (Code.note (.entry dp nlink) : KernM PUnit) :=
  Code.Meets.note fun _ _ here => here.silent (fun _ => rfl) (fun _ => trivial) fun _ => trivial

theorem At.logWrite (here : At p m L H h s) (may : m.mayLog = true) :
    At p m L H ((p, .logWrite sector) :: h) s :=
  here.silent (fun _ => rfl) (fun always => here.own.mayLog may always.2) fun _ => trivial

theorem At.excused {w : Note} (here : At p m L H h s) (same : ∀ l : Ledger, l.enter p w = l)
    (logs : LogsInTrans h p w) (first : RecoveryFirst h p w) (frees : FreesInTrans h p w → (ledger h).inTrans p = true) :
    At p { m with mayLog := true } L H ((p, w) :: h) s := by
  have noted := here.silent same (fun _ => logs) fun _ => first
  refine { noted with own := { noted.own with mayLog := ?_ } }
  intro _ always
  exact (congrArg (Ledger.inTrans · p) (same (ledger h))).trans (frees always.1)

theorem frees_meets :
    (Code.note (.frees ip) : KernM PUnit).Meets rules p (At p m L H) fun _ => At p { m with mayLog := true } L H :=
  Code.Meets.note fun _ _ here => here.excused (w := .frees ip) (fun _ => rfl) trivial trivial id

theorem hole_meets {bn : Word} :
    (Code.note (.hole ip bn) : KernM PUnit).Meets rules p (At p m L H) fun _ => At p { m with mayLog := true } L H :=
  Code.Meets.note fun _ _ here => here.excused (w := .hole ip bn) (fun _ => rfl) trivial trivial id

theorem At.restrain (here : At p { m with mayLog := true } L H h s) : At p m L H h s :=
  { here with own := { here.own with mayLog := fun _ => here.own.mayLog rfl } }

theorem sets_setBuf : Sets (.buf b) s (s.setBuf b x) := by
  refine ⟨rfl, rfl, ?_, rfl, rfl, rfl⟩
  intro r set other
  cases r with
  | inode ip => cases ip <;> exact set
  | buf b' =>
    have ne : b' ≠ b := fun same => other (congrArg Resource.buf same)
    simpa [State.busy, State.setBuf, ne] using set

theorem sets_setInode {x : Inode} : Sets (.inode ip) s (s.setInode ip x) := by
  refine ⟨rfl, rfl, ?_, rfl, rfl, rfl⟩
  intro r set other
  cases r with
  | buf b => exact set
  | inode ip' =>
    have ne : ip' ≠ ip := fun same => other (congrArg Resource.inode same)
    cases ip' with
    | none => exact set
    | some i => simpa [State.busy, State.setInode, ne] using set

section

variable (here : At p m L H h s) (sets : Sets r s t)
include here sets

theorem At.takes : At p m L (r :: H) ((p, .take r) :: h) t := by
  refine here.holders sets rfl (fun _ => trivial) (fun _ => trivial) ?_ ?_
  · intro r' set
    by_cases same : r' = r
    · exact ⟨p, by rw [same, update_self]⟩
    · obtain ⟨q, held⟩ := here.base.busy r' (sets.busy r' set same)
      exact ⟨q, by rw [update_of_ne same, held]⟩
  · intro r' held
    by_cases same : r' = r
    · exact same ▸ .head _
    · rw [update_of_ne same] at held
      exact .tail _ (here.own.held r' held)

theorem At.drops (clear : t.busy r = false)
    (sub : ∀ r' ∈ H, r' = r ∨ r' ∈ H') : At p m L H' ((p, .drop r) :: h) t := by
  have kept : ∀ r' q, update (ledger h).holder r none r' = some q → r' ≠ r ∧ (ledger h).holder r' = some q := by
    intro r' q held
    by_cases same : r' = r
    · rw [same, update_self] at held
      cases held
    · exact ⟨same, by rwa [update_of_ne same] at held⟩
  refine here.holders sets rfl (fun _ => trivial) (fun _ => trivial) ?_ ?_
  · intro r' set
    have other : r' ≠ r := by
      intro same
      rw [same, clear] at set
      cases set
    obtain ⟨q, held⟩ := here.base.busy r' (sets.busy r' set other)
    exact ⟨q, by rw [update_of_ne other, held]⟩
  · intro r' held
    exact (sub r' (here.own.held r' (kept r' p held).2)).resolve_left (kept r' p held).1

end

/-! ## Transactions -/

def State.setBusy (s : State) (v : Bool) : State := { s with log := { s.log with busy := v } }

section

variable (here : At p m L H h s)
include here

theorem At.transits {w : Note} {inTrans : Nat → Bool}
    (entry : (ledger h).enter p w = { ledger h with inTrans := inTrans })
    (only : ∀ q, inTrans q = true ↔ v = true ∧ q = p)
    (logs : LogsInTrans h p w) (recovery : Always OnTime h → RecoveryFirst h p w) :
    At p { m with trans := v, mayLog := v } L H ((p, w) :: h) (s.setBusy v) := by
  have self : inTrans p = v := by
    cases v with
    | true => exact (only p).mpr ⟨rfl, rfl⟩
    | false => simpa using only p
  refine here.noted ⟨rfl, rfl, ?_, ?_, ?_, ?_, fun _ => logs, recovery⟩ rfl ?_ ?_
  · rw [entry]
    exact here.base.flags rfl rfl
  · rw [entry]
    refine ⟨fun set => ⟨p, (only p).mpr ⟨set, rfl⟩⟩, ?_⟩
    rintro ⟨q, inside⟩
    exact ((only q).mp inside).1
  · rw [entry]
    intro q q' inside inside'
    rw [((only q).mp inside).2, ((only q').mp inside').2]
  · rw [entry]
    exact here.base.first
  · rw [entry]
  · refine ⟨?_, ?_, ?_, ?_, ?_, ?_⟩ <;> rw [ledger, entry]
    · exact here.own.held
    · exact here.own.buffered
    · exact self
    · exact fun may _ => self.trans may
    · exact here.own.init
    · exact fun ready always => here.own.ready ready always.2

theorem At.begins (ready : m.phase = .ready) (free : s.log.busy = false) : At p
    { m with trans := true, mayLog := true } L H ((p, .beginTrans) :: h) (s.setBusy true) := by
  refine here.transits rfl ?_ trivial (here.own.ready ready)
  intro q
  have outside : (ledger h).inTrans q = false := by
    by_contra inside
    have taken := here.base.transBusy.mpr ⟨q, by simpa using inside⟩
    rw [free] at taken
    cases taken
  by_cases same : q = p
  · simp [same]
  · simp [same, outside]

theorem At.commits (inside : m.trans = true) : At p { m with trans := false, mayLog := false } L H
    ((p, .commitTrans) :: h) (s.setBusy false) := by
  refine here.transits rfl ?_ trivial fun _ => trivial
  intro q
  by_cases same : q = p
  · simp [same]
  · have outside : (ledger h).inTrans q ≠ true := by
      intro both
      exact same (here.base.oneTrans q p both (here.own.trans.trans inside))
    simp [same, outside]

/-! ## Recovery and open files -/

theorem At.initialises : At p { m with phase := .init } L H ((p, .logInit) :: h) { s with first := false } := by
  have own := here.own
  refine here.noted ⟨rfl, rfl, here.base.flags rfl rfl, here.base.transBusy, here.base.oneTrans, ?_, fun _ => trivial,
    fun _ => trivial⟩ rfl rfl ?_
  · simp [Ledger.enter]
  · refine ⟨own.held, own.buffered, own.trans, fun may always => own.mayLog may always.2, ?_, by simp⟩
    exact fun _ => update_self ..

theorem At.recovers : At p { m with phase := .ready } L H ((p, .recovered) :: h) s := by
  have base := here.base
  have own := here.own
  refine here.noted ⟨rfl, rfl, base.busy, base.transBusy, base.oneTrans, base.first, fun _ => trivial, fun _ => trivial⟩
    rfl rfl ?_
  exact ⟨own.held, own.buffered, own.trans, fun may always => own.mayLog may always.2, by simp, fun _ _ => rfl⟩

theorem At.knows (ended : Always OnTime h → (ledger h).recovered = true) : At p { m with phase := .ready } L H h s :=
  { here with own := { here.own with init := by simp, ready := fun _ => ended } }

theorem At.forgets : At p { m with phase := .early } L H h s :=
  { here with own := { here.own with init := by simp, ready := by simp } }

theorem At.opened {fd : Nat} {f : Fin nfile} (isOpen : s.openfiles q fd = some f) : At p
    { m with phase := .ready } L H h s := by
  refine here.knows fun always => (here.base.files always).resolve_right ?_
  intro closed
  rw [closed q fd] at isOpen
  cases isOpen

end

theorem setOpenfile_meets {fd : Nat} {f : Option (Fin nfile)} (ready : m.phase = .ready) :
    Steady p m L H (setOpenfile q fd f) := by
  refine Code.Meets.modify fun h s here => ?_
  have base := here.base
  refine ⟨?_, ⟨here.gate.lock, here.gate.one⟩, here.own, here.life⟩
  exact { base with busy := base.flags rfl rfl, files := fun always => .inl (here.own.ready ready always) }

/-! ## Entering and leaving -/

structure Apart (p : Nat) (h : Notes) (s : State) : Prop where
  lock : s.locks .buf = true ↔ ∃ q, q ≠ p ∧ (ledger h).inBuffered q = true
  one : ∀ q q', q ≠ p → q' ≠ p → (ledger h).inBuffered q = true → (ledger h).inBuffered q' = true → q = q'

theorem Gate.apart (gate : Gate h s) (outside : (ledger h).inBuffered p = false) : Apart p h s := by
  refine ⟨gate.lock.trans ⟨?_, ?_⟩, fun q q' _ _ => gate.one q q'⟩
  · rintro ⟨q, inside⟩
    refine ⟨q, ?_, inside⟩
    rintro rfl
    rw [outside] at inside
    cases inside
  · rintro ⟨q, -, inside⟩
    exact ⟨q, inside⟩

theorem Apart.gate (apart : Apart p h s) (outside : (ledger h).inBuffered p = false) : Gate h s := by
  have other : ∀ q, (ledger h).inBuffered q = true → q ≠ p := by
    rintro q inside rfl
    rw [outside] at inside
    cases inside
  refine ⟨apart.lock.trans ⟨?_, ?_⟩, fun q q' inside inside' => apart.one q q' (other q inside) (other q' inside') inside inside'⟩
  · rintro ⟨q, -, inside⟩
    exact ⟨q, inside⟩
  · rintro ⟨q, inside⟩
    exact ⟨q, other q inside, inside⟩

theorem Apart.noted {w : Note} (apart : Apart p h s) : Apart p ((p, w) :: h) s := by
  have others : ∀ q, q ≠ p → (ledger ((p, w) :: h)).inBuffered q = (ledger h).inBuffered q :=
    fun q ne => Ledger.inBuffered_enter ne.symm
  refine ⟨apart.lock.trans (exists_congr fun q => and_congr_right fun ne => by rw [others q ne]), ?_⟩
  intro q q' ne ne'
  rw [others q ne, others q' ne']
  exact apart.one q q' ne ne'

theorem Apart.take (apart : Apart p h s) (inside : (ledger h).inBuffered p = true) (free : s.locks .buf ≠ true) :
    Gate h (s.setLock .buf true) := by
  have only : ∀ q, (ledger h).inBuffered q = true → q = p := by
    intro q inside
    by_contra other
    exact free (apart.lock.mpr ⟨q, other, inside⟩)
  refine ⟨by simpa using ⟨p, inside⟩, ?_⟩
  intro q q' inside inside'
  rw [only q inside, only q' inside']

theorem Gate.free (gate : Gate h s) (inside : (ledger h).inBuffered p = true) : Apart p h (s.setLock .buf false) := by
  have only : ∀ q, q ≠ p → ¬ (ledger h).inBuffered q = true := fun q ne inside' => ne (gate.one q p inside' inside)
  refine ⟨by simpa using only, ?_⟩
  intro q q' ne _ inside'
  exact absurd inside' (only q ne)

def Mode.caller (buffered : Bool) : Mode := ⟨buffered, false, false, .early⟩

structure Away (p : Nat) (buffered : Bool) (h : Notes) (s : State) : Prop where
  base : Base [] h s
  apart : Apart p h s
  own : Local p (.caller buffered) [] h

structure Entered (p : Nat) (c : Trap) (h : Notes) (s : State) : Prop where
  away : Away p c.buffered h s
  life : s.thread p = .running
  onTime : Always OnTime h → c.pathwise = true →
    (ledger h).recovered = true ∨ c.opens = true ∧ (ledger h).initialised = false

theorem local_of_idle (idle : Idle p h) : Local p (.caller false) [] h where
  held r held := absurd (holding_of_holder held) idle.1
  buffered := idle.2
  trans := by simpa [Mode.caller] using fun inside => idle.1 (.inl inside)
  mayLog := by simp [Mode.caller]
  init := by simp [Mode.caller]
  ready := by simp [Mode.caller]

theorem enter_meets :
    (Code.note (.enter c) : KernM PUnit).Meets rules p (fun h s => rules.inv h s ∧ rules.runs p s ∧ Idle p h)
      fun _ => Entered p c := by
  refine Code.Meets.note fun h s entering => ?_
  obtain ⟨⟨base, gate⟩, runs, idle⟩ := entering
  have own := local_of_idle idle
  refine ⟨⟨?_, (gate.apart idle.2).noted, ?_⟩, runs, fun always => always.1⟩
  · exact base.noted ⟨rfl, rfl, base.busy, base.transBusy, base.oneTrans, base.first, fun _ => trivial, fun _ => trivial⟩
      fun always => base.alive always.2
  · exact ⟨own.held, update_self .., own.trans, by simp [Mode.caller], by simp [Mode.caller], by simp [Mode.caller]⟩

theorem leave_meets {reply : Reply} {buffered : Bool} :
    (Code.note (.leave reply) : KernM PUnit).Meets rules p (Away p buffered)
      fun _ h s => rules.inv h s ∧ Idle p h := by
  refine Code.Meets.note fun h s away => ?_
  have base := away.base
  have outside : (ledger ((p, .leave reply) :: h)).inBuffered p = false := update_self ..
  refine ⟨⟨?_, away.apart.noted.gate outside⟩, ?_, outside⟩
  · exact base.noted ⟨rfl, rfl, base.busy, base.transBusy, base.oneTrans, base.first, fun _ => trivial, fun _ => trivial⟩
      fun always => base.alive always.2
  · rintro (inside | ⟨ip, held⟩ | ⟨b, held⟩)
    · have outside := away.own.trans
      cases inside.symm.trans outside
    · cases away.own.held _ held
    · cases away.own.held _ held

theorem At.away (here : At p m [] [] h s) (plain : m.buffered = false) (ended : m.trans = false) : Away p false h s where
  base := here.base
  apart := here.gate.apart (here.own.buffered.trans plain)
  own := ⟨here.own.held, here.own.buffered.trans plain, here.own.trans.trans ended, by simp [Mode.caller],
    by simp [Mode.caller], by simp [Mode.caller]⟩

theorem Entered.here (entered : Entered p c h s) (plain : c.buffered = false) :
    At p (.caller false) [] [] h s := by
  have away := entered.away
  rw [plain] at away
  exact ⟨away.base, away.apart.gate away.own.buffered, away.own, entered.life⟩

theorem withBufLock_meets {code : KernM Reply} (buffered : c.buffered = true)
    (meets : Steady p (.caller true) [] [] code) :
    Code.Meets rules p (Entered p c)
      (do
        acquire .buf
        let reply ← code
        release .buf
        pure reply) fun _ => Away p c.buffered := by
  rw [buffered]
  refine Code.Meets.seq (Q := fun _ => At p (.caller true) [] []) (.read fun s => .ite ?_ ?_) ?_
  · refine fun _ => Code.Meets.stop fun h t entered => ?_
    have base := entered.1.away.base
    exact ⟨fun always => ⟨base.logged always, by simp⟩, base.recovery⟩
  · refine fun free => Code.Meets.modify fun h t entered => ?_
    obtain ⟨⟨away, life, -⟩, rfl⟩ := entered
    rw [buffered] at away
    exact ⟨away.base.setBufLock, away.apart.take away.own.buffered free, away.own, life⟩
  · refine meets.bind fun reply => Code.Meets.seq (Q := fun _ => Away p true) ?_ <| .pure fun _ _ away => away
    exact Code.Meets.modify fun h s here => ⟨here.base.setBufLock, here.gate.free here.own.buffered, here.own⟩

end Certikos.FileSys
