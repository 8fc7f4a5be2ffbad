import Certikos.FileSys.Frames

/-!
# The buffer cache in every run

Each operation of `bufcache.c` and `log.c` keeps to the invariant of the pool, whatever the other processes do while it
sleeps.
-/

namespace Certikos.FileSys
open Lib
open Fs (nbuf Block Buf)

def poolRules : Rules Nat State Stop Note where
  inv h s := Pool none [] h s
  runs p s := s.thread p = .running
  allowed _ _ _ := True

structure InPool (p : Nat) (X : Option (Fin nbuf)) (L : List Lock) (K : List (Fin nbuf × Bool)) (h : Notes)
    (s : State) : Prop where
  pool : Pool X L h s
  keeps : Keeps p K h
  life : s.thread p = .running

variable {p q : Nat} {X : Option (Fin nbuf)} {L : List Lock} {K : List (Fin nbuf × Bool)} {h h' : Notes} {s t : State}
  {b b' : Fin nbuf} {e : Bool} {dev sector : Word} {x : Buf}

/-! ## Locks and waiting -/

variable {α : Type} {l lk : Lock} {C : State → Prop} {blocked : State → Option Chan} {w : Note} {f : Block → Block}

theorem stop_pool {e : Stop} {P : Notes → State → Prop} {Q : α → Notes → State → Prop} :
    (Code.stop e : KernM α).Meets poolRules p P Q := Code.Meets.stop fun _ _ _ => trivial

theorem acquire_pool_and (stable : ∀ s, C s → C (s.setLock l true)) :
    (acquire l).Meets poolRules p (fun h s => InPool p X L K h s ∧ C s)
      fun _ h s => InPool p X (l :: L) K h s ∧ C s := by
  refine Code.Meets.get fun _ => Code.Meets.both stop_pool <| Code.Meets.modify ?_
  intro h s given
  exact ⟨⟨given.1.pool.acquired, given.1.keeps, given.1.life⟩, stable s given.2⟩

theorem acquire_pool : (acquire l).Meets poolRules p (InPool p X L K) fun _ => InPool p X (l :: L) K :=
  (acquire_pool_and (C := fun _ => True) fun _ _ => trivial).conseq (fun _ _ here => ⟨here, trivial⟩)
    fun _ _ _ after => after.1

theorem release_pool : (release l).Meets poolRules p (InPool p X (l :: L) K) fun _ => InPool p X L K :=
  Code.Meets.modify fun _ _ here => ⟨here.pool.released, here.keeps, here.life⟩

theorem Pool.unlocked (pool : Pool X [] h s) (l : Lock) : s.locks l = false := by
  cases taken : s.locks l with
  | false => rfl
  | true => exact absurd (pool.locks l taken) (List.not_mem_nil)

theorem wait_pool (stable : ∀ s, blocked (s.setLock lk true) = blocked s) (keeps : Keeps p K h)
    (asleep : Pool none [] h t) :
    Turn.Keeps poolRules p (fun _ h s => InPool p none [lk] K h s ∧ blocked s = none)
      (.wait t
        (fun s =>
          if s.locks .sched = true ∨ s.locks lk = true then none
          else (blocked s).map fun chan => s.fallAsleep p chan lk)
        fun s =>
          if s.locks .sched = true then .stop (.spins .sched) s
          else if s.locks lk = true then .stop (.spins lk) s
          else .done PUnit.unit (s.setLock lk true)) h := by
  refine ⟨asleep, ?_⟩
  intro h' s' later inv runs
  have free := Pool.unlocked inv
  have open' : ¬ (s'.locks .sched = true ∨ s'.locks lk = true) := by simp [free]
  simp only [if_neg open', Option.map_eq_some_iff, Option.map_eq_none_iff]
  refine ⟨?_, ?_⟩
  · rintro t ⟨chan, _, rfl⟩
    exact Pool.asleep { inv with locks := fun l taken => absurd (inv.locks l taken) (List.not_mem_nil) } runs
  · intro ended
    rw [if_neg (by simp [free]), if_neg (by simp [free])]
    exact ⟨⟨inv.acquired, keeps.later later inv.orderly, runs⟩, (stable s').trans ended⟩

theorem sleepWhile_pool (stable : ∀ s, blocked (s.setLock lk true) = blocked s) :
    (sleepWhile lk blocked).Meets poolRules p (InPool p none [lk] K)
      fun _ h s => InPool p none [lk] K h s ∧ blocked s = none := by
  intro h s here
  unfold sleepWhile
  cases waits : blocked s with
  | none => exact ⟨here, waits⟩
  | some chan =>
    simp only
    split
    · trivial
    · exact wait_pool stable here.keeps (here.pool.asleep here.life)

theorem threadWakeup_pool {chan : Chan} (stable : ∀ s l v, C s → C (s.setLock l v))
    (free : ∀ s, C s → ∀ b ∈ s.idequeue, chan ≠ .buf b) :
    (threadWakeup chan).Meets poolRules p (fun h s => InPool p X L K h s ∧ C s) fun _ => InPool p X L K := by
  refine .seq (acquire_pool_and fun s => stable s .sched true) <| .seq ?_ release_pool
  refine Code.Meets.modify ?_
  intro h s given
  refine ⟨given.1.pool.wake (free s given.2), given.1.keeps, ?_⟩
  have running := given.1.life
  simp [State.wake, running]

def Note.Quiet : Note → Prop
  | .take (.buf _) | .drop (.buf _) | .edits _ | .saves _ => False
  | _ => True

theorem InPool.note (here : InPool p X L K h s) (quiet : w.Quiet) : InPool p X L K ((p, w) :: h) s := by
  obtain ⟨pool, keeps, life⟩ := here
  have holder : ∀ b, (ledger ((p, w) :: h)).holder (.buf b) = (ledger h).holder (.buf b) := by
    intro b
    cases w with
    | take r => cases r <;> first | exact absurd quiet id | rfl
    | drop r => cases r <;> first | exact absurd quiet id | rfl
    | _ => rfl
  have orderly : Orderly h p w := by
    cases w with
    | take r => cases r <;> first | exact absurd quiet id | trivial
    | drop r => cases r <;> first | exact absurd quiet id | trivial
    | edits b => exact absurd quiet id
    | saves b => exact absurd quiet id
    | _ => trivial
  have unsaved : ∀ b, edited ((p, w) :: h) b = edited h b := by
    intro b
    cases w with
    | edits b => exact absurd quiet id
    | saves b => exact absurd quiet id
    | _ => rfl
  have around : links ((p, w) :: h) = links h := by
    cases w with
    | drop r => cases r <;> first | exact absurd quiet id | rfl
    | _ => rfl
  refine ⟨?_, ?_, life⟩
  · exact
      { pool with
        orderly := ⟨orderly, pool.orderly⟩
        busy := by simpa only [holder] using pool.busy
        owned := by simpa only [holder, unsaved] using pool.owned
        ring := around ▸ pool.ring
        queued := by simpa only [holder] using pool.queued
        clean := by simpa only [unsaved] using pool.clean }
  · simpa only [Keeps, holder, unsaved] using keeps

theorem note_pool (quiet : w.Quiet) :
    (Code.note w).Meets poolRules p (InPool p X L K) fun _ => InPool p X L K :=
  Code.Meets.note fun _ _ here => here.note quiet

/-! ## `bufcache.c` and `ide_rw` -/

theorem Pool.unedited (pool : Pool X L h s) (free : (ledger h).holder (.buf b) = none) : edited h b = false := by
  cases unsaved : edited h b with
  | false => rfl
  | true =>
    obtain ⟨q, held⟩ := pool.owned b unsaved
    rw [free] at held
    cases held

theorem InPool.takes (here : InPool p none L K h s) (free : (s.buf b).busy = false) (busy : x.busy = true)
    (present : Present x.dev x.sector) (single : ∀ b', b' ≠ b → ¬ (s.buf b').Holds x.dev x.sector)
    (clean : edited h b = false → x.valid = true → x.dirty = false → x.data = s.disk x.addr) :
    InPool p none L ((b, false) :: K) ((p, .take (.buf b)) :: h) (s.setBuf b x) ∧ ∀ k ∈ K, k.1 ≠ b := by
  have nobody := here.pool.holder_of_free free
  have apart : ∀ k ∈ K, k.1 ≠ b := by
    intro k member same
    have held := (here.keeps k member).1
    rw [same, nobody] at held
    cases held
  refine ⟨⟨here.pool.takes free busy present single clean, ?_, here.life⟩, apart⟩
  intro k member
  cases List.mem_cons.mp member with
  | inl same => exact same ▸ ⟨holder_take_self, here.pool.unedited nobody⟩
  | inr before => exact ⟨(holder_take_of_ne (apart k before)).trans (here.keeps k before).1, (here.keeps k before).2⟩

theorem took_pool :
    (do Code.note (.take (.buf b)); release .bcache; pure b : KernM (Fin nbuf)).Meets poolRules p
      (fun h s => InPool p none [.bcache] ((b, false) :: K) ((p, .take (.buf b)) :: h) s ∧ ∀ k ∈ K, k.1 ≠ b)
      fun b h s => InPool p none [] ((b, false) :: K) h s ∧ ∀ k ∈ K, k.1 ≠ b := by
  intro h s given
  exact ⟨release_pool _ _ given.1, given.2⟩

theorem bufcacheGet_pool (present : Present dev sector) :
    (bufcacheGet dev sector).Meets poolRules p (InPool p none [] K)
      fun b h s => InPool p none [] ((b, false) :: K) h s ∧ ∀ k ∈ K, k.1 ≠ b := by
  refine .seq acquire_pool <| .seq (sleepWhile_pool fun _ => rfl) <| .read fun t => ?_
  cases found : t.cached dev sector with
  | some b =>
    have holds : (t.buf b).Holds dev sector := by simpa using List.find?_some found
    refine .seq (.modify ?_) took_pool
    rintro h s ⟨⟨here, ended⟩, rfl⟩
    have free : (s.buf b).busy = false := by simpa [found] using ended
    have present : Present (s.buf b).dev (s.buf b).sector := by
      rw [holds.1, holds.2]
      exact present
    have single : ∀ b', b' ≠ b → ¬ (s.buf b').Holds (s.buf b).dev (s.buf b).sector :=
      fun b' ne other => ne (here.pool.distinct b b' present other)
    exact here.takes free rfl present single (here.pool.clean b (by simp))
  | none =>
    have missing : ∀ b', b' ∈ t.mru → ¬ (t.buf b').Holds dev sector := by
      simpa [State.cached] using found
    cases victim : t.recyclable with
    | none => exact stop_pool
    | some b =>
      have idle : (t.buf b).busy = false ∧ (t.buf b).dirty = false := by
        simpa using List.find?_some victim
      refine .seq (.modify ?_) took_pool
      rintro h s ⟨⟨here, -⟩, rfl⟩
      exact here.takes idle.1 rfl present (fun b' _ => missing b' (here.pool.all b')) fun _ valid => by cases valid

theorem enqueue_eq (rest : KernM PUnit) : (do
    let s ← Code.get
    Code.modify fun s => { s with idequeue := s.idequeue ++ [b] }
    (if s.idequeue = [] then Code.modify (State.ideStart · b) else pure ⟨⟩)
    rest : KernM PUnit) = (do Code.modify (State.enqueue · b); rest) := by
  funext p s
  show ((if s.idequeue = [] then _ else _ : KernM PUnit) p _).bind _ = rest p (s.enqueue b)
  by_cases idle : s.idequeue = []
  · rw [State.enqueue, if_pos idle, if_pos idle]
    rfl
  · rw [State.enqueue, if_neg idle, if_neg idle]
    rfl

theorem buf_enqueue : (s.enqueue b).buf = s.buf := by
  unfold State.enqueue
  split <;> rfl

theorem ideRw_pool (member : (b, e) ∈ K) :
    (ideRw b).Meets poolRules p (InPool p none [] K) fun _ => InPool p none [] K := by
  refine .read fun t => .both stop_pool <| .ite (fun _ => stop_pool) fun needed => ?_
  refine .both stop_pool ?_
  refine .seq (Q := fun _ h s => InPool p none [.ide] K h s ∧ s.buf b = t.buf b) ?_ ?_
  · refine (acquire_pool_and (C := fun s => s.buf b = t.buf b) fun _ same => same).strengthen ?_
    rintro h s ⟨here, rfl⟩
    exact ⟨here, rfl⟩
  · rw [enqueue_eq]
    refine .seq (Q := fun _ h s => ∃ s₀, InPool p none [.ide] K h s₀ ∧ s₀.buf b = t.buf b ∧ s = s₀.enqueue b)
      (.modify fun h s given => ⟨s, given.1, given.2, rfl⟩) ?_
    refine .seq (Q := fun _ => InPool p none [.ide] K) ?_ release_pool
    rintro h _ ⟨s, here, same, rfl⟩
    -- the request is not done yet, so the process does sleep
    have waits : ¬ (((s.enqueue b).buf b).valid = true ∧ ((s.enqueue b).buf b).dirty = false) := by
      rw [buf_enqueue, same]
      exact needed
    simp only [sleepWhile, if_neg waits]
    split
    · trivial
    · have asleep := here.pool.enqueue here.life (here.keeps _ member).1
      exact (wait_pool (fun _ => rfl) here.keeps asleep).mono fun _ _ _ given => given.1

theorem bufcacheRead_pool (present : Present dev sector) :
    (bufcacheRead dev sector).Meets poolRules p (InPool p none [] K)
      fun b h s => InPool p none [] ((b, false) :: K) h s ∧ ∀ k ∈ K, k.1 ≠ b := by
  refine .seq (note_pool trivial) <| .bind (bufcacheGet_pool present) fun b => ?_
  refine .get fun t => .seq (Q := fun _ h s => InPool p none [] ((b, false) :: K) h s ∧ ∀ k ∈ K, k.1 ≠ b) ?_
    <| .pure fun _ _ given => given
  refine .both ?_ <| .pure fun _ _ given => given
  intro h s given
  exact (ideRw_pool (.head _) h s given.1).mono fun _ _ _ after => ⟨after, given.2⟩

theorem bufcacheWrite_pool (member : (b, e) ∈ K) (only : ∀ b', b' ≠ b → some b' ≠ X) :
    (bufcacheWrite b).Meets poolRules p (InPool p X [] K) fun _ => InPool p none [] K := by
  refine .get fun _ => .both stop_pool <| .seq (.modify ?_) <| ideRw_pool member
  intro h s here
  have held := (here.keeps _ member).1
  refine ⟨?_, here.keeps, here.life⟩
  exact here.pool.setBuf (here.pool.not_queued here.life held) ⟨rfl, rfl⟩ rfl (here.pool.present_of_holder held)
    (fun b' ne _ => only b' ne) fun _ _ _ clean => by cases clean

theorem bufcacheRelease_pool (K' : List (Fin nbuf × Bool)) (member : (b, false) ∈ K)
    (rest : ∀ k ∈ K', k ∈ K ∧ k.1 ≠ b) :
    (bufcacheRelease b).Meets poolRules p (InPool p none [] K) fun _ => InPool p none [] K' := by
  refine .get fun _ => .both stop_pool <| .seq acquire_pool ?_
  refine .seq (Q := fun _ h s => ∃ s₀, InPool p none [.bcache] K h s₀ ∧
    s = { s₀ with mru := b :: s₀.mru.erase b }) (.modify fun h s here => ⟨s, here, rfl⟩) ?_
  refine .seq (Q := fun _ h s => (InPool p none [.bcache] K' ((p, .drop (.buf b)) :: h) s) ∧ b ∉ s.idequeue)
    (.modify ?_) ?_
  · rintro h _ ⟨s, here, rfl⟩
    obtain ⟨held, saved⟩ := here.keeps _ member
    refine ⟨⟨here.pool.drops held saved here.life, ?_, here.life⟩, here.pool.not_queued here.life held⟩
    intro k kept
    obtain ⟨before, ne⟩ := rest k kept
    exact ⟨(holder_drop_of_ne ne).trans (here.keeps k before).1, (here.keeps k before).2⟩
  · refine .seq (Q := fun _ h s => InPool p none [.bcache] K' h s ∧ b ∉ s.idequeue)
      (.note fun _ _ dropped => dropped) <| .seq (threadWakeup_pool (C := fun s => b ∉ s.idequeue) ?_ ?_)
      release_pool
    · exact fun _ _ _ away => away
    · rintro s away b' member same
      rw [Chan.buf.injEq] at same
      exact away (same ▸ member)

theorem withBuf_pool {f : Fin nbuf → KernM α} {Q : α → Notes → State → Prop} (present : Present dev sector)
    (next : ∀ b, (∀ k ∈ K, k.1 ≠ b) → (f b).Meets poolRules p (InPool p none [] ((b, false) :: K)) Q) :
    (bufcacheRead dev sector >>= f).Meets poolRules p (InPool p none [] K) Q :=
  .bind (bufcacheRead_pool present) fun b h s given => next b given.2 h s given.1

/-! ## `log.c` -/

theorem InPool.setData {d : Block} (here : InPool p none L K h s) (member : (b, e) ∈ K) :
    InPool p (some b) L K h (s.setBuf b { s.buf b with data := d }) := by
  have held := (here.keeps _ member).1
  refine ⟨?_, here.keeps, here.life⟩
  exact here.pool.setBuf (here.pool.not_queued here.life held) ⟨rfl, rfl⟩ rfl (here.pool.present_of_holder held)
    (fun _ _ _ => by simp) fun notX => absurd rfl notX

theorem memmove_pool {dst src : Fin nbuf} (member : (dst, e) ∈ K) :
    (memmove dst src).Meets poolRules p (InPool p none L K) fun _ => InPool p (some dst) L K :=
  Code.Meets.modify fun _ _ here => here.setData member

theorem modifyData_pool (member : (b, e) ∈ K) :
    (modifyData b f).Meets poolRules p (InPool p none L K) fun _ => InPool p (some b) L K :=
  Code.Meets.modify fun _ _ here => here.setData member

theorem modifyLog_pool {f : Log → Log} (present : ∀ log : Log, log.Present → (f log).Present) :
    (modifyLog f).Meets poolRules p (InPool p X L K) fun _ => InPool p X L K :=
  Code.Meets.modify fun _ _ here => ⟨here.pool.setLog (present _ here.pool.log), here.keeps, here.life⟩

theorem Log.Present.slot {log : Log} (present : log.Present) (drive : dev.toNat < 2) {i : Nat} (lt : i < Fs.logsize) :
    FileSys.Present dev (log.start + BitVec.ofNat 32 i + 1) := by
  refine ⟨drive, ?_⟩
  have low := present.low
  simp only [Fs.logsize] at lt
  rw [BitVec.toNat_add, BitVec.toNat_add, BitVec.toNat_ofNat, show (1 : Word).toNat = 1 from rfl]
  omega

theorem installBlock_pool {tail : Nat} (lt : tail < Fs.logsize) :
    (installBlock tail).Meets poolRules p (InPool p none [] K) fun _ => InPool p none [] K := by
  refine .learn (C := fun s => s.log.Present) (fun _ _ here => here.pool.log) fun t log => ?_
  refine withBuf_pool (log.slot log.drive lt) fun lbuf outer => ?_
  refine .learn (C := fun s => s.log.Present) (fun _ _ here => here.pool.log) fun t log => ?_
  refine withBuf_pool ⟨log.drive, log.sectors tail⟩ fun dbuf inner => ?_
  refine .seq (memmove_pool (.head _)) ?_
  refine .seq (bufcacheWrite_pool (.head _) fun b' ne => by simpa using ne) ?_
  refine .seq (bufcacheRelease_pool ((dbuf, false) :: K) (by simp) ?_) ?_
  · intro k member
    cases List.mem_cons.mp member with
    | inl same =>
      rw [same]
      exact ⟨.head _, (inner _ (.head _)).symm⟩
    | inr kept => exact ⟨by simp [kept], outer k kept⟩
  · refine bufcacheRelease_pool _ (.head _) fun k kept => ?_
    exact ⟨.tail _ kept, inner k (.tail _ kept)⟩

theorem installLoop_pool (fuel tail : Nat) :
    (installLoop fuel tail).Meets poolRules p (InPool p none [] K) fun _ => InPool p none [] K := by
  induction fuel generalizing tail with
  | zero => exact stop_pool
  | succ fuel ih =>
    refine .learn (C := fun s => s.log.Present) (fun _ _ here => here.pool.log) fun t log => ?_
    refine .ite (fun lt => ?_) fun _ => .pure fun _ _ here => here
    have count := log.count
    exact .seq (installBlock_pool (by omega)) <| ih (tail + 1)

theorem fill_pool (outer : ∀ k ∈ K, k.1 ≠ b) :
    (do modifyData b f; bufcacheWrite b; bufcacheRelease b : KernM PUnit).Meets poolRules p
      (InPool p none [] ((b, false) :: K)) fun _ => InPool p none [] K := by
  refine .seq (modifyData_pool (.head _)) ?_
  refine .seq (bufcacheWrite_pool (.head _) fun b' ne => by simpa using ne) ?_
  exact bufcacheRelease_pool _ (.head _) fun k kept => ⟨.tail _ kept, outer k kept⟩

theorem writeHead_pool : writeHead.Meets poolRules p (InPool p none [] K) fun _ => InPool p none [] K := by
  refine .learn (C := fun s => s.log.Present) (fun _ _ here => here.pool.log) fun t log => ?_
  have low := log.low
  refine withBuf_pool ⟨log.drive, by omega⟩ fun buf outer => ?_
  exact .get fun _ => .both stop_pool <| fill_pool outer

theorem emptyHead_pool : emptyHead.Meets poolRules p (InPool p none [] K) fun _ => InPool p none [] K :=
  modifyLog_pool fun _ present => { present with count := by simp }

theorem beginTrans_pool : beginTrans.Meets poolRules p (InPool p none [] K) fun _ => InPool p none [] K := by
  refine .seq acquire_pool <| .seq (sleepWhile_pool fun _ => rfl) ?_
  refine .seq (Q := fun _ => InPool p none [.log] K) ?_ <| .seq (note_pool trivial) release_pool
  refine Code.Meets.strengthen (P := InPool p none [.log] K) (modifyLog_pool ?_) fun _ _ given => given.1
  exact fun _ present => ⟨present.drive, present.low, present.count, present.sectors⟩

theorem commitTrans_pool : commitTrans.Meets poolRules p (InPool p none [] K) fun _ => InPool p none [] K := by
  refine .get fun _ => .seq (Q := fun _ => InPool p none [] K) ?_ ?_
  · refine .both ?_ <| .pure fun _ _ here => here
    exact .seq writeHead_pool <| .seq (installLoop_pool _ _) <| .seq emptyHead_pool writeHead_pool
  · refine .seq acquire_pool <| .seq (modifyLog_pool fun _ present => ?_) ?_
    · exact ⟨present.drive, present.low, present.count, present.sectors⟩
    · refine .seq (note_pool trivial) <| .seq (Q := fun _ => InPool p none [.log] K) ?_ release_pool
      exact (threadWakeup_pool (C := fun _ => True) (fun _ _ _ _ => trivial) fun _ _ _ _ => by simp).strengthen
        fun _ _ here => ⟨here, trivial⟩

theorem logSlot_le (lh : Fs.LogHeader) (sector : Word) : Fs.logSlot lh sector ≤ lh.n.toNat := by
  unfold Fs.logSlot
  refine List.findIdx_le_length.trans ?_
  rw [List.length_range]

theorem logWrite_pool (member : (b, e) ∈ K) : (logWrite b).Meets poolRules p (InPool p none [] K)
      fun _ h s => InPool p none [] K h s ∧ (s.buf b).dirty = true := by
  refine .learn (C := fun s => s.log.Present ∧ Present (s.buf b).dev (s.buf b).sector) ?_ fun t facts => ?_
  · exact fun _ _ here => ⟨here.pool.log, here.pool.present_of_holder (here.keeps _ member).1⟩
  obtain ⟨log, present⟩ := facts
  refine .seq (note_pool trivial) <| .ite (fun _ => stop_pool) fun room => .both stop_pool ?_
  have slot : Fs.logSlot t.log.lh (t.buf b).sector < Fs.logsize := by
    have le := logSlot_le t.log.lh (t.buf b).sector
    have count : t.log.lh.n < Fs.logsize := not_le.mp fun full => room (.inl full)
    simp only [Fs.logsize] at count ⊢
    omega
  refine .seq (modifyLog_pool ?_) <| withBuf_pool (log.slot present.drive slot) fun lbuf outer => ?_
  · intro log present'
    refine { present' with sectors := ?_ }
    intro k
    by_cases same : k = Fs.logSlot t.log.lh (t.buf b).sector
    · simpa [same] using present.low
    · simpa [same] using present'.sectors k
  refine .seq (memmove_pool (.head _)) ?_
  refine .seq (bufcacheWrite_pool (.head _) fun b' ne => by simpa using ne) ?_
  refine .seq (bufcacheRelease_pool K (.head _) ?_) ?_
  · exact fun k kept => ⟨.tail _ kept, outer k kept⟩
  refine .seq (modifyLog_pool ?_) <| .modify ?_
  · intro log present'
    refine { present' with count := ?_ }
    have count := present'.count
    show (if _ then _ else _) ≤ _
    split
    · next last =>
        rw [← last]
        exact Int.add_one_le_of_lt (Int.ofNat_lt.mpr slot)
    · exact count
  · intro h s here
    have held := (here.keeps _ member).1
    refine ⟨⟨?_, here.keeps, here.life⟩, by simp⟩
    exact here.pool.setBuf (here.pool.not_queued here.life held) ⟨rfl, rfl⟩ rfl (here.pool.present_of_holder held)
      (fun _ _ notX => notX) fun _ _ _ clean => by cases clean

/-! ## Every request -/

theorem Pool.edits (pool : Pool (some b) L h s) (held : (ledger h).holder (.buf b) = some p) :
    Pool none L ((p, .edits b) :: h) s :=
  { pool with
    orderly := ⟨held, pool.orderly⟩
    owned := by
      intro b' unsaved
      by_cases same : b' = b
      · rw [same]
        exact ⟨p, held⟩
      · exact pool.owned b' (by simpa [edited, same] using unsaved)
    clean := by
      intro b' _ saved
      have ne : b' ≠ b := by
        rintro rfl
        simp [edited] at saved
      exact pool.clean b' (by simpa using ne) (by simpa [edited, ne] using saved) }

theorem Pool.saves (pool : Pool none L h s) (held : (ledger h).holder (.buf b) = some p)
    (waiting : X = some b ∨ X = none ∧ (s.buf b).dirty = true) : Pool X L ((p, .saves b) :: h) s :=
  { pool with
    orderly := ⟨held, pool.orderly⟩
    owned := by
      intro b' unsaved
      have ne : b' ≠ b := by
        rintro rfl
        simp [edited] at unsaved
      exact pool.owned b' (by simpa [edited, ne] using unsaved)
    clean := by
      intro b' notX saved valid clean
      have ne : b' ≠ b := by
        rintro rfl
        cases waiting with
        | inl same => exact notX same.symm
        | inr pinned => rw [pinned.2] at clean; cases clean
      exact pool.clean b' (by simp) (by simpa [edited, ne] using saved) valid clean }

theorem perform_pool (c : Request) : (perform c).Meets poolRules p
      (fun h s => poolRules.inv h s ∧ poolRules.runs p s ∧ True ∧ Proper h s p c)
      fun _ h s => poolRules.inv h s ∧ True := by
  have enter : ∀ {h s}, poolRules.inv h s → poolRules.runs p s → InPool p none [] [] h s :=
    fun inv runs => ⟨inv, nofun, runs⟩
  have holding : ∀ {h s b}, poolRules.inv h s → poolRules.runs p s → (ledger h).holder (.buf b) = some p →
      InPool p none [] [(b, edited h b)] h s := by
    intro h s b inv runs held
    refine ⟨inv, ?_, runs⟩
    intro k member
    rw [List.mem_singleton.mp member]
    exact ⟨held, rfl⟩
  rintro h s ⟨inv, runs, -, proper⟩
  cases c with
  | read dev sector =>
    exact Turn.Keeps.bind (bufcacheRead_pool proper h s (enter inv runs)) fun _ _ _ after => ⟨after.1.pool, trivial⟩
  | edit b f =>
    have edit := (holding inv runs proper).setData (d := f (s.buf b).data) (List.mem_singleton_self _)
    exact ⟨edit.pool.edits proper, trivial⟩
  | write b =>
    have saved : InPool p (some b) [] [(b, false)] ((p, .saves b) :: h) s := by
      refine ⟨Pool.saves inv proper (.inl rfl), ?_, runs⟩
      intro k member
      rw [List.mem_singleton.mp member]
      exact ⟨proper, by simp [edited]⟩
    exact (bufcacheWrite_pool (List.mem_singleton_self _) (fun b' ne => by simpa using ne) _ s saved).mono
      fun _ _ _ after => ⟨after.pool, trivial⟩
  | release b =>
    have here := holding inv runs proper.1
    rw [proper.2] at here
    exact (bufcacheRelease_pool [] (List.mem_singleton_self _)
      nofun h s here).mono fun _ _ _ after => ⟨after.pool, trivial⟩
  | beginTrans => exact (beginTrans_pool h s (enter inv runs)).mono fun _ _ _ after => ⟨after.pool, trivial⟩
  | logWrite b =>
    refine Turn.Keeps.bind (logWrite_pool (List.mem_singleton_self _) h s (holding inv runs proper)) ?_
    rintro _ h s ⟨after, dirty⟩
    exact ⟨after.pool.saves (after.keeps _ (List.mem_singleton_self _)).1 (.inr ⟨rfl, dirty⟩), trivial⟩
  | commitTrans => exact (commitTrans_pool h s (enter inv runs)).mono fun _ _ _ after => ⟨after.pool, trivial⟩
  | ideIntr =>
    show (ideIntr false p s).Keeps _ _ _ _
    rw [ideIntr_eq (Pool.unlocked inv _) (Pool.unlocked inv _)]
    exact ⟨Pool.ideDone inv, trivial⟩

theorem bufferPool_sound : bufferPool.SoundIf poolRules (fun _ _ => True) Proper where
  runs _ _ running := by simpa [bufferPool, poolRules] using running
  later _ _ _ _ _ := trivial
  code _ c := perform_pool c

def KeepsSector (s t : State) : Prop :=
  ∀ b, (s.buf b).dirty = true → (t.buf b).Holds (s.buf b).dev (s.buf b).sector

def SameSectors (s t : State) : Prop := ∀ b, (t.buf b).Holds (s.buf b).dev (s.buf b).sector

instance instPreorderSameSectors : IsPreorder State SameSectors where
  refl _ _ := ⟨rfl, rfl⟩
  trans _ _ _ first second b := ⟨(second b).1.trans (first b).1, (second b).2.trans (first b).2⟩

theorem sameSectors_setBuf (holds : x.Holds (s.buf b).dev (s.buf b).sector) : SameSectors s (s.setBuf b x) := by
  intro b'
  by_cases same : b' = b
  · rw [same, buf_setBuf_self]
    exact holds
  · rw [buf_setBuf_of_ne same]
    exact ⟨rfl, rfl⟩

theorem ideIntr_sectors {error : Bool} : (ideIntr error).Within SameSectors := by
  have acquired : ∀ l, (acquire l).Within SameSectors :=
    fun l => .get fun _ => .both .stop <| .modify fun _ _ => ⟨rfl, rfl⟩
  have released : ∀ l, (release l).Within SameSectors := fun l => .modify fun _ _ => ⟨rfl, rfl⟩
  refine .seq (acquired .ide) <| .get fun t => ?_
  cases t.idequeue with
  | nil => exact released .ide
  | cons b rest =>
    refine .seq (.modify fun _ _ => ⟨rfl, rfl⟩) <| .seq ?_ <|
      .seq (.modify fun _ => sameSectors_setBuf ⟨rfl, rfl⟩) <| .seq ?_ <| .seq ?_ <| released .ide
    · exact .both (.modify fun _ => sameSectors_setBuf ⟨rfl, rfl⟩) .pure
    · exact .seq (acquired .sched) <| .seq (.modify fun _ _ => ⟨rfl, rfl⟩) <| released .sched
    · cases rest with
      | nil => exact .pure
      | cons next rest => exact .modify fun _ _ => ⟨rfl, rfl⟩

theorem perform_keepsSector (c : Request) : (perform c).Within KeepsSector := by
  have weaker : ∀ s t, CacheStep s t → KeepsSector s t := fun s t step b dirty => (step.pinned b dirty).2
  cases c with
  | read dev sector => exact (Code.Within.seq bufcacheRead_step .pure).mono weaker
  | edit b f => exact (Code.Within.seq modifyData_step .note).mono weaker
  | write b => exact (Code.Within.seq .note bufcacheWrite_step).mono weaker
  | release b => exact bufcacheRelease_step.mono weaker
  | beginTrans => exact beginTrans_step.mono weaker
  | logWrite b => exact (Code.Within.seq logWrite_step .note).mono weaker
  | commitTrans => exact commitTrans_step.mono weaker
  | ideIntr => exact ideIntr_sectors.mono fun _ _ same b _ => same b

/-! ## Runs -/

def hasBuf : Notes → Nat → Fin nbuf → Bool
  | [], _, _ => false
  | (q, .take (.buf b')) :: h, p, b => (q = p && b' = b) || hasBuf h p b
  | (q, .drop (.buf b')) :: h, p, b => !(q = p && b' = b) && hasBuf h p b
  | _ :: h, p, b => hasBuf h p b

theorem hasBuf_iff (orderly : Always Orderly h) : hasBuf h p b = true ↔ (ledger h).holder (.buf b) = some p := by
  induction h with
  | nil => simp [hasBuf, ledger]
  | cons n h ih =>
    obtain ⟨q, w⟩ := n
    specialize ih orderly.2
    cases w with
    | take r =>
      cases r with
      | inode ip => exact ih
      | buf b' =>
        have free : (ledger h).holder (.buf b') = none := orderly.1
        by_cases same : b' = b
        · subst same
          have nobody : hasBuf h p b' = false := by simpa [free] using ih
          rw [holder_take_self]
          simp [hasBuf, nobody]
        · rw [holder_take_of_ne (Ne.symm same), ← ih]
          simp [hasBuf, same]
    | drop r =>
      cases r with
      | inode ip => exact ih
      | buf b' =>
        have held : (ledger h).holder (.buf b') = some q := orderly.1.1
        by_cases same : b' = b
        · subst same
          rw [holder_drop_self]
          rw [held, Option.some.injEq] at ih
          simp [hasBuf, ih]
        · rw [holder_drop_of_ne (Ne.symm same), ← ih]
          simp [hasBuf, same]
    | _ => exact ih

theorem holds_foldl {g : RingLinks (Option (Fin nbuf))} (xs : List (Fin nbuf)) {ys : List (Fin nbuf)}
    (holds : g.Holds none (xs.map some)) (nodup : ys.Nodup) (fresh : ∀ b ∈ ys, b ∉ xs) :
    (ys.foldl (fun g b => g.pushFront none (some b)) g).Holds none ((ys.reverse ++ xs).map some) := by
  induction ys generalizing g xs with
  | nil => exact holds
  | cons y ys ih =>
    have new : some y ∉ none :: xs.map some := by simpa using fresh y (.head _)
    have rest : ∀ b ∈ ys, b ∉ y :: xs := by
      intro b member inside
      cases List.mem_cons.mp inside with
      | inl same => exact (List.nodup_cons.mp nodup).1 (same ▸ member)
      | inr before => exact fresh b (.tail _ member) before
    have pushed := ih (y :: xs) (holds.pushFront new) (List.nodup_cons.mp nodup).2 rest
    simpa using pushed

theorem bufcacheInit_holds : bufcacheInit.Holds none ((List.finRange nbuf).reverse.map some) := by
  have built := holds_foldl [] (RingLinks.holds_empty none) (List.nodup_finRange nbuf) (by simp)
  simpa [bufcacheInit] using built

def poolStart (disk : Fs.Disk) (live : Nat → Bool) (null : Inode) (devsw : Nat → Bool × Bool) (eax : Nat → Word)
    (log : Log) : Kernel :=
  ⟨{ boot disk live null devsw eax with log := log }, [], fun _ => none⟩

section Runs

variable {disk : Fs.Disk} {live : Nat → Bool} {null : Inode} {devsw : Nat → Bool × Bool} {eax : Nat → Word} {log : Log}

theorem poolStart_settled (present : log.Present) :
    Settled poolRules (fun _ _ => True) (poolStart disk live null devsw eax log) where
  inv :=
    { locks := fun _ taken => by simp [poolStart, boot] at taken
      orderly := trivial
      busy := by simp [poolStart, boot, ledger]
      owned := by simp [poolStart, edited]
      ring := bufcacheInit_holds
      all := by simp [poolStart, boot]
      named := fun _ => .inr ⟨rfl, rfl, rfl⟩
      distinct := fun _ _ here => absurd here.drive (by simp [poolStart, boot])
      order := List.nodup_nil
      queued := nofun
      command := fun _ _ split => by cases split
      clean := fun _ _ _ valid => by cases valid
      log := present }
  seated _ := trivial

variable {es : List (Event Nat Request)} {k : Kernel}

theorem reached_pool (present : log.Present)
    (proper : Along bufferPool.step (Config.Asks Proper) (poolStart disk live null devsw eax log) es)
    (reached : run bufferPool.step (poolStart disk live null devsw eax log) es = .ok k) :
    Pool none [] k.history k.state := by
  have ends := bufferPool_sound.ends_run (poolStart_settled present) proper
  rw [reached] at ends
  exact ends.inv

theorem reached_within {k' : Kernel} (within : k.Within KeepsSector) (reached : run bufferPool.step k es = .ok k') :
    k'.Within KeepsSector := by
  induction es generalizing k with
  | nil => exact Except.ok.inj reached ▸ within
  | cons e es ih =>
    obtain ⟨next, first, rest⟩ := run_cons reached
    exact ih (Machine.within_step (fun _ _ _ => ⟨rfl, rfl⟩) perform_keepsSector within first).2 rest

/-- In every state that processes reach, in whatever order they take their turns. -/
theorem run_bufferCache (present : log.Present) {es : List (Event Nat Request)} {k : Kernel}
    (proper : Along bufferPool.step (Config.Asks Proper) (poolStart disk live null devsw eax log) es)
    (reached : run bufferPool.step (poolStart disk live null devsw eax log) es = .ok k) :
    ((links k.history).Holds none (k.state.mru.map some) ∧ ∀ b, b ∈ k.state.mru) ∧
      (∀ b b', (k.state.buf b).dev ≠ -1 → (k.state.buf b').Holds (k.state.buf b).dev (k.state.buf b).sector → b' = b) ∧
      (∀ b, ((k.state.buf b).busy = true ↔ ∃ p, hasBuf k.history p b = true) ∧
        ∀ p q, hasBuf k.history p b = true → hasBuf k.history q b = true → p = q) ∧
      (∀ b, (k.state.buf b).valid = true → (k.state.buf b).busy = false → (k.state.buf b).dirty = false →
        (k.state.buf b).data = k.state.disk ⟨(k.state.buf b).dev, (k.state.buf b).sector⟩) ∧
      ∀ e k', bufferPool.step k e = .ok k' → ∀ b, (k.state.buf b).dirty = true →
        (k'.state.buf b).Holds (k.state.buf b).dev (k.state.buf b).sector := by
  have pool := reached_pool present proper reached
  have has : ∀ p b, hasBuf k.history p b = true ↔ (ledger k.history).holder (.buf b) = some p :=
    fun _ _ => hasBuf_iff pool.orderly
  refine ⟨⟨pool.ring, pool.all⟩, ?_, ?_, ?_, ?_⟩
  · intro b b' used holds
    cases pool.named b with
    | inl present => exact pool.distinct b b' present holds
    | inr fresh => exact absurd fresh.1 used
  · intro b
    simp only [has]
    refine ⟨pool.busy b, ?_⟩
    intro p q first second
    exact Option.some.inj (first.symm.trans second)
  · intro b valid free clean
    have saved := pool.unedited (pool.holder_of_free free)
    rw [pool.clean b (by simp) saved valid clean, Buf.addr, ideAddr_of_present (pool.present_of_valid valid)]
  · intro e k' step b dirty
    have start : (poolStart disk live null devsw eax log).Within KeepsSector := fun _ _ parked => by cases parked
    have within := reached_within start reached
    exact (Machine.within_step (fun _ _ _ => ⟨rfl, rfl⟩) perform_keepsSector within step).1 b dirty

end Runs

instance (dev sector : Word) : Decidable (Present dev sector) :=
  decidable_of_iff (dev.toNat < 2 ∧ sector.toNat < 2 ^ 28) ⟨fun h => ⟨h.1, h.2⟩, fun h => ⟨h.1, h.2⟩⟩

instance (h : Notes) (s : State) (p : Nat) (c : Request) : Decidable (Proper h s p c) := by
  cases c <;> unfold Proper <;> infer_instance

instance (k : Kernel) (e : Event Nat Request) : Decidable (k.Asks Proper e) := by
  cases e <;> unfold Config.Asks <;> infer_instance

def emptyPool : Kernel :=
  poolStart (fun _ _ => 0) (fun _ => true) ⟨⟨0, 0, 0, 0, 0, fun _ => 0⟩, 0, 0, 0, false, false⟩ (fun _ => (false, false))
    (fun _ => 0) ⟨1014, 10, false, 1, ⟨0, fun _ => 0⟩⟩

def sharedSector : List (Event Nat Request) :=
  [.enter 1 (.read 1 5), .enter 2 (.read 1 5), .enter 3 .ideIntr, .resume 1, .enter 1 (.edit 0 fun _ _ => 7),
    .enter 1 (.write 0), .enter 3 .ideIntr, .resume 1, .enter 1 (.release 0), .resume 2]

theorem sharedSector_proper : Along bufferPool.step (Config.Asks Proper) emptyPool sharedSector := by decide +kernel

theorem sharedSector_reaches :
    Reaches (run bufferPool.step emptyPool sharedSector) fun k =>
      hasBuf k.history 2 0 = true ∧ (k.state.buf 0).data 0 = 7 := by decide +kernel

theorem run_bufferCache_shared :
    ∃ k, run bufferPool.step emptyPool sharedSector = .ok k ∧ (k.state.buf 0).data 0 = 7 ∧
      (links k.history).Holds none (k.state.mru.map some) ∧ ∀ p, hasBuf k.history p 0 = true → p = 2 := by
  obtain ⟨k, reached, has, data⟩ := sharedSector_reaches
  have cache := run_bufferCache ⟨by decide, by decide, by decide, fun _ => by simp⟩ sharedSector_proper reached
  exact ⟨k, reached, data, cache.1.1, fun p other => (cache.2.2.1 0).2 p 2 other has⟩

end Certikos.FileSys
