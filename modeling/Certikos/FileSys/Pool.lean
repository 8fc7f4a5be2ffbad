import Certikos.FileSys.Discipline
import Certikos.Lib.Alone
import Certikos.Lib.Ring

/-!
# The buffers that processes share

Any number of processes that use `bufcache.c` and `log.c` directly: each asks for one operation after the other, and
keeps the buffers it has read in between.
-/

namespace Certikos.FileSys
open Lib Function
open Fs (nbuf Block Buf ideAddr)

inductive Request
  | read (dev sector : Word)
  | edit (b : Fin nbuf) (f : Block → Block)
  | write (b : Fin nbuf)
  | release (b : Fin nbuf)
  | beginTrans
  | logWrite (b : Fin nbuf)
  | commitTrans
  | ideIntr

def perform : Request → KernM PUnit
  | .read dev sector => do
      let _ ← bufcacheRead dev sector
      pure ⟨⟩
  | .edit b f => do
      modifyData b f
      Code.note (.edits b)
  | .write b => do
      Code.note (.saves b)
      bufcacheWrite b
  | .release b => bufcacheRelease b
  | .beginTrans => beginTrans
  | .logWrite b => do
      logWrite b
      Code.note (.saves b)
  | .commitTrans => commitTrans
  | .ideIntr => ideIntr false

def bufferPool : Machine Nat State Stop Note Request where
  code := perform
  runs p s := s.thread p = .running

structure Present (dev sector : Word) : Prop where
  drive : dev.toNat < 2
  low : sector.toNat < 2 ^ 28

def edited : Notes → Fin nbuf → Bool
  | [], _ => false
  | (_, .edits b') :: h, b => b = b' || edited h b
  | (_, .saves b') :: h, b => b ≠ b' && edited h b
  | _ :: h, b => edited h b

def Proper (h : Notes) (_ : State) (p : Nat) : Request → Prop
  | .read dev sector => Present dev sector
  | .edit b _ | .write b | .logWrite b => (ledger h).holder (.buf b) = some p
  | .release b => (ledger h).holder (.buf b) = some p ∧ edited h b = false
  | _ => True

def bufcacheInit : RingLinks (Option (Fin nbuf)) :=
  (List.finRange nbuf).foldl (fun g b => g.pushFront none (some b)) (RingLinks.empty none)

/-- The links of the buffers, and at `none` those of `bcache.head`. Only `bufcache_release` changes them. -/
def links : Notes → RingLinks (Option (Fin nbuf))
  | [] => bufcacheInit
  | (_, .drop (.buf b)) :: h => ((links h).remove (some b)).pushFront none (some b)
  | _ :: h => links h

/-! ## The invariant -/

def Orderly (h : Notes) (p : Nat) : Note → Prop
  | .take (.buf b) => (ledger h).holder (.buf b) = none
  | .drop (.buf b) => (ledger h).holder (.buf b) = some p ∧ edited h b = false
  | .edits b | .saves b => (ledger h).holder (.buf b) = some p
  | _ => True

structure Log.Present (log : Log) : Prop where
  drive : log.dev.toNat < 2
  low : log.start.toNat + 12 ≤ 2 ^ 28
  count : log.lh.n ≤ Fs.logsize
  sectors : ∀ k, (log.lh.sector k).toNat < 2 ^ 28

/-- The locks of `L` may be taken, and `X` may have changes that are neither noted nor on their way to the disk. -/
structure Pool (X : Option (Fin nbuf)) (L : List Lock) (h : Notes) (s : State) : Prop where
  locks : ∀ l, s.locks l = true → l ∈ L
  orderly : Always Orderly h
  busy : ∀ b, (s.buf b).busy = true ↔ ∃ q, (ledger h).holder (.buf b) = some q
  owned : ∀ b, edited h b = true → ∃ q, (ledger h).holder (.buf b) = some q
  ring : (links h).Holds none (s.mru.map some)
  all : ∀ b, b ∈ s.mru
  named : ∀ b, Present (s.buf b).dev (s.buf b).sector ∨
    (s.buf b).dev = -1 ∧ (s.buf b).busy = false ∧ (s.buf b).valid = false
  distinct : ∀ b b', Present (s.buf b).dev (s.buf b).sector → (s.buf b').Holds (s.buf b).dev (s.buf b).sector → b' = b
  order : s.idequeue.Nodup
  queued : ∀ b ∈ s.idequeue, ∃ q, (ledger h).holder (.buf b) = some q ∧ s.thread q = .asleep (.buf b)
  command : ∀ b rest, s.idequeue = b :: rest → s.command = (s.buf b).addr ∧
    ((s.buf b).dirty = true → s.disk (s.buf b).addr = (s.buf b).data)
  clean : ∀ b, some b ≠ X → edited h b = false → (s.buf b).valid = true → (s.buf b).dirty = false →
    (s.buf b).data = s.disk (s.buf b).addr
  log : s.log.Present

variable {p q : Nat} {X : Option (Fin nbuf)} {L : List Lock} {h h' : Notes} {s t : State} {b b' : Fin nbuf}
  {dev sector : Word} {x : Buf}

@[simp] theorem buf_setBuf_self : (s.setBuf b x).buf b = x := update_self ..

theorem buf_setBuf_of_ne (ne : b' ≠ b) : (s.setBuf b x).buf b' = s.buf b' := update_of_ne ne ..

theorem ideAddr_of_present (here : Present dev sector) : ideAddr dev sector = ⟨dev, sector⟩ := by
  have drive : dev &&& 1 = dev := by
    refine BitVec.eq_of_toNat_eq ?_
    rw [BitVec.toNat_and, show (1 : Word).toNat = 2 ^ 1 - 1 from rfl, Nat.and_two_pow_sub_one_eq_mod,
      Nat.mod_eq_of_lt here.drive]
  have low : sector &&& 0x0fffffff = sector := by
    refine BitVec.eq_of_toNat_eq ?_
    rw [Fs.toNat_sectorMask, Nat.mod_eq_of_lt here.low]
  rw [ideAddr, drive, low]

section

variable (pool : Pool X L h s)
include pool

theorem Pool.addr_inj (here : Present (s.buf b).dev (s.buf b).sector)
    (there : Present (s.buf b').dev (s.buf b').sector) (same : (s.buf b').addr = (s.buf b).addr) : b' = b := by
  rw [Buf.addr, Buf.addr, ideAddr_of_present here, ideAddr_of_present there, Fs.Addr.mk.injEq] at same
  exact pool.distinct b b' here same

theorem Pool.present_of_busy (busy : (s.buf b).busy = true) : Present (s.buf b).dev (s.buf b).sector := by
  cases pool.named b with
  | inl present => exact present
  | inr fresh => rw [fresh.2.1] at busy; cases busy

theorem Pool.present_of_valid (valid : (s.buf b).valid = true) : Present (s.buf b).dev (s.buf b).sector := by
  cases pool.named b with
  | inl present => exact present
  | inr fresh => rw [fresh.2.2] at valid; cases valid

theorem Pool.present_of_holder (held : (ledger h).holder (.buf b) = some q) : Present (s.buf b).dev (s.buf b).sector :=
  pool.present_of_busy ((pool.busy b).mpr ⟨q, held⟩)

theorem Pool.not_queued (life : s.thread p = .running)
    (held : (ledger h).holder (.buf b) = some p) : b ∉ s.idequeue := by
  intro member
  obtain ⟨q, holds, asleep⟩ := pool.queued b member
  rw [held, Option.some.injEq] at holds
  rw [← holds, life] at asleep
  cases asleep

theorem Pool.not_queued_of_free (free : (s.buf b).busy = false) : b ∉ s.idequeue := by
  intro member
  obtain ⟨q, holds, _⟩ := pool.queued b member
  rw [(pool.busy b).mpr ⟨q, holds⟩] at free
  cases free

end

/-! ## What the others do -/

def Keeps (p : Nat) (K : List (Fin nbuf × Bool)) (h : Notes) : Prop :=
  ∀ k ∈ K, (ledger h).holder (.buf k.1) = some p ∧ edited h k.1 = k.2

theorem orderly_other {w : Note} (orderly : Orderly h q w) (other : q ≠ p)
    (held : (ledger h).holder (.buf b) = some p) :
    (ledger ((q, w) :: h)).holder (.buf b) = some p ∧ edited ((q, w) :: h) b = edited h b := by
  cases w with
  | take r =>
    refine ⟨?_, rfl⟩
    refine (update_of_ne ?_ ..).trans held
    rintro rfl
    simp [Orderly, held] at orderly
  | drop r =>
    refine ⟨?_, rfl⟩
    refine (update_of_ne ?_ ..).trans held
    rintro rfl
    simp [Orderly, held, other.symm] at orderly
  | edits b' =>
    have ne : b ≠ b' := by
      rintro rfl
      simp [Orderly, held, other.symm] at orderly
    exact ⟨held, by simp [edited, ne]⟩
  | saves b' =>
    have ne : b ≠ b' := by
      rintro rfl
      simp [Orderly, held, other.symm] at orderly
    exact ⟨held, by simp [edited, ne]⟩
  | _ => exact ⟨held, rfl⟩

theorem Keeps.later {K : List (Fin nbuf × Bool)} (keeps : Keeps p K h) (later : Later p h h')
    (orderly : Always Orderly h') : Keeps p K h' := by
  refine later.induct (fun h' => Always Orderly h' → Keeps p K h') (fun _ => keeps) ?_ orderly
  intro q w h other ih orderly k member
  obtain ⟨held, unsaved⟩ := ih orderly.2 k member
  obtain ⟨stays, same⟩ := orderly_other orderly.1 other held
  exact ⟨stays, same.trans unsaved⟩

/-! ## What one step does to the cache -/

variable {l : Lock}

theorem Pool.setLock {L' : List Lock} {v : Bool} (pool : Pool X L h s)
    (locks : ∀ k, (s.setLock l v).locks k = true → k ∈ L') : Pool X L' h (s.setLock l v) :=
  { pool with locks := locks }

theorem Pool.acquired (pool : Pool X L h s) : Pool X (l :: L) h (s.setLock l true) := by
  refine pool.setLock fun k taken => ?_
  by_cases same : k = l
  · exact same ▸ .head _
  · rw [locks_setLock_of_ne same] at taken
    exact .tail _ (pool.locks k taken)

theorem Pool.released (pool : Pool X (l :: L) h s) : Pool X L h (s.setLock l false) := by
  refine pool.setLock fun k taken => ?_
  by_cases same : k = l
  · simp [same] at taken
  · rw [locks_setLock_of_ne same] at taken
    exact (List.mem_cons.mp (pool.locks k taken)).resolve_left same

theorem Pool.asleep {lk : Lock} {chan : Chan} (pool : Pool X [lk] h s) (life : s.thread p = .running) :
    Pool X [] h (s.fallAsleep p chan lk) where
  __ := pool.released
  queued b member := by
    obtain ⟨q, held, asleep⟩ := pool.queued b member
    refine ⟨q, held, ?_⟩
    have ne : q ≠ p := by
      rintro rfl
      rw [life] at asleep
      cases asleep
    exact (update_of_ne ne ..).trans asleep

theorem Pool.wake {chan : Chan} (pool : Pool X L h s) (free : ∀ b ∈ s.idequeue, chan ≠ .buf b) :
    Pool X L h (s.wake chan) where
  __ := pool
  queued b member := by
    obtain ⟨q, held, asleep⟩ := pool.queued b member
    refine ⟨q, held, ?_⟩
    have other : s.thread q ≠ .asleep chan := by
      rw [asleep]
      exact fun same => free b member (Life.asleep.inj same).symm
    show (if _ then _ else _) = _
    rw [if_neg fun waits => other waits.2.2]
    exact asleep

theorem Pool.setLog {log : Log} (pool : Pool X L h s) (present : log.Present) : Pool X L h { s with log := log } :=
  { pool with log := present }

theorem Pool.setBuf {X' : Option (Fin nbuf)} (pool : Pool X L h s) (away : b ∉ s.idequeue)
    (holds : x.Holds (s.buf b).dev (s.buf b).sector) (busy : x.busy = (s.buf b).busy)
    (here : Present (s.buf b).dev (s.buf b).sector) (others : ∀ b', b' ≠ b → some b' ≠ X' → some b' ≠ X)
    (clean : some b ≠ X' → edited h b = false → x.valid = true → x.dirty = false → x.data = s.disk x.addr) :
    Pool X' L h (s.setBuf b x) where
  __ := pool
  busy b' := by
    by_cases same : b' = b
    · rw [same, buf_setBuf_self, busy]
      exact pool.busy b
    · rw [buf_setBuf_of_ne same]
      exact pool.busy b'
  named b' := by
    by_cases same : b' = b
    · rw [same, buf_setBuf_self, holds.1, holds.2]
      exact .inl here
    · rw [buf_setBuf_of_ne same]
      exact pool.named b'
  distinct b₁ b₂ := by
    have dev : ∀ b', ((s.setBuf b x).buf b').dev = (s.buf b').dev := by
      intro b'
      by_cases same : b' = b
      · rw [same, buf_setBuf_self, holds.1]
      · rw [buf_setBuf_of_ne same]
    have sector : ∀ b', ((s.setBuf b x).buf b').sector = (s.buf b').sector := by
      intro b'
      by_cases same : b' = b
      · rw [same, buf_setBuf_self, holds.2]
      · rw [buf_setBuf_of_ne same]
    simp only [Buf.Holds, dev, sector]
    exact pool.distinct b₁ b₂
  command b' rest queue := by
    have ne : b' ≠ b := by
      rintro rfl
      exact away (queue ▸ .head _)
    rw [buf_setBuf_of_ne ne]
    exact pool.command b' rest queue
  clean b' notX := by
    by_cases same : b' = b
    · subst same
      rw [buf_setBuf_self]
      exact clean notX
    · rw [buf_setBuf_of_ne same]
      exact pool.clean b' (others b' same notX)

theorem holder_take_self : (ledger ((p, .take (.buf b)) :: h)).holder (.buf b) = some p := update_self ..

theorem holder_take_of_ne (ne : b' ≠ b) :
    (ledger ((p, .take (.buf b)) :: h)).holder (.buf b') = (ledger h).holder (.buf b') :=
  update_of_ne (by simpa using ne) ..

theorem holder_drop_self : (ledger ((p, .drop (.buf b)) :: h)).holder (.buf b) = none := update_self ..

theorem holder_drop_of_ne (ne : b' ≠ b) :
    (ledger ((p, .drop (.buf b)) :: h)).holder (.buf b') = (ledger h).holder (.buf b') :=
  update_of_ne (by simpa using ne) ..

theorem Pool.holder_of_free (pool : Pool X L h s) (free : (s.buf b).busy = false) :
    (ledger h).holder (.buf b) = none := by
  cases held : (ledger h).holder (.buf b) with
  | none => rfl
  | some q =>
    rw [(pool.busy b).mpr ⟨q, held⟩] at free
    cases free

theorem Pool.takes (pool : Pool none L h s) (free : (s.buf b).busy = false) (busy : x.busy = true)
    (present : Present x.dev x.sector) (single : ∀ b', b' ≠ b → ¬ (s.buf b').Holds x.dev x.sector)
    (clean : edited h b = false → x.valid = true → x.dirty = false → x.data = s.disk x.addr) :
    Pool none L ((p, .take (.buf b)) :: h) (s.setBuf b x) where
  locks := pool.locks
  orderly := ⟨pool.holder_of_free free, pool.orderly⟩
  busy b' := by
    by_cases same : b' = b
    · rw [same, buf_setBuf_self]
      exact ⟨fun _ => ⟨p, holder_take_self⟩, fun _ => busy⟩
    · rw [buf_setBuf_of_ne same, holder_take_of_ne same]
      exact pool.busy b'
  owned b' unsaved := by
    by_cases same : b' = b
    · exact same ▸ ⟨p, holder_take_self⟩
    · rw [holder_take_of_ne same]
      exact pool.owned b' unsaved
  ring := pool.ring
  all := pool.all
  named b' := by
    by_cases same : b' = b
    · rw [same, buf_setBuf_self]
      exact .inl present
    · rw [buf_setBuf_of_ne same]
      exact pool.named b'
  distinct b₁ b₂ here := by
    by_cases first : b₁ = b <;> by_cases second : b₂ = b
    · exact fun _ => second.trans first.symm
    · rw [first, buf_setBuf_self, buf_setBuf_of_ne second]
      exact fun holds => absurd holds (single b₂ second)
    · rw [second, buf_setBuf_self, buf_setBuf_of_ne first]
      exact fun holds => absurd ⟨holds.1.symm, holds.2.symm⟩ (single b₁ first)
    · rw [buf_setBuf_of_ne first] at here ⊢
      rw [buf_setBuf_of_ne second]
      exact pool.distinct b₁ b₂ here
  order := pool.order
  queued b' member := by
    have ne : b' ≠ b := by
      rintro rfl
      exact pool.not_queued_of_free free member
    rw [holder_take_of_ne ne]
    exact pool.queued b' member
  command b' rest queue := by
    have ne : b' ≠ b := by
      rintro rfl
      exact pool.not_queued_of_free free (queue ▸ .head _)
    rw [buf_setBuf_of_ne ne]
    exact pool.command b' rest queue
  clean b' notX saved := by
    by_cases same : b' = b
    · subst same
      rw [buf_setBuf_self]
      exact clean saved
    · rw [buf_setBuf_of_ne same]
      exact pool.clean b' notX saved
  log := pool.log

theorem Pool.drops (pool : Pool none L h s) (held : (ledger h).holder (.buf b) = some p)
    (saved : edited h b = false) (life : s.thread p = .running) :
    Pool none L ((p, .drop (.buf b)) :: h)
      (State.setBuf { s with mru := b :: s.mru.erase b } b { s.buf b with busy := false }) where
  locks := pool.locks
  orderly := ⟨⟨held, saved⟩, pool.orderly⟩
  busy b' := by
    by_cases same : b' = b
    · rw [same, buf_setBuf_self, holder_drop_self]
      simp
    · rw [buf_setBuf_of_ne same, holder_drop_of_ne same]
      exact pool.busy b'
  owned b' unsaved := by
    have ne : b' ≠ b := by
      rintro rfl
      exact absurd (saved.symm.trans unsaved) (by simp)
    rw [holder_drop_of_ne ne]
    exact pool.owned b' unsaved
  ring := by
    have nodup : s.mru.Nodup := (List.nodup_cons.mp pool.ring.nodup).2.of_map
    obtain ⟨l, r, split⟩ := List.append_of_mem (pool.all b)
    have ring := pool.ring
    rw [split, List.map_append, List.map_cons] at ring
    rw [split] at nodup
    have out : b ∉ l := by
      intro member
      exact (List.nodup_append.mp nodup).2.2 b member b (.head _) rfl
    have gone : b ∉ r := (List.nodup_cons.mp (List.nodup_append.mp nodup).2.1).1
    show ((links h).remove (some b)).pushFront none (some b) |>.Holds none ((b :: s.mru.erase b).map some)
    rw [split, List.erase_append_right _ out, List.erase_cons_head, List.map_cons, List.map_append]
    refine ring.remove.pushFront ?_
    simp [out, gone]
  all b' := by
    by_cases same : b' = b
    · exact same ▸ .head _
    · exact .tail _ ((List.mem_erase_of_ne same).mpr (pool.all b'))
  named b' := by
    by_cases same : b' = b
    · rw [same, buf_setBuf_self]
      exact .inl (pool.present_of_holder held)
    · rw [buf_setBuf_of_ne same]
      exact pool.named b'
  distinct b₁ b₂ := by
    have same : ∀ b', ((State.setBuf { s with mru := b :: s.mru.erase b } b { s.buf b with busy := false }).buf b').dev
        = (s.buf b').dev ∧
        ((State.setBuf { s with mru := b :: s.mru.erase b } b { s.buf b with busy := false }).buf b').sector
        = (s.buf b').sector := by
      intro b'
      by_cases same : b' = b
      · rw [same, buf_setBuf_self]
        exact ⟨rfl, rfl⟩
      · rw [buf_setBuf_of_ne same]
        exact ⟨rfl, rfl⟩
    simp only [Buf.Holds, same]
    exact pool.distinct b₁ b₂
  order := pool.order
  queued b' member := by
    have ne : b' ≠ b := by
      rintro rfl
      exact pool.not_queued life held member
    rw [holder_drop_of_ne ne]
    exact pool.queued b' member
  command b' rest queue := by
    have ne : b' ≠ b := by
      rintro rfl
      exact pool.not_queued life held (queue ▸ .head _)
    rw [buf_setBuf_of_ne ne]
    exact pool.command b' rest queue
  clean b' notX := by
    by_cases same : b' = b
    · subst same
      rw [buf_setBuf_self]
      exact pool.clean b' notX
    · rw [buf_setBuf_of_ne same]
      exact pool.clean b' notX
  log := pool.log

/-! ## The drive -/

def State.written (s : State) (b : Fin nbuf) : Fs.Disk :=
  if (s.buf b).dirty = true then update s.disk (s.buf b).addr (s.buf b).data else s.disk

theorem Pool.written_of_clean (pool : Pool X L h s) (here : Present (s.buf b).dev (s.buf b).sector)
    (there : Present (s.buf b').dev (s.buf b').sector) (clean : (s.buf b').dirty = false) :
    s.written b (s.buf b').addr = s.disk (s.buf b').addr := by
  unfold State.written
  by_cases dirty : (s.buf b).dirty = true
  · rw [if_pos dirty]
    refine update_of_ne ?_ ..
    intro same
    rw [pool.addr_inj here there same, dirty] at clean
    cases clean
  · rw [if_neg dirty]

theorem written_self (dirty : (s.buf b).dirty = true) : s.written b (s.buf b).addr = (s.buf b).data := by
  rw [State.written, if_pos dirty, update_self]

theorem Pool.restart (pool : Pool none L h s) {queue : List (Fin nbuf)} (order : queue.Nodup)
    (queued : ∀ b ∈ queue, ∃ q, (ledger h).holder (.buf b) = some q ∧ s.thread q = .asleep (.buf b))
    (first : queue.head? = some b) : Pool none L h (({ s with idequeue := queue } : State).ideStart b) where
  __ := pool
  order := order
  queued := queued
  command b' rest split := by
    have split : queue = b' :: rest := split
    rw [split, List.head?_cons, Option.some.injEq] at first
    subst first
    exact ⟨rfl, fun dirty => written_self dirty⟩
  clean b' notX saved valid clean := by
    obtain ⟨q, held, _⟩ := queued b (List.mem_of_mem_head? first)
    have same := pool.written_of_clean (pool.present_of_holder held) (pool.present_of_valid valid) clean
    exact (pool.clean b' notX saved valid clean).trans same.symm

def State.enqueue (s : State) (b : Fin nbuf) : State :=
  if s.idequeue = [] then ({ s with idequeue := s.idequeue ++ [b] } : State).ideStart b
  else { s with idequeue := s.idequeue ++ [b] }

theorem Pool.enqueue (pool : Pool none [.ide] h s) (life : s.thread p = .running)
    (held : (ledger h).holder (.buf b) = some p) : Pool none [] h ((s.enqueue b).fallAsleep p (.buf b) .ide) := by
  have away := pool.not_queued life held
  have waiting : Pool none [] h (s.fallAsleep p (.buf b) .ide) := pool.asleep life
  have order : (s.idequeue ++ [b]).Nodup := by
    refine List.nodup_append.mpr ⟨pool.order, List.nodup_singleton b, ?_⟩
    intro c member d last same
    exact away (List.mem_singleton.mp last ▸ same ▸ member)
  have queued : ∀ b' ∈ s.idequeue ++ [b], ∃ q, (ledger h).holder (.buf b') = some q ∧
      (s.fallAsleep p (.buf b) .ide).thread q = .asleep (.buf b') := by
    intro b' member
    cases List.mem_append.mp member with
    | inl before => exact waiting.queued b' before
    | inr last =>
      rw [List.mem_singleton.mp last]
      exact ⟨p, held, update_self ..⟩
  by_cases queue : s.idequeue = []
  · have first : (s.idequeue ++ [b]).head? = some b := by simp [queue]
    rw [State.enqueue, if_pos queue]
    exact waiting.restart order queued first
  · rw [State.enqueue, if_neg queue]
    exact
      { waiting with
        order := order
        queued := queued
        command := by
          intro b' rest split
          obtain ⟨c, before, first⟩ := List.exists_cons_of_ne_nil queue
          have split : s.idequeue ++ [b] = b' :: rest := split
          rw [first, List.cons_append, List.cons.injEq] at split
          exact pool.command b' before (split.1 ▸ first) }

def State.ideDone (s : State) (error : Bool) : State :=
  match s.idequeue with
  | [] => s
  | b :: rest =>
    let data := if (s.buf b).dirty = false ∧ error = false then s.disk s.command else (s.buf b).data
    let t := State.wake
      (State.setBuf { s with idequeue := rest } b { s.buf b with data := data, valid := true, dirty := false }) (.buf b)
    match rest with
    | [] => t
    | next :: _ => t.ideStart next

theorem update_free (free : s.locks l = false) : update s.locks l false = s.locks := by
  rw [← free]
  exact update_eq_self l s.locks

theorem setLock_setLock (free : s.locks l = false) : (s.setLock l true).setLock l false = s := by
  have restored : update (update s.locks l true) l false = s.locks := by
    rw [update_idem, update_free free]
  simp [State.setLock, restored]

theorem acquire_eq (free : s.locks l = false) : acquire l p s = .done ⟨⟩ (s.setLock l true) := by
  rw [acquire, Code.bind_apply, Code.get_apply, Turn.bind, if_neg (by simp [free])]
  rfl

theorem threadWakeup_eq {chan : Chan} (free : s.locks .sched = false) :
    threadWakeup chan p s = .done ⟨⟩ (s.wake chan) := by
  rw [threadWakeup, Code.bind_apply, acquire_eq free, Turn.bind, Code.bind_apply, Code.modify_apply, Turn.bind]
  exact congrArg (Turn.done PUnit.unit) (setLock_setLock (s := s.wake chan) free)

theorem modifyBuf_setBuf (f : Buf → Buf) (x : Buf) : modifyBuf b f p (s.setBuf b x) = .done ⟨⟩ (s.setBuf b (f x)) := by
  rw [modifyBuf, Code.modify_apply, State.setBuf, State.setBuf]
  dsimp only
  rw [update_idem, update_self]
  rfl

theorem fetch_eq (error : Bool) (old : Buf) :
    (if old.dirty = false ∧ error = false then
        Code.modify fun s => s.setBuf b { s.buf b with data := s.disk s.command }
      else pure ⟨⟩ : KernM PUnit) p s =
    .done ⟨⟩ (s.setBuf b
      { s.buf b with data := if old.dirty = false ∧ error = false then s.disk s.command else (s.buf b).data }) := by
  split
  · rfl
  · rw [State.setBuf, update_eq_self]
    rfl

theorem ideIntr_eq {error : Bool} (ide : s.locks .ide = false) (sched : s.locks .sched = false) :
    ideIntr error p s = .done ⟨⟩ (s.ideDone error) := by
  rw [ideIntr, Code.bind_apply, acquire_eq ide, Turn.bind, Code.bind_apply, Code.get_apply, Turn.bind, State.ideDone]
  cases queue : s.idequeue with
  | nil =>
    rw [show (s.setLock .ide true).idequeue = [] from queue]
    exact congrArg (Turn.done PUnit.unit) (setLock_setLock ide)
  | cons b rest =>
    rw [show (s.setLock .ide true).idequeue = b :: rest from queue]
    dsimp only
    rw [Code.bind_apply, Code.modify_apply, Turn.bind, Code.bind_apply, fetch_eq, Turn.bind, Code.bind_apply,
      modifyBuf_setBuf, Turn.bind, Code.bind_apply, threadWakeup_eq, Turn.bind]
    · let data := if (s.buf b).dirty = false ∧ error = false then s.disk s.command else (s.buf b).data
      let t := State.wake
        (State.setBuf { s with idequeue := rest } b { s.buf b with data := data, valid := true, dirty := false }) (.buf b)
      have free : t.locks .ide = false := ide
      cases rest with
      | nil => exact congrArg (Turn.done PUnit.unit) (setLock_setLock (s := t) free)
      | cons next others => exact congrArg (Turn.done PUnit.unit) (setLock_setLock (s := t.ideStart next) free)
    · change update s.locks .ide true .sched = false
      exact (update_of_ne (by decide) ..).trans sched

theorem Pool.fetched (pool : Pool X L h s) {rest : List (Fin nbuf)} (queue : s.idequeue = b :: rest) :
    (if (s.buf b).dirty = false ∧ false = false then s.disk s.command else (s.buf b).data)
      = s.disk (s.buf b).addr := by
  obtain ⟨command, written⟩ := pool.command b rest queue
  cases dirty : (s.buf b).dirty with
  | false => rw [if_pos (by simp), command]
  | true => rw [if_neg (by simp), written dirty]

theorem Pool.ideDone (pool : Pool none L h s) : Pool none L h (s.ideDone false) := by
  cases queue : s.idequeue with
  | nil =>
    rw [State.ideDone, queue]
    exact pool
  | cons b rest =>
    obtain ⟨q, held, asleep⟩ := pool.queued b (queue ▸ .head _)
    have order := pool.order
    rw [queue, List.nodup_cons] at order
    -- with an empty queue in between, the buffer may change and its process wake up
    have idle : Pool none L h { s with idequeue := [] } :=
      { pool with
        order := List.nodup_nil
        queued := nofun
        command := fun _ _ none => by cases none }
    let data := if (s.buf b).dirty = false ∧ false = false then s.disk s.command else (s.buf b).data
    let x : Buf := { s.buf b with data := data, valid := true, dirty := false }
    have fetched : Pool none L h (State.wake (State.setBuf { s with idequeue := [] } b x) (.buf b)) :=
      (idle.setBuf (x := x) (List.not_mem_nil) ⟨rfl, rfl⟩ rfl (pool.present_of_holder held) (fun _ _ notX => notX)
        fun _ _ _ _ => pool.fetched queue).wake nofun
    have queued : ∀ b' ∈ rest, ∃ q, (ledger h).holder (.buf b') = some q ∧
        (State.wake (State.setBuf { s with idequeue := [] } b x) (.buf b)).thread q = .asleep (.buf b') := by
      intro b' member
      obtain ⟨q', held', asleep'⟩ := pool.queued b' (queue ▸ List.mem_cons_of_mem b member)
      refine ⟨q', held', ?_⟩
      have other : s.thread q' ≠ .asleep (.buf b) := by
        rw [asleep']
        intro same
        rw [Life.asleep.injEq, Chan.buf.injEq] at same
        exact order.1 (same ▸ member)
      show (if _ then _ else _) = _
      rw [if_neg fun waits => other waits.2.2]
      exact asleep'
    rw [State.ideDone, queue]
    cases rest with
    | nil => exact fetched
    | cons next rest => exact fetched.restart order.2 queued rfl

end Certikos.FileSys
