import Certikos.FileSys.Sequence
import Mathlib.Data.Fintype.Card

/-!
# The buffer cache with one process

While only one process runs, the cache and the disk together are a function from sectors to blocks. A process reads it
through the buffers it holds; releasing and recycling buffers does not change it.
-/

namespace Certikos.FileSys
open Lib Function
open Fs (nbuf Block Buf rootdev ideAddr)

def Note.rare : Note → Bool
  | .logWrite _ | .hole _ _ | .blockAlloc _ | .entry _ _ => true
  | _ => false

structure Terms (watch : Note → Bool) (E : Cut Stop Note → Prop) (p : Nat) : Prop where
  rare : ∀ w, watch w = true → w.rare = true
  awake : 1 ≤ p ∧ p < numIds ∨ E .waits

variable {w : Note} {lk : Lock} {blocked : State → Option Chan}

theorem Terms.unwatched {watch : Note → Bool} {E : Cut Stop Note → Prop} {p : Nat} (terms : Terms watch E p)
    (common : w.rare = false) : watch w = false := by
  cases watched : watch w with
  | false => rfl
  | true =>
    have rare := terms.rare w watched
    rw [common] at rare
    cases rare

theorem Terms.noted {watch : Note → Bool} {E : Cut Stop Note → Prop} {p : Nat} (terms : Terms watch E p)
    (common : w.rare = false) {α : Type} {f : PUnit → KernM α} {P : State → Prop} {Q : α → State → Prop}
    (next : (f ⟨⟩).Does (watched watch) E p P Q) : Code.Does (watched watch) E p P (Code.note w >>= f) Q := by
  refine .noted (fun cut => ?_) fun _ => next
  rw [show (watched watch).watch w = watch w from rfl, terms.unwatched common] at cut
  cases cut

structure Rest where
  log : Log
  inode : Slot → Inode
  file : Fin nfile → File
  openfiles : Nat → Nat → Option (Fin nfile)
  cwd : Nat → Slot
  first : Bool
  devsw : Nat → Bool × Bool
  eax : Nat → Word

def State.rest (s : State) : Rest := ⟨s.log, s.inode, s.file, s.openfiles, s.cwd, s.first, s.devsw, s.eax⟩

/-- One process runs. It holds the buffers of `H`, each with its sector, the sectors of the dirty buffers are in `L`,
and the sectors of the root device have the contents `c`. The buffers of `X` have changes that are not on the disk,
though they are not dirty. -/
structure Lone (p : Nat) (X : List (Fin nbuf)) (H : List (Fin nbuf × Word)) (L : List Word) (c : Word → Block)
    (r : Rest) (s : State) : Prop where
  runs : s.thread p = .running
  locks : ∀ l, l ≠ .buf → s.locks l = false
  queue : s.idequeue = []
  ring : ∀ b, b ∈ s.mru
  disk1 : s.havedisk1 = true
  named : ∀ b, (s.buf b).dev = rootdev → (s.buf b).valid = true ∧ (s.buf b).sector.toNat < 2 ^ 28
  distinct : ∀ b b', (s.buf b).dev = rootdev → (s.buf b').Holds rootdev (s.buf b).sector → b' = b
  busy : ∀ b, (s.buf b).busy = true ↔ ∃ q, (b, q) ∈ H
  held : ∀ b q, (b, q) ∈ H → (s.buf b).Holds rootdev q
  edits : ∀ b ∈ X, ∃ q, (b, q) ∈ H
  dirty : ∀ b, (s.buf b).dirty = true → (s.buf b).dev = rootdev ∧ (s.buf b).sector ∈ L
  data : ∀ b, (s.buf b).dev = rootdev → (s.buf b).data = c (s.buf b).sector
  disk : ∀ q : Word, q.toNat < 2 ^ 28 → (∀ b, (s.buf b).Holds rootdev q → (s.buf b).dirty = false ∧ b ∉ X) →
    s.disk ⟨rootdev, q⟩ = c q
  rest : s.rest = r

variable {p : Nat} {X X' : List (Fin nbuf)} {H H' : List (Fin nbuf × Word)} {L L' : List Word} {c : Word → Block}
  {r : Rest} {s t : State} {b : Fin nbuf} {q : Word}

/-! ## What the functions do -/

theorem sleepWhile_eq (open' : blocked s = none) :
    sleepWhile lk blocked p s = .done ⟨⟩ s := by
  rw [sleepWhile, open']

section

variable (lock : s.locks .bcache = false)
include lock

variable {dev : Word}

theorem bufcacheGet_cached (found : s.cached dev q = some b) (free : (s.buf b).busy = false) :
    bufcacheGet dev q p s = .note (.take (.buf b)) (.done b (s.setBuf b { s.buf b with busy := true })) := by
  have cached : (s.setLock .bcache true).cached dev q = some b := found
  have idle : ((s.setLock .bcache true).buf b).busy = false := free
  rw [bufcacheGet, Code.bind_apply, acquire_eq lock, Turn.bind, Code.bind_apply, sleepWhile_eq (by simp [cached, idle]),
    Turn.bind, Code.bind_apply, Code.get_apply, Turn.bind, cached]
  exact congrArg (fun t => Turn.note (Note.take (.buf b)) (Turn.done b t))
    (setLock_setLock (s := s.setBuf b { s.buf b with busy := true }) lock)

theorem bufcacheGet_recycled (missing : s.cached dev q = none) (victim : s.recyclable = some b) :
    bufcacheGet dev q p s
      = .note (.take (.buf b)) (.done b (s.setBuf b ⟨dev, q, true, false, false, (s.buf b).data⟩)) := by
  have cached : (s.setLock .bcache true).cached dev q = none := missing
  have recycled : (s.setLock .bcache true).recyclable = some b := victim
  rw [bufcacheGet, Code.bind_apply, acquire_eq lock, Turn.bind, Code.bind_apply, sleepWhile_eq (by simp [cached]),
    Turn.bind, Code.bind_apply, Code.get_apply, Turn.bind, cached]
  simp only [recycled]
  exact congrArg (fun t => Turn.note (Note.take (.buf b)) (Turn.done b t))
    (setLock_setLock (s := s.setBuf b ⟨dev, q, true, false, false, (s.buf b).data⟩) lock)

theorem bufcacheGet_full (missing : s.cached dev q = none) (full : s.recyclable = none) :
    bufcacheGet dev q p s = .stop (.panic "bufcache_get: no buffers") (s.setLock .bcache true) := by
  have cached : (s.setLock .bcache true).cached dev q = none := missing
  have recycled : (s.setLock .bcache true).recyclable = none := full
  rw [bufcacheGet, Code.bind_apply, acquire_eq lock, Turn.bind, Code.bind_apply, sleepWhile_eq (by simp [cached]),
    Turn.bind, Code.bind_apply, Code.get_apply, Turn.bind, cached]
  simp only [recycled]
  rfl

theorem bufcacheRelease_eq (sched : s.locks .sched = false) (busy : (s.buf b).busy = true) :
    bufcacheRelease b p s = .note (.drop (.buf b)) (.done ⟨⟩
    (State.wake (State.setBuf { s with mru := b :: s.mru.erase b } b { s.buf b with busy := false }) (.buf b))) := by
  rw [bufcacheRelease, Code.bind_apply, Code.get_apply, Turn.bind, if_neg (by simp [busy]), Code.bind_apply,
    acquire_eq lock, Turn.bind, Code.bind_apply, Code.modify_apply, Turn.bind, Code.bind_apply]
  rw [modifyBuf, Code.modify_apply, Turn.bind, Code.bind_apply, Code.note_apply, Turn.bind, Turn.bind, Code.bind_apply,
    threadWakeup_eq (by simpa [State.setBuf, State.setLock] using sched), Turn.bind]
  exact congrArg (fun t => Turn.note (Note.drop (.buf b)) (Turn.done PUnit.unit t))
    (setLock_setLock (s := State.wake
      (State.setBuf { s with mru := b :: s.mru.erase b } b { s.buf b with busy := false }) (.buf b)) lock)

end

theorem sleepWhile_alone {watch : Note → Bool} {chan : Chan} {t : State} (waits : blocked s = some chan)
    (sched : s.locks .sched = false) (done : drive (s.fallAsleep p chan lk) = t)
    (free : t.locks .sched = false ∧ t.locks lk = false) (open' : blocked t = none) :
    (sleepWhile lk blocked p s).alone (watched watch) p
      = if t.thread p = .running then .ok (⟨⟩, t.setLock lk true) else .error .waits := by
  simp only [sleepWhile, waits, sched, Bool.false_eq_true, if_false, Turn.alone, watched, done, free.1, free.2, or_self,
    open', Option.map_none, decide_eq_true_eq]

def State.request (s : State) (b : Fin nbuf) : State :=
  ({ s.setLock .ide true with idequeue := s.idequeue ++ [b] } : State).ideStart b

def State.transfer (s : State) (p : Nat) (b : Fin nbuf) : State :=
  let data := if (s.buf b).dirty = true then (s.buf b).data else s.disk (s.buf b).addr
  let t := s.setBuf b { s.buf b with data := data, valid := true, dirty := false }
  { t with
    command := (s.buf b).addr
    disk := s.written b
    thread := (State.wake { s with thread := update s.thread p (.asleep (.buf b)) } (.buf b)).thread }

theorem transfer_thread : (s.transfer p b).thread p = .running ↔ 1 ≤ p ∧ p < numIds := by
  simp only [State.transfer, State.wake, update_self, and_true]
  split
  · next range => simp [range]
  · next range => simp [range]

theorem drive_transfer (ide : s.locks .ide = false) (sched : s.locks .sched = false) (queue : s.idequeue = []) :
    drive ((s.request b).fallAsleep p (.buf b) .ide) = s.transfer p b := by
  have restored : update (update s.locks .ide true) .ide false = s.locks := by
    rw [update_idem, update_free ide]
  rw [drive_eq (by simp [State.fallAsleep, State.setLock])
    (by simp [State.fallAsleep, State.request, State.ideStart, State.setLock, sched])]
  cases dirty : (s.buf b).dirty <;>
    simp [State.ideDone, State.fallAsleep, State.request, State.ideStart, State.setLock, State.setBuf, State.transfer,
      State.written, State.wake, queue, restored, dirty]

theorem ideRw_alone (watch : Note → Bool) (ide : s.locks .ide = false) (sched : s.locks .sched = false)
    (queue : s.idequeue = []) (disk1 : s.havedisk1 = true) (busy : (s.buf b).busy = true)
    (todo : (s.buf b).valid = false ∨ (s.buf b).dirty = true) : (ideRw b p s).alone (watched watch) p
      = if 1 ≤ p ∧ p < numIds then .ok (⟨⟩, s.transfer p b) else .error .waits := by
  have pending : ¬ ((s.buf b).valid = true ∧ (s.buf b).dirty = false) := by
    rintro ⟨valid, clean⟩
    rcases todo with invalid | dirty
    · rw [valid] at invalid
      cases invalid
    · rw [clean] at dirty
      cases dirty
  have empty : (s.setLock .ide true).idequeue = [] := queue
  let blocked (s : State) : Option Chan :=
    if (s.buf b).valid = true ∧ (s.buf b).dirty = false then none else some (.buf b)
  have slept : (sleepWhile .ide blocked p (s.request b)).alone (watched watch) p = _ :=
    sleepWhile_alone (if_neg pending) (by simp [State.request, State.ideStart, State.setLock, sched])
      (drive_transfer ide sched queue) ⟨sched, ide⟩ (by simp [blocked, State.transfer])
  rw [ideRw, Code.bind_apply, Code.get_apply, Turn.bind, if_neg (by simp [busy]), if_neg pending,
    if_neg (by simp [disk1]), Code.bind_apply, acquire_eq ide, Turn.bind, Code.bind_apply, Code.get_apply, Turn.bind,
    Code.bind_apply, Code.modify_apply, Turn.bind, if_pos empty, Code.bind_apply, Code.modify_apply, Turn.bind]
  by_cases range : 1 ≤ p ∧ p < numIds
  · rw [if_pos (transfer_thread.mpr range)] at slept
    rw [if_pos range]
    refine (Turn.alone_bind_ok slept).trans ?_
    exact congrArg (fun t => Except.ok (PUnit.unit, t)) (setLock_setLock (s := s.transfer p b) ide)
  · rw [if_neg (fun runs => range (transfer_thread.mp runs))] at slept
    rw [if_neg range]
    exact Turn.alone_bind_error slept

/-! ## What they do to the contents -/

theorem Lone.addr (lone : Lone p X H L c r s) (here : (s.buf b).dev = rootdev) :
    (s.buf b).addr = ⟨rootdev, (s.buf b).sector⟩ := by
  rw [Buf.addr, here]
  exact ideAddr_of_present ⟨by decide, (lone.named b here).2⟩

theorem Lone.block (lone : Lone p X H L c r s) (held : (b, q) ∈ H) : (s.buf b).data = c q := by
  obtain ⟨dev, sector⟩ := lone.held b q held
  rw [lone.data b dev, sector]

theorem Lone.edit (lone : Lone p X H L c r s) (held : (b, q) ∈ H) {x : Buf} (same : x.Holds rootdev q)
    (busy : x.busy = true) (valid : x.valid = true) (kept : ∀ q' ∈ L, q' ≠ q → q' ∈ L')
    (logged : x.dirty = true → q ∈ L')
    (buf : t.buf = update s.buf b x) (others : ∀ q', q' ≠ q → t.disk ⟨rootdev, q'⟩ = s.disk ⟨rootdev, q'⟩)
    (listed : ∀ b', b' ≠ b → (b' ∈ X ↔ b' ∈ X')) (saved : x.dirty = false → b ∉ X' → t.disk ⟨rootdev, q⟩ = x.data)
    (runs : t.thread p = .running)
    (rest : t.locks = s.locks ∧ t.idequeue = s.idequeue ∧ t.mru = s.mru ∧ t.havedisk1 = s.havedisk1 ∧ t.rest = s.rest) :
    Lone p X' H L' (update c q x.data) r t := by
  have here := lone.held b q held
  have other : ∀ b', b' ≠ b → (s.buf b').dev = rootdev → (s.buf b').sector ≠ q := by
    intro b' ne dev sector
    exact ne (lone.distinct b b' here.1 ⟨dev, sector.trans here.2.symm⟩)
  have self : t.buf b = x := by rw [buf, update_self]
  have off : ∀ b', b' ≠ b → t.buf b' = s.buf b' := fun b' ne => by rw [buf, update_of_ne ne]
  obtain ⟨locks, queue, mru, disk1, rest⟩ := rest
  refine ⟨runs, ?_, queue.trans lone.queue, ?_, disk1.trans lone.disk1, ?_, ?_, ?_, ?_, ?_, ?_, ?_, ?_,
    rest.trans lone.rest⟩
  · rw [locks]
    exact lone.locks
  · rw [mru]
    exact lone.ring
  · intro b' dev
    by_cases ne : b' = b
    · have low := (lone.named b here.1).2
      rw [ne, self]
      rw [here.2] at low
      exact ⟨valid, same.2 ▸ low⟩
    · rw [off b' ne] at dev ⊢
      exact lone.named b' dev
  · intro b₁ b₂ dev holds
    by_cases first : b₁ = b <;> by_cases second : b₂ = b
    · exact second.trans first.symm
    · rw [first, self, off b₂ second] at holds
      exact absurd (holds.2.trans same.2) (other b₂ second holds.1)
    · rw [second, self, off b₁ first] at holds
      rw [off b₁ first] at dev
      exact absurd (holds.2.symm.trans same.2) (other b₁ first dev)
    · rw [off b₁ first] at dev
      rw [off b₁ first, off b₂ second] at holds
      exact lone.distinct b₁ b₂ dev holds
  · intro b'
    by_cases ne : b' = b
    · rw [ne, self]
      exact ⟨fun _ => ⟨q, held⟩, fun _ => busy⟩
    · rw [off b' ne]
      exact lone.busy b'
  · intro b' q' member
    by_cases ne : b' = b
    · have before := lone.held b' q' member
      rw [ne] at before ⊢
      rw [self, ← before.2, here.2]
      exact same
    · rw [off b' ne]
      exact lone.held b' q' member
  · intro b' member
    by_cases ne : b' = b
    · exact ⟨q, ne ▸ held⟩
    · exact lone.edits b' ((listed b' ne).mpr member)
  · intro b' dirty
    by_cases ne : b' = b
    · rw [ne, self] at dirty ⊢
      exact ⟨same.1, same.2 ▸ logged dirty⟩
    · rw [off b' ne] at dirty ⊢
      obtain ⟨dev, member⟩ := lone.dirty b' dirty
      exact ⟨dev, kept _ member (other b' ne dev)⟩
  · intro b' dev
    by_cases ne : b' = b
    · rw [ne, self, same.2, update_self]
    · rw [off b' ne] at dev ⊢
      rw [update_of_ne (other b' ne dev)]
      exact lone.data b' dev
  · intro q' low clean
    by_cases ne : q' = q
    · have both := clean b (by rw [self, ne]; exact same)
      rw [self] at both
      rw [ne, update_self]
      exact saved both.1 both.2
    · rw [others q' ne, update_of_ne ne]
      refine lone.disk q' low ?_
      intro b' holds
      have away : b' ≠ b := by
        rintro rfl
        exact ne (holds.2.symm.trans here.2)
      have both := clean b' (by rw [off b' away]; exact holds)
      rw [off b' away] at both
      exact ⟨both.1, fun member => both.2 ((listed b' away).mp member)⟩

theorem Lone.regroup (lone : Lone p X H L c r s) (buf : ∀ b, ∃ busy, t.buf b = { s.buf b with busy := busy })
    (busy : ∀ b, (t.buf b).busy = true ↔ ∃ q, (b, q) ∈ H') (held : ∀ b q, (b, q) ∈ H' → (s.buf b).Holds rootdev q)
    (edits : ∀ b ∈ X, ∃ q, (b, q) ∈ H') (runs : t.thread p = .running) (ring : ∀ b, b ∈ t.mru)
    (rest : t.locks = s.locks ∧ t.idequeue = s.idequeue ∧ t.havedisk1 = s.havedisk1 ∧ t.disk = s.disk ∧
      t.rest = s.rest) : Lone p X H' L c r t := by
  obtain ⟨locks, queue, disk1, disk, rest⟩ := rest
  have fields : ∀ b, (t.buf b).dev = (s.buf b).dev ∧ (t.buf b).sector = (s.buf b).sector ∧
      (t.buf b).valid = (s.buf b).valid ∧ (t.buf b).dirty = (s.buf b).dirty ∧ (t.buf b).data = (s.buf b).data := by
    intro b
    obtain ⟨busy, eq⟩ := buf b
    simp [eq]
  have holds : ∀ b q, (t.buf b).Holds rootdev q ↔ (s.buf b).Holds rootdev q := by
    intro b q
    simp only [Buf.Holds, fields]
  refine ⟨runs, ?_, queue.trans lone.queue, ring, disk1.trans lone.disk1, ?_, ?_, busy, ?_, edits, ?_, ?_, ?_,
    rest.trans lone.rest⟩
  · rw [locks]
    exact lone.locks
  · intro b
    simp only [fields]
    exact lone.named b
  · intro b b'
    simp only [holds, fields]
    exact lone.distinct b b'
  · intro b q member
    exact (holds b q).mpr (held b q member)
  · intro b
    simp only [fields]
    exact lone.dirty b
  · intro b
    simp only [fields]
    exact lone.data b
  · intro q low clean
    rw [disk]
    refine lone.disk q low ?_
    intro b here
    have both := clean b ((holds b q).mpr here)
    simp only [fields] at both
    exact both

theorem setBuf_busy {v : Bool} (b' : Fin nbuf) :
    ∃ busy, (s.setBuf b { s.buf b with busy := v }).buf b' = { s.buf b' with busy := busy } := by
  by_cases ne : b' = b
  · exact ⟨v, by rw [ne, buf_setBuf_self]⟩
  · exact ⟨(s.buf b').busy, by rw [buf_setBuf_of_ne ne]⟩

section

variable (lone : Lone p X H L c r s)
include lone

theorem Lone.takes (here : (s.buf b).Holds rootdev q) : Lone p X ((b, q) :: H) L c r
    (s.setBuf b { s.buf b with busy := true }) := by
  refine lone.regroup setBuf_busy ?_ ?_ ?_ lone.runs lone.ring ⟨rfl, rfl, rfl, rfl, rfl⟩
  · intro b'
    by_cases ne : b' = b
    · rw [ne, buf_setBuf_self]
      exact ⟨fun _ => ⟨q, .head _⟩, fun _ => rfl⟩
    · rw [buf_setBuf_of_ne ne, lone.busy b']
      simp [ne]
  · intro b' q' member
    cases List.mem_cons.mp member with
    | inl head =>
      cases head
      exact here
    | inr tail => exact lone.held b' q' tail
  · intro b' member
    obtain ⟨q', before⟩ := lone.edits b' member
    exact ⟨q', .tail _ before⟩

theorem Lone.drops (saved : b ∉ X) (fewer : ∀ k, k ∈ H' ↔ k ∈ H ∧ k.1 ≠ b) :
    Lone p X H' L c r (State.wake (State.setBuf { s with mru := b :: s.mru.erase b } b { s.buf b with busy := false })
      (.buf b)) := by
  refine lone.regroup setBuf_busy ?_ ?_ ?_ ?_ ?_ ⟨rfl, rfl, rfl, rfl, rfl⟩
  · intro b'
    show ((s.setBuf b { s.buf b with busy := false }).buf b').busy = true ↔ _
    by_cases ne : b' = b
    · rw [ne, buf_setBuf_self]
      simp [fewer]
    · rw [buf_setBuf_of_ne ne, lone.busy b']
      simp [fewer, ne]
  · intro b' q' member
    exact lone.held b' q' ((fewer _).mp member).1
  · intro b' member
    obtain ⟨q', before⟩ := lone.edits b' member
    exact ⟨q', (fewer _).mpr ⟨before, fun same => saved (same ▸ member)⟩⟩
  · show (if 1 ≤ p ∧ p < numIds ∧ s.thread p = .asleep (.buf b) then Life.running else s.thread p) = .running
    rw [lone.runs]
    split <;> rfl
  · intro b'
    show b' ∈ b :: s.mru.erase b
    by_cases ne : b' = b
    · exact ne ▸ .head _
    · exact .tail _ ((List.mem_erase_of_ne ne).mpr (lone.ring b'))

theorem Lone.free_unedited (free : (s.buf b).busy = false) : b ∉ X := by
  intro member
  have busy := (lone.busy b).mpr (lone.edits b member)
  rw [free] at busy
  cases busy

theorem Lone.recycles (low : q.toNat < 2 ^ 28) (free : (s.buf b).busy = false)
    (clean : (s.buf b).dirty = false) (missing : ∀ b', ¬ (s.buf b').Holds rootdev q) (range : 1 ≤ p ∧ p < numIds) :
    Lone p X ((b, q) :: H) L c r ((s.setBuf b ⟨rootdev, q, true, false, false, (s.buf b).data⟩).transfer p b) := by
  have read : s.disk ⟨rootdev, q⟩ = c q := lone.disk q low fun b' holds => absurd holds (missing b')
  have addr : ideAddr rootdev q = ⟨rootdev, q⟩ := ideAddr_of_present ⟨by decide, low⟩
  have buf : ∀ b', ((s.setBuf b ⟨rootdev, q, true, false, false, (s.buf b).data⟩).transfer p b).buf b'
      = if b' = b then ⟨rootdev, q, true, true, false, c q⟩ else s.buf b' := by
    intro b'
    by_cases ne : b' = b
    · simp only [State.transfer, State.setBuf, ne, update_self, Buf.addr, addr, read, Bool.false_eq_true,
        if_false, if_true]
    · simp only [State.transfer, State.setBuf, update_of_ne ne, if_neg ne]
  refine ⟨transfer_thread.mpr range, lone.locks, lone.queue, lone.ring, lone.disk1, ?_, ?_, ?_, ?_, ?_, ?_, ?_, ?_,
    lone.rest⟩
  · intro b'
    rw [buf b']
    split
    · exact fun _ => ⟨rfl, low⟩
    · exact lone.named b'
  · intro b₁ b₂
    rw [buf b₁, buf b₂]
    by_cases first : b₁ = b <;> by_cases second : b₂ = b
    · exact fun _ _ => second.trans first.symm
    · simp only [if_pos first, if_neg second]
      exact fun _ holds => absurd holds (missing b₂)
    · simp only [if_neg first, if_pos second]
      exact fun dev holds => absurd ⟨dev, holds.2.symm⟩ (missing b₁)
    · simp only [if_neg first, if_neg second]
      exact lone.distinct b₁ b₂
  · intro b'
    rw [buf b']
    by_cases ne : b' = b
    · simp [ne]
    · simp [ne, lone.busy b']
  · intro b' q' member
    rw [buf b']
    by_cases ne : b' = b
    · cases List.mem_cons.mp member with
      | inl head =>
        cases head
        rw [if_pos rfl]
        exact ⟨rfl, rfl⟩
      | inr tail =>
        have busy := (lone.busy b').mpr ⟨q', tail⟩
        rw [ne, free] at busy
        cases busy
    · rw [if_neg ne]
      cases List.mem_cons.mp member with
      | inl head => exact absurd (congrArg Prod.fst head) ne
      | inr tail => exact lone.held b' q' tail
  · intro b' member
    obtain ⟨q', before⟩ := lone.edits b' member
    exact ⟨q', .tail _ before⟩
  · intro b'
    rw [buf b']
    split
    · intro dirty
      cases dirty
    · exact lone.dirty b'
  · intro b'
    rw [buf b']
    split
    · exact fun _ => rfl
    · exact lone.data b'
  · intro q' low' others
    have disk : ((s.setBuf b ⟨rootdev, q, true, false, false, (s.buf b).data⟩).transfer p b).disk = s.disk := by
      simp [State.transfer, State.written, State.setBuf]
    rw [disk]
    refine lone.disk q' low' ?_
    intro b' holds
    by_cases ne : b' = b
    · rw [ne]
      exact ⟨clean, lone.free_unedited free⟩
    · have both := others b' (by rw [buf b', if_neg ne]; exact holds)
      rw [buf b', if_neg ne] at both
      exact both

/-! ## The functions -/

theorem Lone.cached : s.cached rootdev q = some b ↔ (s.buf b).Holds rootdev q := by
  constructor
  · intro found
    have holds := List.find?_some found
    simpa using holds
  · intro holds
    cases found : s.cached rootdev q with
    | none =>
      exact absurd (decide_eq_true holds) (List.find?_eq_none.mp found b (lone.ring b))
    | some b' =>
      have holds' := List.find?_some found
      simp only [decide_eq_true_eq] at holds'
      rw [lone.distinct b b' holds.1 (by rw [holds.2]; exact holds')]

theorem Lone.recyclable (room : H.length + L.length < nbuf) : s.recyclable ≠ none := by
  intro full
  have each : ∀ b : Fin nbuf, b ∈ H.map Prod.fst ∨ (s.buf b).dirty = true := by
    intro b
    have used := List.find?_eq_none.mp full b (List.mem_reverse.mpr (lone.ring b))
    simp only [Bool.and_eq_true, Bool.not_eq_true', not_and, Bool.not_eq_false] at used
    cases busy : (s.buf b).busy with
    | false => exact .inr (used busy)
    | true =>
      obtain ⟨q, member⟩ := (lone.busy b).mp busy
      exact .inl (List.mem_map.mpr ⟨_, member, rfl⟩)
  have dirty : (Finset.univ.filter fun b => (s.buf b).dirty = true).card ≤ L.toFinset.card := by
    refine Finset.card_le_card_of_injOn (fun b => (s.buf b).sector) ?_ ?_
    · intro b member
      simpa using (lone.dirty b (by simpa using member)).2
    · intro b member b' member' same
      have here := (lone.dirty b (by simpa using member)).1
      have here' := (lone.dirty b' (by simpa using member')).1
      exact (lone.distinct b b' here ⟨here', same.symm⟩).symm
  have covered : (Finset.univ : Finset (Fin nbuf)) ⊆
      (H.map Prod.fst).toFinset ∪ Finset.univ.filter fun b => (s.buf b).dirty = true := by
    intro b _
    simpa using each b
  have counted := Finset.card_le_card covered
  have union := Finset.card_union_le (H.map Prod.fst).toFinset (Finset.univ.filter fun b => (s.buf b).dirty = true)
  have busy := List.toFinset_card_le (H.map Prod.fst)
  have logged := List.toFinset_card_le L
  rw [Finset.card_univ, Fintype.card_fin] at counted
  rw [List.length_map] at busy
  omega

end

variable {watch : Note → Bool} {E : Cut Stop Note → Prop}

abbrev noBuffers : Cut Stop Note := .stops (.panic "bufcache_get: no buffers")

theorem Lone.idle (lone : Lone p X H L c r s) (holds : (s.buf b).Holds rootdev q) (free : ∀ b, (b, q) ∉ H) :
    (s.buf b).busy = false := by
  cases busy : (s.buf b).busy with
  | false => rfl
  | true =>
    obtain ⟨q', member⟩ := (lone.busy b).mp busy
    rw [← (lone.held b q' member).2, holds.2] at member
    exact absurd member (free b)

theorem bufcacheGet_lone (terms : Terms watch E p) (free : ∀ b, (b, q) ∉ H)
    (room : H.length + L.length < nbuf ∨ E noBuffers) :
    (bufcacheGet rootdev q).Acts watch E p (Lone p X H L c r) fun b t =>
      Lone p X ((b, q) :: H) L c r t ∨
      ∃ s, Lone p X H L c r s ∧ (s.buf b).busy = false ∧ (s.buf b).dirty = false ∧
        (∀ b', ¬ (s.buf b').Holds rootdev q) ∧ t = s.setBuf b ⟨rootdev, q, true, false, false, (s.buf b).data⟩ := by
  intro s lone
  have lock := lone.locks .bcache (by simp)
  have unwatched : ∀ b, watch (.take (.buf b)) = true → E (.notes (.take (.buf b))) := by
    intro b cut
    rw [terms.unwatched rfl] at cut
    cases cut
  cases found : s.cached rootdev q with
  | some b =>
    have holds := lone.cached.mp found
    rw [bufcacheGet_cached lock found (lone.idle holds free)]
    exact Turn.Gives.note (unwatched b) fun _ => .inl (lone.takes holds)
  | none =>
    have missing : ∀ b, ¬ (s.buf b).Holds rootdev q := by
      intro b holds
      rw [lone.cached.mpr holds] at found
      cases found
    cases victim : s.recyclable with
    | some b =>
      have idle := List.find?_some victim
      simp only [Bool.and_eq_true, Bool.not_eq_true'] at idle
      rw [bufcacheGet_recycled lock found victim]
      exact Turn.Gives.note (unwatched b) fun _ => .inr ⟨s, lone, idle.1, idle.2, missing, rfl⟩
    | none =>
      rw [bufcacheGet_full lock found victim]
      cases room with
      | inl small => exact absurd victim (lone.recyclable small)
      | inr allowed => exact allowed

theorem bufcacheRead_lone (terms : Terms watch E p) (low : q.toNat < 2 ^ 28) (free : ∀ b, (b, q) ∉ H)
    (room : H.length + L.length < nbuf ∨ E noBuffers) :
    (bufcacheRead rootdev q).Acts watch E p (Lone p X H L c r) fun b => Lone p X ((b, q) :: H) L c r := by
  refine terms.noted rfl (.bind (bufcacheGet_lone terms free room) fun b => .read fun t got => ?_)
  rcases got with lone | ⟨s, lone, idle, clean, missing, rfl⟩
  · have valid := (lone.named b (lone.held b q (.head _)).1).1
    rw [if_neg (by simp [valid])]
    refine .seq (.pure fun s same => ?_) <| .pure fun _ post => post
    exact same ▸ lone
  · rw [if_pos (by simp)]
    refine .seq ?_ <| .pure fun _ post => post
    rintro _ rfl
    have transferred := ideRw_alone (p := p) (b := b)
      (s := s.setBuf b ⟨rootdev, q, true, false, false, (s.buf b).data⟩) watch (lone.locks .ide (by simp))
      (lone.locks .sched (by simp)) lone.queue lone.disk1 (by simp) (.inl (by simp))
    unfold Turn.Gives
    rw [transferred]
    by_cases range : 1 ≤ p ∧ p < numIds
    · rw [if_pos range]
      exact lone.recycles low idle clean missing range
    · rw [if_neg range]
      exact terms.awake.resolve_left range

theorem bufcacheRelease_lone (terms : Terms watch E p) (held : (b, q) ∈ H) (saved : b ∉ X)
    (fewer : ∀ k, k ∈ H' ↔ k ∈ H ∧ k.1 ≠ b) :
    (bufcacheRelease b).Acts watch E p (Lone p X H L c r) fun _ => Lone p X H' L c r := by
  intro s lone
  rw [bufcacheRelease_eq (lone.locks .bcache (by simp)) (lone.locks .sched (by simp)) ((lone.busy b).mpr ⟨q, held⟩)]
  refine Turn.Gives.note (fun cut => ?_) fun _ => lone.drops saved fewer
  rw [show (watched watch).watch _ = watch _ from rfl, terms.unwatched rfl] at cut
  cases cut

theorem Lone.fresh (lone : Lone p X ((b, q) :: H) L c r s) (free : ∀ b, (b, q) ∉ H) : ∀ k ∈ H, k.1 ≠ b := by
  rintro ⟨b', q'⟩ member rfl
  have first := (lone.held b' q (.head _)).2
  have second := (lone.held b' q' (.tail _ member)).2
  exact free b' (first.symm.trans second ▸ member)

theorem releaseLast_lone (terms : Terms watch E p) (free : ∀ b, (b, q) ∉ H) (others : ∀ b' ∈ X, ∃ q', (b', q') ∈ H) :
    (bufcacheRelease b).Acts watch E p (Lone p X ((b, q) :: H) L c r) fun _ => Lone p X H L c r := by
  intro s lone
  have fresh := lone.fresh free
  refine bufcacheRelease_lone terms (.head _) ?_ ?_ s lone
  · intro edited
    obtain ⟨q', member⟩ := others b edited
    exact fresh _ member rfl
  · intro k
    constructor
    · exact fun member => ⟨.tail _ member, fresh k member⟩
    · rintro ⟨member, ne⟩
      cases List.mem_cons.mp member with
      | inl head => exact absurd (congrArg Prod.fst head) ne
      | inr tail => exact tail

theorem Lone.setData (lone : Lone p X H L c r s) (held : (b, q) ∈ H) (d : Block) :
    Lone p (b :: X) H L (update c q d) r (s.setBuf b { s.buf b with data := d }) := by
  have here := lone.held b q held
  refine lone.edit (x := { s.buf b with data := d }) held here ((lone.busy b).mpr ⟨q, held⟩) (lone.named b here.1).1
    (fun _ member _ => member) ?_ rfl (fun _ _ => rfl) ?_ ?_ lone.runs ⟨rfl, rfl, rfl, rfl, rfl⟩
  · exact fun dirty => here.2 ▸ (lone.dirty b dirty).2
  · intro b' ne
    simp [ne]
  · exact fun _ missing => absurd (.head _) missing

theorem modifyData_lone {f : Block → Block} (held : (b, q) ∈ H) :
    (modifyData b f).Acts watch E p (Lone p X H L c r) fun _ =>
      Lone p (b :: X) H L (update c q (f (c q))) r := by
  refine .modify fun s lone => ?_
  rw [← lone.block held]
  exact lone.setData held _

theorem memmove_lone {src : Fin nbuf} {q' : Word} (held : (b, q) ∈ H) (from' : (src, q') ∈ H) :
    (memmove b src).Acts watch E p (Lone p X H L c r) fun _ =>
      Lone p (b :: X) H L (update c q (c q')) r := by
  refine .modify fun s lone => ?_
  rw [← lone.block from']
  exact lone.setData held _

theorem bufcacheWrite_lone (terms : Terms watch E p) (X' : List (Fin nbuf)) (L' : List Word) (held : (b, q) ∈ H)
    (kept : ∀ q' ∈ L, q' ≠ q → q' ∈ L') (listed : ∀ b', b' ≠ b → (b' ∈ X ↔ b' ∈ X')) :
    (bufcacheWrite b).Acts watch E p (Lone p X H L c r) fun _ => Lone p X' H L' c r := by
  refine .read fun s lone => ?_
  have busy := (lone.busy b).mpr ⟨q, held⟩
  have here := lone.held b q held
  have addr := lone.addr here.1
  rw [here.2] at addr
  rw [if_neg (by simp [busy])]
  refine .bind (.modify (Q := fun _ t => t = s.setBuf b { s.buf b with dirty := true }) fun t same => same ▸ rfl)
    fun _ => ?_
  rintro _ rfl
  have transferred := ideRw_alone (p := p) (b := b) (s := s.setBuf b { s.buf b with dirty := true }) watch
    (lone.locks .ide (by simp)) (lone.locks .sched (by simp)) lone.queue lone.disk1 (by simpa using busy)
    (.inr (by simp))
  unfold Turn.Gives
  rw [transferred]
  by_cases range : 1 ≤ p ∧ p < numIds
  · rw [if_pos range]
    have same : update c q (s.buf b).data = c := by rw [lone.block held, update_eq_self]
    rw [← same]
    refine lone.edit (x := { s.buf b with valid := true, dirty := false }) held here busy rfl kept
      (fun dirty => nomatch dirty) ?_ ?_ listed ?_ (transfer_thread.mpr range) ⟨rfl, rfl, rfl, rfl, rfl⟩
    · simp [State.transfer, State.setBuf]
    · intro q' ne
      have other : (⟨rootdev, q'⟩ : Fs.Addr) ≠ ⟨rootdev, q⟩ := fun same => ne (congrArg Fs.Addr.sector same)
      simp only [State.transfer, State.written, buf_setBuf_self, if_true]
      rw [show Buf.addr { s.buf b with dirty := true } = (s.buf b).addr from rfl, addr, update_of_ne other]
      rfl
    · intro _ _
      simp only [State.transfer, State.written, buf_setBuf_self, if_true]
      rw [show Buf.addr { s.buf b with dirty := true } = (s.buf b).addr from rfl, addr, update_self]
  · rw [if_neg range]
    exact terms.awake.resolve_left range

theorem setDirty_lone (X' : List (Fin nbuf)) (L' : List Word) (held : (b, q) ∈ H) (more : ∀ q' ∈ L, q' ∈ L') (logged : q ∈ L')
    (listed : ∀ b', b' ≠ b → (b' ∈ X ↔ b' ∈ X')) :
    (modifyBuf b fun x => { x with dirty := true }).Acts watch E p (Lone p X H L c r) fun _ =>
      Lone p X' H L' c r := by
  refine .modify fun s lone => ?_
  have here := lone.held b q held
  have same : update c q (s.buf b).data = c := by rw [lone.block held, update_eq_self]
  rw [← same]
  exact lone.edit (x := { s.buf b with dirty := true }) held here ((lone.busy b).mpr ⟨q, held⟩) (lone.named b here.1).1
    (fun q' member _ => more q' member) (fun _ => logged) rfl (fun _ _ => rfl) listed (fun clean => nomatch clean)
    lone.runs ⟨rfl, rfl, rfl, rfl, rfl⟩

end Certikos.FileSys
