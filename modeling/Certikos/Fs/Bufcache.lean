import Certikos.Lib.Wp
import Certikos.Machine
import Mathlib.Data.List.Basic
import Mathlib.Logic.Function.Basic

/-!
# The buffer cache over the IDE drives

`kern/fs/bufcache.c`, and `ide_rw` of `kern/dev/disk/ide.c` with the request queue and the interrupt handler folded
into one transfer: a sector is read or written at once, in the order of the calls.
-/

namespace Certikos.Fs
open Lib Function

abbrev nbuf : Nat := 10
abbrev rootdev : Word := 1

instance (priority := high) neZeroNbuf : NeZero nbuf := ⟨by decide⟩

abbrev Block := Fin 128 → Word

structure Addr where
  drive : Word
  sector : Word
  deriving DecidableEq

abbrev Disk := Addr → Block

/-- What `ide_start` puts on the ports: the low bit of the device and 28 bits of the sector. -/
def ideAddr (dev sector : Word) : Addr := ⟨dev &&& 1, sector &&& 0x0fffffff⟩

structure Buf where
  dev : Word
  sector : Word
  busy : Bool
  valid : Bool
  dirty : Bool
  data : Block

def Buf.addr (b : Buf) : Addr := ideAddr b.dev b.sector

structure LogHeader where
  n : Int
  sector : Nat → Word

structure State where
  buf : Fin nbuf → Buf
  mru : List (Fin nbuf)
  havedisk1 : Bool
  disk : Disk
  power : Nat
  lh : LogHeader
  busy : Bool

inductive Stop
  | panic (message : String)
  | asleep
  | wildAccess
  | powerLoss
  deriving DecidableEq

abbrev FsM := EStateM Stop State

def State.setBuf (s : State) (i : Fin nbuf) (b : Buf) : State :=
  { s with buf := update s.buf i b }

def modifyBuf (i : Fin nbuf) (f : Buf → Buf) : FsM PUnit := modify fun s => s.setBuf i (f (s.buf i))

def memmove (dst src : Fin nbuf) : FsM PUnit :=
  modify fun s => s.setBuf dst { s.buf dst with data := (s.buf src).data }

def ideWrite (s : State) (i : Fin nbuf) : State :=
  { s with
    disk := update s.disk (s.buf i).addr (s.buf i).data
    power := s.power - 1
    buf := update s.buf i { s.buf i with valid := true, dirty := false } }

def ideRead (s : State) (i : Fin nbuf) : State :=
  s.setBuf i { s.buf i with valid := true, data := s.disk (s.buf i).addr }

def ideRw (i : Fin nbuf) : FsM PUnit := do
  let s ← get
  if (s.buf i).busy = false then throw (.panic "ide_rw: buf not busy")
  else if (s.buf i).valid = true ∧ (s.buf i).dirty = false then throw (.panic "ide_rw: nothing to do")
  else if (s.buf i).dev ≠ 0 ∧ s.havedisk1 = false then throw (.panic "ide_rw: ide disk 1 not present")
  else if (s.buf i).dirty = true then
    if s.power = 0 then throw .powerLoss else modify (ideWrite · i)
  else modify (ideRead · i)

def Buf.Holds (b : Buf) (dev sector : Word) : Prop := b.dev = dev ∧ b.sector = sector

instance (b : Buf) (dev sector : Word) : Decidable (b.Holds dev sector) := by
  unfold Buf.Holds
  infer_instance

def bufcacheGet (dev sector : Word) : FsM (Fin nbuf) := do
  let s ← get
  match s.mru.find? fun i => (s.buf i).Holds dev sector with
  | some i =>
    if (s.buf i).busy = true then throw .asleep
    else do
      modifyBuf i fun b => { b with busy := true }
      pure i
  | none =>
    match s.mru.reverse.find? fun i => !(s.buf i).busy && !(s.buf i).dirty with
    | some i => do
        modifyBuf i fun b =>
          { b with dev := dev, sector := sector, busy := true, valid := false, dirty := false }
        pure i
    | none => throw (.panic "bufcache_get: no buffers")

def bufcacheRead (dev sector : Word) : FsM (Fin nbuf) := do
  let i ← bufcacheGet dev sector
  let s ← get
  if (s.buf i).valid = true then pure i
  else do
    ideRw i
    pure i

def bufcacheWrite (i : Fin nbuf) : FsM PUnit := do
  let s ← get
  if (s.buf i).busy = false then throw (.panic "bwrite")
  else do
    modifyBuf i fun b => { b with dirty := true }
    ideRw i

def bufcacheRelease (i : Fin nbuf) : FsM PUnit := do
  let s ← get
  if (s.buf i).busy = false then throw (.panic "brelse")
  else do
    modify fun s => { s with mru := i :: s.mru.erase i }
    modifyBuf i fun b => { b with busy := false }

/-- The cache after `bufcache_init`: every buffer was put in front of the ones before it. -/
def boot (disk : Disk) (power : Nat) : State where
  buf := fun _ => ⟨-1, 0, false, false, false, fun _ => 0⟩
  mru := (List.finRange nbuf).reverse
  havedisk1 := true
  disk := disk
  power := power
  lh := ⟨0, fun _ => 0⟩
  busy := false

theorem toNat_sectorMask (p : Word) : (p &&& 0x0fffffff).toNat = p.toNat % 2 ^ 28 := by
  rw [BitVec.toNat_and, show (0x0fffffff : Word).toNat = 2 ^ 28 - 1 from rfl, Nat.and_two_pow_sub_one_eq_mod]

theorem ideAddr_inj {dev p q : Word} (hp : p.toNat < 2 ^ 28) (hq : q.toNat < 2 ^ 28)
    (same : ideAddr dev p = ideAddr dev q) : p = q := by
  have masked := congrArg (fun p => p.sector.toNat) same
  dsimp only [ideAddr] at masked
  rw [toNat_sectorMask, toNat_sectorMask, Nat.mod_eq_of_lt hp, Nat.mod_eq_of_lt hq] at masked
  exact BitVec.eq_of_toNat_eq masked

@[simp] theorem setBuf_self (s : State) (i : Fin nbuf) (b : Buf) : (s.setBuf i b).buf i = b := by
  simp [State.setBuf]

variable {E : Stop → State → Prop} {b : Buf}

theorem setBuf_of_ne {s : State} {i j : Fin nbuf} (ne : j ≠ i) : (s.setBuf i b).buf j = s.buf j := by
  simp [State.setBuf, ne]

@[simp] theorem setBuf_setBuf (s : State) (i : Fin nbuf) (b c : Buf) : (s.setBuf i b).setBuf i c = s.setBuf i c := by
  simp [State.setBuf]

theorem Buf.Holds.addr {dev sector : Word} (holds : b.Holds dev sector) : b.addr = ideAddr dev sector := by
  rw [Buf.addr, holds.1, holds.2]

def Quiet (s : State) : Prop := ∀ i, (s.buf i).busy = false ∧ (s.buf i).dirty = false

structure Coherent (P : Word → Prop) (s : State) : Prop where
  disk1 : s.havedisk1 = true
  listed : ∀ i, i ∈ s.mru
  filled : ∀ i, (s.buf i).busy = true ∨ (s.buf i).dirty = true → (s.buf i).valid = true
  unique : ∀ i j q, (s.buf i).Holds rootdev q → (s.buf j).Holds rootdev q → i = j
  clean : ∀ i q, (s.buf i).Holds rootdev q → P q → (s.buf i).valid = true →
    (s.buf i).dirty = false ∧ (s.buf i).data = s.disk (ideAddr rootdev q)

def Stuck (s : State) (dev sector : Word) : Prop :=
  (∃ i, (s.buf i).Holds dev sector ∧ (s.buf i).busy = true) ∨
    ∀ i, (s.buf i).busy = true ∨ (s.buf i).dirty = true

structure Held (P : Word → Prop) (dev sector : Word) (s : State) (i : Fin nbuf) (t : State) : Prop where
  idle : (s.buf i).busy = false
  frame : t = s.setBuf i (t.buf i)
  holds : (t.buf i).Holds dev sector
  busy : (t.buf i).busy = true
  tidy : (s.buf i).dirty = false → (t.buf i).dirty = false
  coherent : Coherent P t

variable {P : Word → Prop} {s t : State} {dev sector q : Word} {i j : Fin nbuf}

theorem boot_coherent (d : Disk) (k : Nat) : Coherent P (boot d k) where
  disk1 := rfl
  listed := by intro i; simp [boot]
  filled := by intro i waits; simp [boot] at waits
  unique := by
    intro i j q holds _
    exact absurd holds.1 (show ¬ (-1 : Word) = rootdev by decide)
  clean := by
    intro i q holds
    exact absurd holds.1 (show ¬ (-1 : Word) = rootdev by decide)

theorem boot_quiet (d : Disk) (k : Nat) : Quiet (boot d k) := fun _ => ⟨rfl, rfl⟩

theorem Coherent.setBuf (coh : Coherent P s) (filled : b.busy = true ∨ b.dirty = true → b.valid = true)
    (alone : ∀ j q, j ≠ i → b.Holds rootdev q → ¬ (s.buf j).Holds rootdev q)
    (clean : ∀ q, b.Holds rootdev q → P q → b.valid = true →
      b.dirty = false ∧ b.data = s.disk (ideAddr rootdev q)) : Coherent P (s.setBuf i b) where
  disk1 := coh.disk1
  listed := coh.listed
  filled := by
    intro j waits
    by_cases here : j = i
    · rw [here, setBuf_self] at waits ⊢
      exact filled waits
    · rw [setBuf_of_ne here] at waits ⊢
      exact coh.filled j waits
  unique := by
    intro j k q first second
    by_cases atJ : j = i <;> by_cases atK : k = i
    · rw [atJ, atK]
    · rw [atJ, setBuf_self] at first
      rw [setBuf_of_ne atK] at second
      exact absurd second (alone k q atK first)
    · rw [atK, setBuf_self] at second
      rw [setBuf_of_ne atJ] at first
      exact absurd first (alone j q atJ second)
    · rw [setBuf_of_ne atJ] at first
      rw [setBuf_of_ne atK] at second
      exact coh.unique j k q first second
  clean := by
    intro j q holds inside valid
    by_cases here : j = i
    · rw [here, setBuf_self] at holds valid ⊢
      exact clean q holds inside valid
    · rw [setBuf_of_ne here] at holds valid ⊢
      exact coh.clean j q holds inside valid

theorem Coherent.alone (coh : Coherent P s) (same : (s.buf i).Holds b.dev b.sector) :
    ∀ j q, j ≠ i → b.Holds rootdev q → ¬ (s.buf j).Holds rootdev q := by
  intro j q ne holds other
  refine ne (coh.unique j i q other ?_)
  rw [Buf.Holds, same.1, same.2]
  exact holds

theorem held_setBuf (coh : Coherent P s) (idle : (s.buf i).busy = false)
    (alone : ∀ j q, j ≠ i → b.Holds rootdev q → ¬ (s.buf j).Holds rootdev q) (holds : b.Holds dev sector)
    (busy : b.busy = true) (valid : b.valid = true) (tidy : (s.buf i).dirty = false → b.dirty = false)
    (clean : ∀ q, b.Holds rootdev q → P q → b.dirty = false ∧ b.data = s.disk (ideAddr rootdev q)) :
    Held P dev sector s i (s.setBuf i b) where
  idle := idle
  frame := by rw [setBuf_self]
  holds := by rwa [setBuf_self]
  busy := by rwa [setBuf_self]
  tidy := by rwa [setBuf_self]
  coherent := coh.setBuf (fun _ => valid) alone fun q held inside _ => clean q held inside

theorem ideRw_read {Q : PUnit → State → Prop} (busy : (s.buf i).busy = true)
    (invalid : (s.buf i).valid = false) (tidy : (s.buf i).dirty = false) (disk1 : s.havedisk1 = true) :
    wp (ideRw i) Q E s ↔ Q ⟨⟩ (ideRead s i) := by
  simp [ideRw, busy, invalid, tidy, disk1]

theorem bufcacheRead_wp (coh : Coherent P s) (dev sector : Word) :
    wp (bufcacheRead dev sector) (Held P dev sector s) (fun _ t => t.disk = s.disk ∧ Stuck s dev sector) s := by
  simp only [bufcacheRead, bufcacheGet, wp_bind, wp_get]
  cases found : s.mru.find? fun i => (s.buf i).Holds dev sector with
  | some i =>
    have holds : (s.buf i).Holds dev sector := by simpa using List.find?_some found
    refine wp_ite ?_ ?_
    · intro busy
      exact ⟨rfl, .inl ⟨i, holds, busy⟩⟩
    · intro idle
      rw [Bool.not_eq_true] at idle
      simp only [modifyBuf, wp_bind, wp_modify, wp_pure, setBuf_self]
      refine wp_ite ?_ ?_
      · intro valid
        refine held_setBuf coh idle (coh.alone ⟨rfl, rfl⟩) holds rfl valid id ?_
        intro q held inside
        exact coh.clean i q held inside valid
      · intro invalid
        have clean : (s.buf i).dirty = false := by
          cases dirty : (s.buf i).dirty with
          | false => rfl
          | true => exact absurd (coh.filled i (.inr dirty)) invalid
        rw [wp_bind, ideRw_read (by simp) (by simpa using invalid) (by simpa using clean) (by exact coh.disk1)]
        simp only [wp_pure, ideRead, setBuf_self, setBuf_setBuf]
        refine held_setBuf coh idle (coh.alone ⟨rfl, rfl⟩) holds rfl rfl id ?_
        intro q held _
        exact ⟨clean, congrArg s.disk held.addr⟩
  | none =>
    have absent : ∀ j, ¬ (s.buf j).Holds dev sector := by
      intro j holds
      simpa [holds] using List.find?_eq_none.mp found j (coh.listed j)
    cases spare : s.mru.reverse.find? fun i => !(s.buf i).busy && !(s.buf i).dirty with
    | some i =>
      have free := List.find?_some spare
      simp only [Bool.and_eq_true, Bool.not_eq_true'] at free
      simp only [modifyBuf, wp_bind, wp_modify, wp_pure, setBuf_self]
      rw [if_neg (by simp), wp_bind, ideRw_read (by simp) (by simp) (by simp) (by exact coh.disk1)]
      simp only [wp_pure, ideRead, setBuf_self, setBuf_setBuf]
      refine held_setBuf coh free.1 ?_ ⟨rfl, rfl⟩ rfl rfl (fun _ => rfl) ?_
      · rintro j q _ ⟨rfl, rfl⟩
        exact absent j
      · intro q held _
        exact ⟨rfl, congrArg s.disk held.addr⟩
    | none =>
      refine ⟨rfl, .inr ?_⟩
      intro j
      have taken := List.find?_eq_none.mp spare j (List.mem_reverse.mpr (coh.listed j))
      cases busy : (s.buf j).busy <;> simp_all

theorem bufcacheWrite_wp (busy : (s.buf i).busy = true) (disk1 : s.havedisk1 = true) :
    wp (bufcacheWrite i) (fun _ t => t = ideWrite s i ∧ s.power ≠ 0)
      (fun e t => t.disk = s.disk ∧ e = .powerLoss ∧ s.power = 0) s := by
  simp only [bufcacheWrite, ideRw, modifyBuf, wp_bind, wp_get]
  rw [if_neg (by simp [busy])]
  simp only [wp_bind, wp_modify, wp_get, setBuf_self]
  rw [if_neg (by simp [busy]), if_neg (by simp), if_neg (by simp [State.setBuf, disk1]), if_pos trivial]
  refine wp_ite ?_ ?_
  · intro empty
    exact ⟨rfl, rfl, empty⟩
  · intro left
    refine ⟨?_, left⟩
    simp [ideWrite, State.setBuf, Buf.addr]

def released (s : State) (i : Fin nbuf) : State :=
  { s with mru := i :: s.mru.erase i, buf := update s.buf i { s.buf i with busy := false } }

theorem bufcacheRelease_wp (busy : (s.buf i).busy = true) :
    wp (bufcacheRelease i) (fun _ t => t = released s i) E s := by
  simp only [bufcacheRelease, modifyBuf, wp_bind, wp_get]
  rw [if_neg (by simp [busy])]
  rfl

theorem Coherent.released (coh : Coherent P s) : Coherent P (released s i) := by
  have idle : Coherent P (s.setBuf i { s.buf i with busy := false }) := by
    refine coh.setBuf ?_ (coh.alone ⟨rfl, rfl⟩) ?_
    · rintro (busy | dirty)
      · exact absurd busy Bool.false_ne_true
      · exact coh.filled i (.inr dirty)
    · intro q holds
      exact coh.clean i q holds
  refine ⟨idle.disk1, ?_, idle.filled, idle.unique, idle.clean⟩
  intro j
  by_cases here : j = i
  · rw [here]
    exact List.mem_cons_self
  · exact .tail _ ((List.mem_erase_of_ne here).mpr (coh.listed j))

theorem Coherent.write {b : Block} (coh : Coherent P s) (holds : (s.buf i).Holds rootdev q)
    (apart : ∀ p, P p → p ≠ q → ideAddr rootdev p ≠ ideAddr rootdev q) :
    Coherent P (ideWrite (s.setBuf i { s.buf i with data := b }) i) where
  disk1 := coh.disk1
  listed := coh.listed
  filled := by
    intro j waits
    have old := coh.filled j
    by_cases here : j = i
    · subst here
      simp [ideWrite]
    · simp_all [ideWrite, State.setBuf]
  unique := by
    intro j k p first second
    refine coh.unique j k p ?_ ?_
    · by_cases here : j = i
      · subst here
        simpa [ideWrite, Buf.Holds] using first
      · simpa [ideWrite, State.setBuf, here] using first
    · by_cases here : k = i
      · subst here
        simpa [ideWrite, Buf.Holds] using second
      · simpa [ideWrite, State.setBuf, here] using second
  clean := by
    intro j p held inside valid
    by_cases here : j = i
    · subst here
      have same : p = q := by
        have sector := held.2
        simp only [ideWrite, update_self, setBuf_self] at sector
        exact sector.symm.trans holds.2
      have addr : Buf.addr { s.buf j with data := b } = ideAddr rootdev p := by
        rw [same]
        exact holds.addr
      simp [ideWrite, addr]
    · have addr : Buf.addr { s.buf i with data := b } = ideAddr rootdev q := holds.addr
      have still : (s.buf j).Holds rootdev p := by simpa [ideWrite, State.setBuf, here] using held
      have other : p ≠ q := fun same => here (coh.unique j i q (same ▸ still) holds)
      have old := coh.clean j p still inside
      simp_all [ideWrite, State.setBuf]

section

variable (held : Held P dev sector s i t)
include held

theorem Held.disk : t.disk = s.disk := by
  rw [held.frame]
  rfl

theorem Held.power : t.power = s.power := by
  rw [held.frame]
  rfl

theorem Held.lh : t.lh = s.lh := by
  rw [held.frame]
  rfl

theorem Held.busyLog : t.busy = s.busy := by
  rw [held.frame]
  rfl

theorem Held.others (ne : j ≠ i) : t.buf j = s.buf j := by
  rw [held.frame, setBuf_of_ne ne]

theorem Held.ne_of_busy (busy : (s.buf j).busy = true) : j ≠ i := by
  intro same
  rw [same, held.idle] at busy
  exact Bool.false_ne_true busy

end

theorem Held.data (held : Held P rootdev q s i t) (inside : P q) : (t.buf i).data = s.disk (ideAddr rootdev q) := by
  rw [← held.disk]
  exact (held.coherent.clean i q held.holds inside (held.coherent.filled i (.inl held.busy))).2

theorem Quiet.not_stuck (quiet : Quiet s) : ¬ Stuck s dev sector := by
  rintro (⟨i, _, busy⟩ | taken)
  · rw [(quiet i).1] at busy
    exact Bool.false_ne_true busy
  · have first := taken 0
    rw [(quiet 0).1, (quiet 0).2] at first
    simp at first

structure Stored (P : Word → Prop) (s : State) (q : Word) (b : Block) (t : State) : Prop where
  disk : t.disk = update s.disk (ideAddr rootdev q) b
  power : s.power = t.power + 1
  lh : t.lh = s.lh
  busy : t.busy = s.busy
  kept : ∀ j, (s.buf j).busy = true → t.buf j = s.buf j
  quiet : Quiet s → Quiet t
  coherent : Coherent P t

def Unwritten (s : State) (e : Stop) (t : State) : Prop :=
  t.disk = s.disk ∧ (Quiet s → e = .powerLoss ∧ s.power = 0)

theorem Held.stored {b : Block} (held : Held P rootdev q s i t) (left : t.power ≠ 0)
    (apart : ∀ p, P p → p ≠ q → ideAddr rootdev p ≠ ideAddr rootdev q) :
    Stored P s q b (released (ideWrite (t.setBuf i { t.buf i with data := b }) i) i) where
  disk := by
    have addr : Buf.addr { t.buf i with data := b } = ideAddr rootdev q := held.holds.addr
    simp [released, ideWrite, addr, State.setBuf, held.disk]
  power := by
    have same := held.power
    simp only [released, ideWrite, State.setBuf]
    omega
  lh := held.lh
  busy := held.busyLog
  kept := by
    intro j busy
    have ne := held.ne_of_busy busy
    simp [released, ideWrite, State.setBuf, ne, held.others ne]
  quiet := by
    intro quiet j
    by_cases here : j = i
    · subst here
      simp [released, ideWrite]
    · have old := quiet j
      rw [← held.others here] at old
      simpa [released, ideWrite, State.setBuf, here] using old
  coherent := (held.coherent.write held.holds apart).released

theorem Held.copied {p : Word} {u : State} {b : Block} (src : Held P rootdev p s i t)
    (dst : Held P rootdev q t j u) (left : u.power ≠ 0)
    (apart : ∀ p, P p → p ≠ q → ideAddr rootdev p ≠ ideAddr rootdev q) :
    Stored P s q b (released (released (ideWrite (u.setBuf j { u.buf j with data := b }) j) i) j) where
  disk := by
    have addr : Buf.addr { u.buf j with data := b } = ideAddr rootdev q := dst.holds.addr
    simp [released, ideWrite, addr, State.setBuf, dst.disk, src.disk]
  power := by
    have same := dst.power.trans src.power
    simp only [released, ideWrite, State.setBuf]
    omega
  lh := dst.lh.trans src.lh
  busy := dst.busyLog.trans src.busyLog
  kept := by
    intro k busy
    have first := src.ne_of_busy busy
    rw [← src.others first] at busy ⊢
    have second := dst.ne_of_busy busy
    simp [released, ideWrite, State.setBuf, first, second, dst.others second]
  quiet := by
    intro quiet k
    have apart := dst.ne_of_busy src.busy
    by_cases atJ : k = j
    · subst atJ
      simp [released, ideWrite, apart.symm]
    · by_cases atI : k = i
      · subst atI
        have clean := src.tidy (quiet k).2
        rw [← dst.others atJ] at clean
        simpa [released, ideWrite, State.setBuf, atJ] using clean
      · have old := quiet k
        rw [← src.others atI, ← dst.others atJ] at old
        simpa [released, ideWrite, State.setBuf, atI, atJ] using old
  coherent := (dst.coherent.write dst.holds apart).released.released

theorem store_wp {f : State → Fin nbuf → Block} {b : Block} {R : PUnit → State → Prop}
    (coh : Coherent P s)
    (apart : ∀ p, P p → p ≠ q → ideAddr rootdev p ≠ ideAddr rootdev q)
    (data : ∀ i t, Held P rootdev q s i t → f t i = b) (next : ∀ t, Stored P s q b t → R ⟨⟩ t)
    (stop : ∀ e t, Unwritten s e t → E e t) :
    wp (bufcacheRead rootdev q) (fun i t =>
      wp (bufcacheWrite i) (fun _ u => wp (bufcacheRelease i) R E u) E
        (t.setBuf i { t.buf i with data := f t i })) E s := by
  refine wp_mono (bufcacheRead_wp coh rootdev q) ?_ ?_
  · intro i t held
    rw [data i t held]
    refine wp_mono (bufcacheWrite_wp (by simpa using held.busy) (by exact held.coherent.disk1)) ?_ ?_
    · rintro _ u ⟨rfl, left⟩
      refine wp_mono (bufcacheRelease_wp (by simpa [ideWrite] using held.busy)) ?_ fun _ _ h => h
      rintro _ u rfl
      exact next _ (held.stored left apart)
    · rintro e u ⟨same, lost, empty⟩
      exact stop e u ⟨same.trans held.disk, fun _ => ⟨lost, held.power ▸ empty⟩⟩
  · rintro e t ⟨same, stuck⟩
    exact stop e t ⟨same, fun quiet => absurd stuck quiet.not_stuck⟩

end Certikos.Fs
