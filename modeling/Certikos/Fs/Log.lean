import Certikos.Fs.Bufcache
import Certikos.Lib.RedoLog

/-!
# The redo log of the file system

`kern/fs/log.c` over the buffer cache. `LogArea` is what `log_init` reads from the superblock and
never changes; an access past the `LOGSIZE` sector numbers of a header stops the machine.
-/

namespace Certikos.Fs
open Lib

abbrev logsize : Nat := 10

structure LogArea where
  start : Nat
  size : Nat
  nonempty : 0 < size
  fits : start + size ≤ 2 ^ 28

def LogArea.sector (a : LogArea) (i : Nat) : Word := BitVec.ofNat 32 (a.start + i)

def LogArea.InLog (a : LogArea) (q : Word) : Prop := a.start ≤ q.toNat ∧ q.toNat < a.start + a.size

instance (a : LogArea) (q : Word) : Decidable (a.InLog q) := by
  unfold LogArea.InLog
  infer_instance

/-- The header block after `hb->n = lh.n` and `hb->sector[i] = lh.sector[i]` for every `i < lh.n`. -/
def headBlock (lh : LogHeader) (hb : Block) : Block := fun w =>
  if w = 0 then BitVec.ofInt 32 lh.n
  else if (w.val : Int) ≤ lh.n then lh.sector (w.val - 1)
  else hb w

def headSector (hb : Block) (i : Nat) : Word := hb (Fin.ofNat 128 (i + 1))

def installBlock (a : LogArea) (tail : Nat) : FsM PUnit := do
  let lbuf ← bufcacheRead rootdev (a.sector (tail + 1))
  let s ← get
  let dbuf ← bufcacheRead rootdev (s.lh.sector tail)
  memmove dbuf lbuf
  bufcacheWrite dbuf
  bufcacheRelease lbuf
  bufcacheRelease dbuf

def installTrans (a : LogArea) : FsM PUnit := do
  let s ← get
  forLoop (installBlock a) s.lh.n.toNat

def readHead (a : LogArea) : FsM PUnit := do
  let i ← bufcacheRead rootdev (a.sector 0)
  let s ← get
  let hb := (s.buf i).data
  if (logsize : Int) < (hb 0).toInt then throw .wildAccess
  else do
    modify fun s => { s with
      lh := ⟨(hb 0).toInt, fun k => if (k : Int) < (hb 0).toInt then headSector hb k else s.lh.sector k⟩ }
    bufcacheRelease i

def writeHead (a : LogArea) : FsM PUnit := do
  let i ← bufcacheRead rootdev (a.sector 0)
  let s ← get
  if (logsize : Int) < s.lh.n then throw .wildAccess
  else do
    modifyBuf i fun b => { b with data := headBlock s.lh b.data }
    bufcacheWrite i
    bufcacheRelease i

def emptyHead (s : State) : State := { s with lh := { s.lh with n := 0 } }

def recoverFromLog (a : LogArea) : FsM PUnit := do
  readHead a
  installTrans a
  modify emptyHead
  writeHead a

def begun (s : State) : State := { s with busy := true }

def beginTrans : FsM PUnit := do
  let s ← get
  if s.busy = true then throw .asleep
  else modify begun

def commitTrans (a : LogArea) : FsM PUnit := do
  let s ← get
  (if 0 < s.lh.n then do
    writeHead a
    installTrans a
    modify emptyHead
    writeHead a
  else pure ⟨⟩)
  modify fun s => { s with busy := false }

def logSlot (lh : LogHeader) (sector : Word) : Nat :=
  (List.range lh.n.toNat).findIdx fun i => lh.sector i == sector

def logWrite (a : LogArea) (i : Fin nbuf) : FsM PUnit := do
  let s ← get
  let n := s.lh.n
  let size := (a.size : Int)
  if (logsize : Int) ≤ n ∨ size - 1 ≤ n then
    throw (.panic s!"too big a transaction. {size} < {n} <= {logsize}")
  else if s.busy = false then throw (.panic "write outside of trans")
  else do
    let k := logSlot s.lh (s.buf i).sector
    modify fun s => { s with lh := { s.lh with sector := Function.update s.lh.sector k (s.buf i).sector } }
    let lbuf ← bufcacheRead (s.buf i).dev (a.sector (k + 1))
    memmove lbuf i
    bufcacheWrite lbuf
    bufcacheRelease lbuf
    modify fun s => { s with lh := { s.lh with n := if (k : Int) = s.lh.n then s.lh.n + 1 else s.lh.n } }
    modifyBuf i fun b => { b with dirty := true }

/-! ## The log as a redo log -/

theorem LogArea.toNat_sector (a : LogArea) {i : Nat} (lt : i < a.size) : (a.sector i).toNat = a.start + i := by
  have fits := a.fits
  rw [LogArea.sector, BitVec.toNat_ofNat, Nat.mod_eq_of_lt (by omega)]

theorem LogArea.sector_inLog (a : LogArea) {i : Nat} (lt : i < a.size) : a.InLog (a.sector i) := by
  rw [LogArea.InLog, a.toNat_sector lt]
  omega

theorem LogArea.InLog.low {a : LogArea} {q : Word} (inside : a.InLog q) : q.toNat < 2 ^ 28 :=
  lt_of_lt_of_le inside.2 a.fits

theorem ideAddr_low {q : Word} (low : q.toNat < 2 ^ 28) : ideAddr rootdev q = ⟨1, q⟩ := by
  have masked : q &&& 0x0fffffff = q := by
    refine BitVec.eq_of_toNat_eq ?_
    rw [toNat_sectorMask, Nat.mod_eq_of_lt low]
  rw [ideAddr, masked]
  rfl

def LogArea.redoLog (a : LogArea) : RedoLog Addr Block where
  header := ideAddr rootdev (a.sector 0)
  slot i := ideAddr rootdev (a.sector (i + 1))
  capacity := min logsize (a.size - 1)
  entries hb := (List.range (hb 0).toInt.toNat).map fun i => ideAddr rootdev (headSector hb i)
  Home p := ¬ (p.drive = 1 ∧ a.InLog p.sector)
  header_not_home home := by
    have inside := a.sector_inLog a.nonempty
    rw [ideAddr_low inside.low] at home
    exact home ⟨rfl, inside⟩
  slot_not_home i lt home := by
    have inside := a.sector_inLog (i := i + 1) (by omega)
    rw [ideAddr_low inside.low] at home
    exact home ⟨rfl, inside⟩
  slot_ne_header i lt same := by
    have inside := a.sector_inLog (i := i + 1) (by omega)
    have sectors := ideAddr_inj inside.low (a.sector_inLog a.nonempty).low same
    have numbers := congrArg BitVec.toNat sectors
    rw [a.toNat_sector (by omega), a.toNat_sector a.nonempty] at numbers
    omega
  slot_injective i j hi hj same := by
    have insideI := a.sector_inLog (i := i + 1) (by omega)
    have insideJ := a.sector_inLog (i := j + 1) (by omega)
    have numbers := congrArg BitVec.toNat (ideAddr_inj insideI.low insideJ.low same)
    rw [a.toNat_sector (by omega), a.toNat_sector (by omega)] at numbers
    omega

variable {a : LogArea} {s t : State} {q : Word} {i : Fin nbuf}

theorem home_of_low (low : q.toNat < 2 ^ 28) (outside : ¬ a.InLog q) : a.redoLog.Home (ideAddr rootdev q) := by
  rw [ideAddr_low low]
  exact fun inside => outside inside.2

theorem LogArea.InLog.not_home (inside : a.InLog q) : ¬ a.redoLog.Home (ideAddr rootdev q) := by
  rw [ideAddr_low inside.low]
  exact fun home => home ⟨rfl, inside⟩

theorem apart_of_inLog (inside : a.InLog q) : ∀ p, a.InLog p → p ≠ q → ideAddr rootdev p ≠ ideAddr rootdev q :=
  fun _ other ne same => ne (ideAddr_inj other.low inside.low same)

theorem apart_of_home (home : a.redoLog.Home (ideAddr rootdev q)) :
    ∀ p, a.InLog p → p ≠ q → ideAddr rootdev p ≠ ideAddr rootdev q :=
  fun _ other _ same => other.not_home (same ▸ home)

def LogHeader.addrs (lh : LogHeader) : List Addr :=
  (List.range lh.n.toNat).map fun i => ideAddr rootdev (lh.sector i)

@[simp] theorem LogHeader.length_addrs (lh : LogHeader) : lh.addrs.length = lh.n.toNat := by
  simp [LogHeader.addrs]

theorem val_headSector {i : Nat} (lt : i < logsize) : (Fin.ofNat 128 (i + 1)).val = i + 1 :=
  Nat.mod_eq_of_lt (by simp only [logsize] at lt; omega)

theorem entries_headBlock {lh : LogHeader} {hb : Block} (some : 0 ≤ lh.n) (small : lh.n ≤ logsize) :
    a.redoLog.entries (headBlock lh hb) = lh.addrs := by
  have count : (BitVec.ofInt 32 lh.n).toInt = lh.n := by
    simp only [logsize] at small
    rw [BitVec.toInt_ofInt, Int.bmod_eq_of_le (by omega) (by omega)]
  have length : (headBlock lh hb 0).toInt.toNat = lh.n.toNat := congrArg Int.toNat count
  dsimp only [LogArea.redoLog, LogHeader.addrs]
  rw [length]
  refine List.map_congr_left ?_
  intro i member
  have lt := List.mem_range.mp member
  have word := val_headSector (i := i) (by omega)
  have nonzero : Fin.ofNat 128 (i + 1) ≠ 0 := by
    intro zero
    rw [zero] at word
    exact absurd word (Nat.succ_ne_zero i).symm
  rw [headSector, headBlock, if_neg nonzero, word, if_pos (by omega), Nat.add_sub_cancel]

theorem entries_emptyHead {hb : Block} : a.redoLog.entries (headBlock (emptyHead s).lh hb) = [] := by
  rw [entries_headBlock (Int.le_refl 0) (Int.natCast_nonneg logsize)]
  rfl

theorem fits_small {ps : List Addr} (fits : a.redoLog.Fits ps) : ps.length ≤ logsize :=
  fits.room.trans (Nat.min_le_left _ _)

/-! ## What each call does to the drive -/

theorem Coherent.withLh {P : Word → Prop} (coh : Coherent P s) (lh : LogHeader) : Coherent P { s with lh := lh } :=
  ⟨coh.disk1, coh.listed, coh.filled, coh.unique, coh.clean⟩

theorem Coherent.withBusy {P : Word → Prop} (coh : Coherent P s) (busy : Bool) :
    Coherent P { s with busy := busy } :=
  ⟨coh.disk1, coh.listed, coh.filled, coh.unique, coh.clean⟩

theorem writeHead_wp (coh : Coherent a.InLog s) (small : s.lh.n ≤ logsize) : wp (writeHead a)
      (fun _ => Stored a.InLog s (a.sector 0) (headBlock s.lh (s.disk a.redoLog.header))) (Unwritten s) s := by
  have inside := a.sector_inLog a.nonempty
  have stored := store_wp (f := fun t i => headBlock t.lh (t.buf i).data) (R := fun _ =>
    Stored a.InLog s (a.sector 0) (headBlock s.lh (s.disk a.redoLog.header))) (E := Unwritten s) coh
    (apart_of_inLog inside)
    (fun i t held => by rw [held.lh, held.data inside]; rfl) (fun _ h => h) (fun _ _ h => h)
  simp only [writeHead, wp_bind, wp_get]
  refine wp_mono (wp_and (bufcacheRead_wp coh rootdev (a.sector 0)) stored) ?_ fun _ _ h => h.2
  rintro i t ⟨held, next⟩
  rw [if_neg (by rw [held.lh]; omega)]
  simp only [modifyBuf, wp_bind, wp_modify]
  exact next

structure HeadRead (a : LogArea) (s t : State) : Prop where
  disk : t.disk = s.disk
  power : t.power = s.power
  addrs : t.lh.addrs = a.redoLog.entries (s.disk a.redoLog.header)
  busy : t.busy = s.busy
  quiet : Quiet s → Quiet t
  coherent : Coherent a.InLog t

theorem readHead_wp (coh : Coherent a.InLog s) (wf : a.redoLog.WellFormed s.disk) :
    wp (readHead a) (fun _ => HeadRead a s) (fun _ t => t.disk = s.disk ∧ ¬ Quiet s) s := by
  have inside := a.sector_inLog a.nonempty
  have small : (s.disk a.redoLog.header 0).toInt ≤ logsize := by
    have short := fits_small wf
    simp only [LogArea.redoLog, List.length_map, List.length_range] at short ⊢
    omega
  simp only [readHead, wp_bind, wp_get]
  refine wp_mono (bufcacheRead_wp coh rootdev (a.sector 0)) ?_ fun _ _ h => ⟨h.1, fun quiet => quiet.not_stuck h.2⟩
  intro i t held
  have data : (t.buf i).data = s.disk a.redoLog.header := held.data inside
  rw [data, if_neg (by omega), wp_bind, wp_modify]
  refine wp_mono (bufcacheRelease_wp held.busy) ?_ fun _ _ h => h
  rintro _ u rfl
  exact
    { disk := held.disk
      power := held.power
      addrs := by
        refine List.map_congr_left ?_
        intro k member
        have lt := List.mem_range.mp member
        dsimp only [released] at lt ⊢
        rw [if_pos (by omega)]
      busy := held.busyLog
      quiet := by
        intro quiet j
        by_cases here : j = i
        · subst here
          simpa [released] using held.tidy (quiet j).2
        · have old := quiet j
          rw [← held.others here] at old
          simpa [released, here] using old
      coherent := (held.coherent.withLh _).released }

theorem not_stuck_beside {p : Word} (quiet : Quiet s) (log : Held a.InLog rootdev p s i t) (inside : a.InLog p)
    (home : a.redoLog.Home (ideAddr rootdev q)) : ¬ Stuck t rootdev q := by
  rintro (⟨j, holds, busy⟩ | taken)
  · by_cases here : j = i
    · rw [here] at holds
      have same : p = q := log.holds.2.symm.trans holds.2
      exact inside.not_home (same ▸ home)
    · rw [log.others here, (quiet j).1] at busy
      exact Bool.false_ne_true busy
  · obtain ⟨j, ne⟩ := exists_ne i
    have free := taken j
    rw [log.others ne, (quiet j).1, (quiet j).2] at free
    simp at free

theorem installBlock_wp {tail : Nat} (coh : Coherent a.InLog s) (slot : tail + 1 < a.size)
    (home : a.redoLog.Home (ideAddr rootdev (s.lh.sector tail))) : wp (installBlock a tail)
      (fun _ => Stored a.InLog s (s.lh.sector tail) (s.disk (a.redoLog.slot tail))) (Unwritten s) s := by
  have inside := a.sector_inLog slot
  simp only [installBlock, wp_bind, wp_get]
  refine wp_mono (bufcacheRead_wp coh rootdev _) ?_ ?_
  · intro lbuf t log
    rw [log.lh]
    refine wp_mono (bufcacheRead_wp log.coherent rootdev _) ?_ ?_
    · intro dbuf u dst
      have ne : lbuf ≠ dbuf := dst.ne_of_busy log.busy
      have data : (u.buf lbuf).data = s.disk (a.redoLog.slot tail) := by
        rw [dst.others ne]
        exact log.data inside
      simp only [memmove, wp_modify, data]
      refine wp_mono (bufcacheWrite_wp (by simpa using dst.busy) (by exact dst.coherent.disk1)) ?_ ?_
      · rintro _ v ⟨rfl, left⟩
        have held : (u.buf lbuf).busy = true := by rw [dst.others ne, log.busy]
        refine wp_mono (bufcacheRelease_wp (by simpa [ideWrite, State.setBuf, ne] using held)) ?_ fun _ _ h => h
        rintro _ v rfl
        refine wp_mono (bufcacheRelease_wp (by simpa [released, ideWrite, ne.symm] using dst.busy)) ?_ fun _ _ h => h
        rintro _ v rfl
        exact log.copied dst left (apart_of_home home)
      · rintro e v ⟨same, lost, empty⟩
        exact ⟨same.trans (dst.disk.trans log.disk), fun _ => ⟨lost, (dst.power.trans log.power) ▸ empty⟩⟩
    · rintro e u ⟨same, stuck⟩
      exact ⟨same.trans log.disk, fun quiet => absurd stuck (not_stuck_beside quiet log inside home)⟩
  · rintro e t ⟨same, stuck⟩
    exact ⟨same, fun quiet => absurd stuck quiet.not_stuck⟩

def Recoverable (a : LogArea) (X d : Disk) : Prop :=
  a.redoLog.WellFormed d ∧ ∀ p, a.redoLog.Home p → a.redoLog.view d p = X p

structure Installed (a : LogArea) (s : State) (i : Nat) (t : State) : Prop where
  inst : a.redoLog.Installing s.lh.addrs s.disk i t.disk
  power : s.power = t.power + i
  lh : t.lh = s.lh
  busy : t.busy = s.busy
  quiet : Quiet s → Quiet t
  coherent : Coherent a.InLog t

section Install
variable (addrs : s.lh.addrs = a.redoLog.entries (s.disk a.redoLog.header))
  (wf : a.redoLog.WellFormed s.disk)
include addrs wf

theorem Installed.recoverable {i : Nat} (now : Installed a s i t) : Recoverable a (a.redoLog.view s.disk) t.disk := by
  refine ⟨?_, fun p _ => by rw [now.inst.view addrs.symm]⟩
  rw [RedoLog.WellFormed, now.inst.recorded, addrs]
  exact wf

theorem Installed.step {i : Nat} (lt : i < s.lh.addrs.length) (now : Installed a s i t) :
    wp (installBlock a i) (fun _ => Installed a s (i + 1)) (fun e u => Recoverable a (a.redoLog.view s.disk) u.disk ∧
        (Quiet s → e = .powerLoss ∧ s.power ≤ logsize)) t := by
  have fits : a.redoLog.Fits s.lh.addrs := by
    rw [addrs]
    exact wf
  have addr : s.lh.addrs[i] = ideAddr rootdev (s.lh.sector i) := by simp [LogHeader.addrs]
  have home : a.redoLog.Home (ideAddr rootdev (t.lh.sector i)) := by
    rw [now.lh, ← addr]
    exact fits.home _ (List.getElem_mem lt)
  have slot : i + 1 < a.size := by
    have room := fits.room
    simp only [LogArea.redoLog] at room
    omega
  refine wp_mono (installBlock_wp now.coherent slot home) ?_ ?_
  · intro _ u stored
    refine ⟨?_, ?_, stored.lh.trans now.lh, stored.busy.trans now.busy, fun quiet => stored.quiet (now.quiet quiet),
      stored.coherent⟩
    · rw [stored.disk, now.lh, ← addr]
      exact now.inst.step fits lt
    · have before := now.power
      have after := stored.power
      omega
  · rintro e u ⟨same, lost⟩
    refine ⟨same ▸ now.recoverable addrs wf, fun quiet => ?_⟩
    obtain ⟨rfl, empty⟩ := lost (now.quiet quiet)
    have before := now.power
    have short := fits_small fits
    exact ⟨rfl, by omega⟩

theorem installTrans_wp (coh : Coherent a.InLog s) : wp (installTrans a) (fun _ => Installed a s s.lh.addrs.length)
      (fun e t => Recoverable a (a.redoLog.view s.disk) t.disk ∧
        (Quiet s → e = .powerLoss ∧ s.power ≤ logsize)) s := by
  simp only [installTrans, wp_bind, wp_get]
  rw [← LogHeader.length_addrs]
  refine wp_forLoop (Installed a s) ⟨.start addrs.symm, rfl, rfl, rfl, id, coh⟩ ?_
  intro i t lt now
  exact now.step addrs wf lt

end Install

structure Cleared (a : LogArea) (X : Disk) (t : State) : Prop where
  none : t.lh.n = 0
  empty : a.redoLog.entries (t.disk a.redoLog.header) = []
  home : ∀ p, a.redoLog.Home p → t.disk p = X p
  coherent : Coherent a.InLog t

theorem clearLog_wp (addrs : s.lh.addrs = a.redoLog.entries (s.disk a.redoLog.header))
    (wf : a.redoLog.WellFormed s.disk) (coh : Coherent a.InLog s) :
    wp (do installTrans a; modify emptyHead; writeHead a)
      (fun _ t => Cleared a (a.redoLog.view s.disk) t ∧ t.busy = s.busy)
      (fun e t => Recoverable a (a.redoLog.view s.disk) t.disk ∧
        (Quiet s → e = .powerLoss ∧ s.power ≤ logsize)) s := by
  refine wp_seq (installTrans_wp addrs wf coh) ?_ fun _ _ h => h
  intro _ t now
  rw [wp_bind, wp_modify]
  refine wp_mono (writeHead_wp (s := emptyHead t) (now.coherent.withLh _) (Int.natCast_nonneg logsize)) ?_ ?_
  · intro _ u stored
    refine ⟨⟨congrArg LogHeader.n stored.lh, ?_, ?_, stored.coherent⟩, stored.busy.trans now.busy⟩
    · rw [stored.disk]
      exact (congrArg _ (Function.update_self ..)).trans entries_emptyHead
    · intro p home
      rw [stored.disk]
      exact now.inst.erase addrs.symm home
  · rintro e u ⟨same, lost⟩
    refine ⟨(show u.disk = t.disk from same) ▸ now.recoverable addrs wf, fun quiet => ?_⟩
    obtain ⟨rfl, empty⟩ := lost (now.quiet quiet)
    have before := now.power
    have short : s.lh.addrs.length ≤ logsize := addrs ▸ fits_small wf
    have empty : t.power = 0 := empty
    exact ⟨rfl, by omega⟩

theorem recoverFromLog_wp {X : Disk} (coh : Coherent a.InLog s) (quiet : Quiet s)
    (recoverable : Recoverable a X s.disk) : wp (recoverFromLog a) (fun _ t => Cleared a X t ∧ t.busy = s.busy)
      (fun e t => Recoverable a X t.disk ∧ e = .powerLoss ∧ s.power ≤ logsize) s := by
  obtain ⟨wf, view⟩ := recoverable
  refine wp_seq (readHead_wp coh wf) ?_ fun _ _ h => absurd quiet h.2
  intro _ t head
  have addrs : t.lh.addrs = a.redoLog.entries (t.disk a.redoLog.header) := by rw [head.addrs, head.disk]
  refine wp_mono (clearLog_wp addrs (head.disk ▸ wf) head.coherent) ?_ ?_
  · rintro _ u ⟨cleared, busy⟩
    rw [head.disk] at cleared
    exact ⟨{ cleared with home := fun p home => (cleared.home p home).trans (view p home) }, busy.trans head.busy⟩
  · rintro e u ⟨⟨wellFormed, same⟩, lost⟩
    rw [head.disk] at same
    exact ⟨⟨wellFormed, fun p home => (same p home).trans (view p home)⟩, head.power ▸ lost (head.quiet quiet)⟩

end Certikos.Fs
