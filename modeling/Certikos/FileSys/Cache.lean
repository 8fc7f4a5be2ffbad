import Certikos.FileSys.Kernel

/-!
# The drive, the buffer cache, the log and the blocks

`ide.c`, `bufcache.c`, `log.c` and `block.c`, as a process runs them among others.
-/

namespace Certikos.FileSys
open Lib
open Fs (nbuf Block Buf LogHeader rootdev logsize headBlock headSector logSlot)

/-! ## `ide.c` -/

def State.ideStart (s : State) (b : Fin nbuf) : State :=
  { s with
    command := (s.buf b).addr
    disk := if (s.buf b).dirty = true then Function.update s.disk (s.buf b).addr (s.buf b).data else s.disk }

def ideIntr (error : Bool) : KernM PUnit := do
  acquire .ide
  let s ← Code.get
  match s.idequeue with
  | [] => release .ide
  | b :: rest => do
      Code.modify fun s => { s with idequeue := rest }
      (if (s.buf b).dirty = false ∧ error = false then
        Code.modify fun s => s.setBuf b { s.buf b with data := s.disk s.command }
      else pure ⟨⟩)
      modifyBuf b fun x => { x with valid := true, dirty := false }
      threadWakeup (.buf b)
      (match rest with
        | [] => pure ⟨⟩
        | next :: _ => Code.modify (State.ideStart · next))
      release .ide

def ideRw (b : Fin nbuf) : KernM PUnit := do
  let s ← Code.get
  if (s.buf b).busy = false then kernPanic "ide_rw: buf not busy"
  else if (s.buf b).valid = true ∧ (s.buf b).dirty = false then kernPanic "ide_rw: nothing to do"
  else if (s.buf b).dev ≠ 0 ∧ s.havedisk1 = false then kernPanic "ide_rw: ide disk 1 not present"
  else do
    acquire .ide
    let s ← Code.get
    Code.modify fun s => { s with idequeue := s.idequeue ++ [b] }
    (if s.idequeue = [] then Code.modify (State.ideStart · b) else pure ⟨⟩)
    sleepWhile .ide fun s =>
      if (s.buf b).valid = true ∧ (s.buf b).dirty = false then none else some (.buf b)
    release .ide

/-! ## `bufcache.c` -/

def State.cached (s : State) (dev sector : Word) : Option (Fin nbuf) :=
  s.mru.find? fun b => (s.buf b).Holds dev sector

def State.recyclable (s : State) : Option (Fin nbuf) :=
  s.mru.reverse.find? fun b => !(s.buf b).busy && !(s.buf b).dirty

def bufcacheGet (dev sector : Word) : KernM (Fin nbuf) := do
  acquire .bcache
  -- `loop:` to `goto loop`, while the buffer found is busy
  sleepWhile .bcache fun s =>
    match s.cached dev sector with
    | some b => if (s.buf b).busy = true then some (.buf b) else none
    | none => none
  let s ← Code.get
  match s.cached dev sector with
  | some b => do
      modifyBuf b fun x => { x with busy := true }
      Code.note (.take (.buf b))
      release .bcache
      pure b
  | none =>
    match s.recyclable with
    | some b => do
        modifyBuf b fun x =>
          { x with dev := dev, sector := sector, busy := true, valid := false, dirty := false }
        Code.note (.take (.buf b))
        release .bcache
        pure b
    | none => kernPanic "bufcache_get: no buffers"

def bufcacheRead (dev sector : Word) : KernM (Fin nbuf) := do
  Code.note (.block dev sector)
  let b ← bufcacheGet dev sector
  let s ← Code.get
  (if (s.buf b).valid = false then ideRw b else pure ⟨⟩)
  pure b

def bufcacheWrite (b : Fin nbuf) : KernM PUnit := do
  let s ← Code.get
  if (s.buf b).busy = false then kernPanic "bwrite"
  else do
    modifyBuf b fun x => { x with dirty := true }
    ideRw b

def bufcacheRelease (b : Fin nbuf) : KernM PUnit := do
  let s ← Code.get
  if (s.buf b).busy = false then kernPanic "brelse"
  else do
    acquire .bcache
    Code.modify fun s => { s with mru := b :: s.mru.erase b }
    modifyBuf b fun x => { x with busy := false }
    Code.note (.drop (.buf b))
    threadWakeup (.buf b)
    release .bcache

def modifyData (b : Fin nbuf) (f : Block → Block) : KernM PUnit := modifyBuf b fun x => { x with data := f x.data }

def memmove (dst src : Fin nbuf) : KernM PUnit :=
  Code.modify fun s => s.setBuf dst { s.buf dst with data := (s.buf src).data }

def readSuperblock (dev : Word) : KernM Superblock := do
  let bp ← bufcacheRead dev 1
  let s ← Code.get
  bufcacheRelease bp
  pure (superblockOf (s.buf bp).data)

/-! ## `log.c` -/

def installBlock (tail : Nat) : KernM PUnit := do
  let s ← Code.get
  let lbuf ← bufcacheRead s.log.dev (s.log.start + BitVec.ofNat 32 tail + 1)
  let s ← Code.get
  let dbuf ← bufcacheRead s.log.dev (s.log.lh.sector tail)
  memmove dbuf lbuf
  bufcacheWrite dbuf
  bufcacheRelease lbuf
  bufcacheRelease dbuf

/-- Each round reads `log.lh.n` anew. The header never has more than `LOGSIZE` sectors. -/
def installLoop : Nat → Nat → KernM PUnit
  | 0, _ => Code.stop .loops
  | fuel + 1, tail => do
      let s ← Code.get
      if (tail : Int) < s.log.lh.n then do
        installBlock tail
        installLoop fuel (tail + 1)
      else pure ⟨⟩

def installTrans : KernM PUnit := installLoop (logsize + 1) 0

def readHead : KernM PUnit := do
  let s ← Code.get
  let buf ← bufcacheRead s.log.dev s.log.start
  let s ← Code.get
  let hb := (s.buf buf).data
  if (logsize : Int) < (hb (Fin.ofNat 128 0)).toInt then Code.stop .wildAccess
  else do
    modifyLog fun log =>
      { log with
        lh :=
          ⟨(hb (Fin.ofNat 128 0)).toInt,
            fun k => if (k : Int) < (hb (Fin.ofNat 128 0)).toInt then headSector hb k else log.lh.sector k⟩ }
    bufcacheRelease buf

def writeHead : KernM PUnit := do
  let s ← Code.get
  let buf ← bufcacheRead s.log.dev s.log.start
  let s ← Code.get
  if (logsize : Int) < s.log.lh.n then Code.stop .wildAccess
  else do
    modifyData buf (headBlock s.log.lh)
    bufcacheWrite buf
    bufcacheRelease buf

def emptyHead : KernM PUnit := modifyLog fun log => { log with lh := { log.lh with n := 0 } }

def recoverFromLog : KernM PUnit := do
  readHead
  installTrans
  emptyHead
  writeHead
  Code.note .recovered

def logInit : KernM PUnit := do
  Code.note .logInit
  Code.modify (State.setLock · .log false)
  let sb ← readSuperblock rootdev
  modifyLog fun log => { log with start := sb.size - sb.nlog, size := sb.nlog, dev := rootdev }
  recoverFromLog

def beginTrans : KernM PUnit := do
  acquire .log
  sleepWhile .log fun s => if s.log.busy = true then some .log else none
  modifyLog fun log => { log with busy := true }
  Code.note .beginTrans
  release .log

def commitTrans : KernM PUnit := do
  let s ← Code.get
  (if 0 < s.log.lh.n then do
    writeHead
    installTrans
    emptyHead
    writeHead
  else pure ⟨⟩)
  acquire .log
  modifyLog fun log => { log with busy := false }
  Code.note .commitTrans
  threadWakeup .log
  release .log

def logWrite (b : Fin nbuf) : KernM PUnit := do
  let s ← Code.get
  Code.note (.logWrite (s.buf b).sector)
  let n := s.log.lh.n
  let size := s.log.size.toInt
  if (logsize : Int) ≤ n ∨ size - 1 ≤ n then kernPanic s!"too big a transaction. {size} < {n} <= {logsize}"
  else if s.log.busy = false then kernPanic "write outside of trans"
  else do
    let i := logSlot s.log.lh (s.buf b).sector
    modifyLog fun log =>
      { log with lh := { log.lh with sector := Function.update log.lh.sector i (s.buf b).sector } }
    let lbuf ← bufcacheRead (s.buf b).dev (s.log.start + BitVec.ofNat 32 i + 1)
    memmove lbuf b
    bufcacheWrite lbuf
    bufcacheRelease lbuf
    modifyLog fun log =>
      { log with lh := { log.lh with n := if (i : Int) = log.lh.n then log.lh.n + 1 else log.lh.n } }
    modifyBuf b fun x => { x with dirty := true }

/-! ## `block.c` -/

def blockZero (dev bno : Word) : KernM PUnit := do
  let bp ← bufcacheRead dev bno
  modifyData bp fun _ _ => 0
  logWrite bp
  bufcacheRelease bp

@[irreducible] def freeBit (data : Block) (b : Nat) (size : Word) : Option Nat :=
  (List.range bpb).find? fun bi => b + bi < size.toNat && !bitAt data bi

def blockAllocLoop (dev : Word) (sb : Superblock) : Nat → Nat → KernM Word
  | 0, _ => Code.stop .loops
  | fuel + 1, b =>
    if b < sb.size.toNat then do
      let bp ← bufcacheRead dev (bblock (BitVec.ofNat 32 b) sb.ninodes)
      let s ← Code.get
      match freeBit (s.buf bp).data b sb.size with
      | some bi => do
          Code.note (.blockAlloc (some (BitVec.ofNat 32 (b + bi))))
          modifyData bp (setBit · bi true)
          logWrite bp
          bufcacheRelease bp
          blockZero dev (BitVec.ofNat 32 (b + bi))
          pure (BitVec.ofNat 32 (b + bi))
      | none => do
          bufcacheRelease bp
          blockAllocLoop dev sb fuel (b + bpb)
    else do
      -- "balloc: out of blocks" is a string and no more: there is no return statement
      Code.note (.blockAlloc none)
      let s ← Code.get
      Code.modify fun s => { s with eax := fun k => s.eax (k + 1) }
      pure (s.eax 0)

def blockAlloc (dev : Word) : KernM Word := do
  let sb ← readSuperblock dev
  blockAllocLoop dev sb (sb.size.toNat / bpb + 2) 0

def blockFree (dev b : Word) : KernM PUnit := do
  let sb ← readSuperblock dev
  let bp ← bufcacheRead dev (bblock b sb.ninodes)
  let bi := b.toNat % bpb
  let s ← Code.get
  if bitAt (s.buf bp).data bi = false then kernPanic "freeing free block"
  else do
    modifyData bp (setBit · bi false)
    logWrite bp
    bufcacheRelease bp

end Certikos.FileSys
