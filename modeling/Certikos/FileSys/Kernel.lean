import Certikos.Fs.Log
import Certikos.Lib.Turns

/-!
# The file system as processes share it

The data of `kern/fs` and `kern/dev/disk/ide.c`, its spinlocks, and the two thread operations it uses. Kernel code
runs on one CPU with interrupts off, so a process gives up the machine only in `thread_sleep`; which of the runnable
ones goes on then is left open.
-/

namespace Certikos.FileSys
open Lib Function
open Fs (nbuf Block Disk Addr Buf LogHeader)

abbrev nofile : Nat := 16
abbrev nfile : Nat := 100
abbrev ninode : Nat := 50
abbrev ndev : Nat := 10
abbrev rootino : Word := 1
abbrev bsize : Nat := 512
abbrev ndirect : Nat := 12
abbrev nindirect : Nat := 128
abbrev maxfile : Nat := ndirect + nindirect
abbrev ipb : Nat := 8
abbrev bpb : Nat := 4096
abbrev dirsiz : Nat := 14
abbrev direntSize : Nat := 16

abbrev tDir : BitVec 16 := 1
abbrev tFile : BitVec 16 := 2
abbrev tDev : BitVec 16 := 3

instance (priority := high) neZeroWords : NeZero (128 : Nat) := ⟨by decide⟩

instance (priority := high) neZeroAddrs : NeZero (ndirect + 1) := ⟨by decide⟩

instance (priority := high) neZeroNinode : NeZero ninode := ⟨by decide⟩

structure Dinode where
  type : BitVec 16
  major : BitVec 16
  minor : BitVec 16
  nlink : BitVec 16
  size : Word
  addrs : Fin (ndirect + 1) → Word

structure Inode extends Dinode where
  dev : Word
  inum : Word
  ref : Int
  busy : Bool
  valid : Bool

abbrev Slot := Option (Fin ninode)

inductive FdType
  | none | pipe | inode
  deriving DecidableEq

structure File where
  type : FdType
  ref : Int
  readable : Bool
  writable : Bool
  ip : Slot
  off : Word

structure Log where
  start : Word
  size : Word
  busy : Bool
  dev : Word
  lh : LogHeader

inductive Lock
  | sched | ide | buf | bcache | inodeCache | ftable | log
  deriving DecidableEq

inductive Chan
  | buf (b : Fin nbuf)
  | inode (ip : Slot)
  | log
  deriving DecidableEq

inductive Life
  | running
  | asleep (chan : Chan)
  | dead
  deriving DecidableEq

structure State where
  locks : Lock → Bool
  thread : Nat → Life
  buf : Fin nbuf → Buf
  /-- `bcache.head.next` onwards: the most recently used buffer first. -/
  mru : List (Fin nbuf)
  idequeue : List (Fin nbuf)
  command : Addr
  disk : Disk
  havedisk1 : Bool
  log : Log
  /-- The inode cache; at `none`, what the null pointer points to. -/
  inode : Slot → Inode
  file : Fin nfile → File
  openfiles : Nat → Nat → Option (Fin nfile)
  cwd : Nat → Slot
  /-- `first` of `sys_open`. -/
  first : Bool
  /-- Whether `devsw[major].read` and `devsw[major].write` are set; `devsw` itself never is. -/
  devsw : Nat → Bool × Bool
  /-- What `block_alloc` leaves in `%eax` when it falls off its end, time after time. -/
  eax : Nat → Word

/-- A trap into the kernel, with what it reads of its arguments: a path is the bytes at the user's address, `data` is
`kern_buf` once it has been filled, `stack` is what lies in the frame of the handler. -/
inductive Trap
  | read (fd userBuf n : Word)
  | write (fd userBuf n : Word) (data : List Byte)
  | close (fd : Word)
  | fstat (fd userStp : Word)
  | link (old new : List Byte)
  | unlink (path : List Byte)
  | open (path : List Byte) (omode : Word)
  | mkdir (path : List Byte)
  | chdir (path : List Byte)
  | ls (bufLen : Word) (stack : List Byte)
  | pwd (stack : List Byte)
  | isDir (fd : Word)
  | kill (pid signum : Word)
  | ideIntr (error : Bool)
  deriving DecidableEq

structure Reply where
  errno : Option ErrorNr
  retval : Option Word
  out : List Byte
  deriving DecidableEq

inductive Resource
  | inode (ip : Slot)
  | buf (b : Fin nbuf)
  deriving DecidableEq

inductive Note
  | enter (t : Trap)
  | leave (r : Reply)
  | take (r : Resource)
  | drop (r : Resource)
  | beginTrans
  | commitTrans
  | logWrite (sector : Word)
  | frees (ip : Slot)
  | hole (ip : Slot) (bn : Word)
  | block (dev sector : Word)
  /-- An entry of the inode cache is looked up, referred to, locked, read or put. -/
  | inode (ip : Slot)
  | logInit
  | recovered
  | killed (pid : Nat)
  /-- A caller of the buffer cache changes the data of a buffer. -/
  | edits (b : Fin nbuf)
  /-- It has logged its changes, or hands them to `bufcache_write`. -/
  | saves (b : Fin nbuf)
  | blockAlloc (found : Option Word)
  | entry (dp : Slot) (nlink : BitVec 16)
  deriving DecidableEq

inductive Stop
  | panic (message : String)
  | spins (l : Lock)
  | wildAccess
  | loops
  deriving DecidableEq

abbrev KernM := Code Nat State Stop Note

def kernPanic {α : Type} (message : String) : KernM α := Code.stop (.panic message)

def State.setLock (s : State) (l : Lock) (taken : Bool) : State :=
  { s with locks := update s.locks l taken }

def acquire (l : Lock) : KernM PUnit := do
  let s ← Code.get
  if s.locks l = true then Code.stop (.spins l)
  else Code.modify (State.setLock · l true)

def release (l : Lock) : KernM PUnit := Code.modify (State.setLock · l false)

/-- `thread_sleep(chan, lk)` up to the switch; `sched_lk` is free again by then. -/
def State.fallAsleep (s : State) (p : Nat) (chan : Chan) (lk : Lock) : State :=
  { s.setLock lk false with thread := update s.thread p (.asleep chan) }

/-- `while (blocked) thread_sleep(chan, lk)`, where the channel may differ from one test to the next. -/
def sleepWhile (lk : Lock) (blocked : State → Option Chan) : KernM PUnit := fun p s =>
  match blocked s with
  | none => .done ⟨⟩ s
  | some chan =>
    if s.locks .sched = true then .stop (.spins .sched) s
    else
      .wait (s.fallAsleep p chan lk)
        -- a thread that is switched to takes both locks again before it tests the condition
        (fun s =>
          if s.locks .sched = true ∨ s.locks lk = true then none
          else (blocked s).map fun chan => s.fallAsleep p chan lk)
        fun s =>
          if s.locks .sched = true then .stop (.spins .sched) s
          else if s.locks lk = true then .stop (.spins lk) s
          else .done ⟨⟩ (s.setLock lk true)

def State.wake (s : State) (chan : Chan) : State :=
  { s with thread := fun q => if 1 ≤ q ∧ q < numIds ∧ s.thread q = .asleep chan then .running else s.thread q }

def threadWakeup (chan : Chan) : KernM PUnit := do
  acquire .sched
  Code.modify (State.wake · chan)
  release .sched

def State.setBuf (s : State) (b : Fin nbuf) (x : Buf) : State := { s with buf := update s.buf b x }

def modifyBuf (b : Fin nbuf) (f : Buf → Buf) : KernM PUnit := Code.modify fun s => s.setBuf b (f (s.buf b))

def State.setInode (s : State) (ip : Slot) (x : Inode) : State := { s with inode := update s.inode ip x }

def modifyInode (ip : Slot) (f : Inode → Inode) : KernM PUnit := Code.modify fun s => s.setInode ip (f (s.inode ip))

def State.setFile (s : State) (f : Fin nfile) (x : File) : State := { s with file := update s.file f x }

def modifyFile (f : Fin nfile) (g : File → File) : KernM PUnit := Code.modify fun s => s.setFile f (g (s.file f))

def modifyLog (f : Log → Log) : KernM PUnit := Code.modify fun s => { s with log := f s.log }

/-! ## What a block holds -/

def blockByte (b : Block) (i : Nat) : Byte := byteOf (b (Fin.ofNat 128 (i / 4))) (i % 4)

def blockBytes (b : Block) (off n : Nat) : List Byte := (List.range n).map fun i => blockByte b (off + i)

def setBytes (b : Block) (off : Nat) (src : List Byte) : Block := fun w =>
  let byte (i : Nat) := if off ≤ i ∧ i < off + src.length then src.getD (i - off) 0 else blockByte b i
  wordOf (byte (4 * w.val)) (byte (4 * w.val + 1)) (byte (4 * w.val + 2)) (byte (4 * w.val + 3))

structure Superblock where
  size : Word
  nblocks : Word
  ninodes : Word
  nlog : Word

def superblockOf (b : Block) : Superblock :=
  ⟨b (Fin.ofNat 128 0), b (Fin.ofNat 128 1), b (Fin.ofNat 128 2), b (Fin.ofNat 128 3)⟩

def iblock (inum : Word) : Word := inum / BitVec.ofNat 32 ipb + 2

def bblock (b ninodes : Word) : Word := b / BitVec.ofNat 32 bpb + ninodes / BitVec.ofNat 32 ipb + 3

def Dinode.word (d : Dinode) (j : Nat) : Word :=
  if j = 0 then d.major ++ d.type
  else if j = 1 then d.nlink ++ d.minor
  else if j = 2 then d.size
  else d.addrs (Fin.ofNat (ndirect + 1) (j - 3))

def dinodeAt (b : Block) (inum : Word) : Dinode :=
  let word (j : Nat) := b (Fin.ofNat 128 (16 * (inum.toNat % ipb) + j))
  { type := (word 0).extractLsb' 0 16
    major := (word 0).extractLsb' 16 16
    minor := (word 1).extractLsb' 0 16
    nlink := (word 1).extractLsb' 16 16
    size := word 2
    addrs := fun k => word (k.val + 3) }

def setDinode (b : Block) (inum : Word) (d : Dinode) : Block := fun w =>
  if w.val / 16 = inum.toNat % ipb then d.word (w.val % 16) else b w

def bitAt (b : Block) (bi : Nat) : Bool := (b (Fin.ofNat 128 (bi / 32))).getLsbD (bi % 32)

def setBit (b : Block) (bi : Nat) (set : Bool) : Block := fun w =>
  if w.val = bi / 32 then
    if set = true then b w ||| (1 : Word) <<< (bi % 32) else b w &&& ~~~((1 : Word) <<< (bi % 32))
  else b w

/-- The 16 bytes of a `struct dirent`: `inum`, then `name` as `strncpy` fills it. -/
def direntBytes (inum : BitVec 16) (name : List Byte) : List Byte :=
  [inum.extractLsb' 0 8, inum.extractLsb' 8 8] ++ (name.take dirsiz ++ List.replicate dirsiz 0).take dirsiz

def direntInum (de : List Byte) : BitVec 16 := de.getD 1 0 ++ de.getD 0 0

def direntName (de : List Byte) : List Byte := de.drop 2

def cstring (bs : List Byte) : List Byte := bs.takeWhile fun c => c ≠ 0

end Certikos.FileSys
