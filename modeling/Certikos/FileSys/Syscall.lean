import Certikos.FileSys.Inode

/-!
# Open files and the system calls

`file.c`, `sysfile.c`, and `sys_ls`, `sys_pwd`, `sys_is_dir` and `sys_kill` of `TSyscall.c`. Copying to and from user
memory is left to the traps and replies.
-/

namespace Certikos.FileSys
open Lib Function
open BitVec (ofNat)
open Fs (Disk rootdev)

/-! ## `file.c` -/

def fileAlloc : KernM (Option (Fin nfile)) := do
  acquire .ftable
  let s ← Code.get
  match (List.finRange nfile).find? fun f => (s.file f).ref = 0 with
  | some f => do
      modifyFile f fun x => { x with ref := 1 }
      release .ftable
      pure (some f)
  | none => do
      release .ftable
      pure none

def fileClose (f : Fin nfile) : KernM PUnit := do
  acquire .ftable
  let s ← Code.get
  if (s.file f).ref < 1 then kernPanic "file_close"
  else if 0 < (s.file f).ref - 1 then do
    modifyFile f fun x => { x with ref := x.ref - 1 }
    release .ftable
  else do
    modifyFile f fun x => { x with ref := 0, type := .none }
    release .ftable
    let ff := s.file f
    if ff.type = .inode then do
      beginTrans
      inodePut ff.ip
      commitTrans
    else pure ⟨⟩

structure FileStat where
  type : BitVec 16
  dev : Word
  ino : Word
  nlink : BitVec 16
  size : Word

def inodeStat (x : Inode) : FileStat := ⟨x.type, x.dev, x.inum, x.nlink, x.size⟩

def fileStat (f : Fin nfile) : KernM (Option FileStat) := do
  let s ← Code.get
  if (s.file f).type = .inode then do
    let ip := (s.file f).ip
    inodeLock ip
    let s ← Code.get
    inodeUnlock ip
    pure (some (inodeStat (s.inode ip)))
  else pure none

def fileRead (f : Fin nfile) (n : Word) : KernM (Option (List Byte)) := do
  let s ← Code.get
  if (s.file f).readable = false then pure none
  else if (s.file f).type = .inode then do
    let ip := (s.file f).ip
    inodeLock ip
    let s ← Code.get
    let read ← inodeRead ip (s.file f).off n
    modifyFile f fun x => { x with off := x.off + ofNat 32 (read.getD []).length }
    inodeUnlock ip
    pure read
  else kernPanic "file_read"

abbrev maxChunk : Nat := (Fs.logsize - 1 - 1 - 2) / 2 * 512

def fileWriteLoop (f : Fin nfile) : Nat → List Byte → KernM Bool
  | 0, data => if data = [] then pure true else Code.stop .loops
  | fuel + 1, data =>
    if data = [] then pure true
    else do
      let chunk := data.take maxChunk
      beginTrans
      let s ← Code.get
      let ip := (s.file f).ip
      inodeLock ip
      let s ← Code.get
      let written ← inodeWrite ip chunk (s.file f).off
      (if written = true then
        modifyFile f fun x => { x with off := x.off + ofNat 32 chunk.length }
      else pure ⟨⟩)
      inodeUnlock ip
      commitTrans
      if written = true then fileWriteLoop f fuel (data.drop maxChunk) else pure false

def fileWrite (f : Fin nfile) (data : List Byte) : KernM Bool := do
  let s ← Code.get
  if (s.file f).writable = false then pure false
  else if (s.file f).type = .inode then fileWriteLoop f data.length data
  else kernPanic "file_write"

/-! ## `sysfile.c` -/

def failed (e : ErrorNr) : Reply := ⟨some e, none, []⟩

def failedWith (e : ErrorNr) : Reply := ⟨some e, some (-1), []⟩

def succeeded : Reply := ⟨some .succ, none, []⟩

def State.openfile (s : State) (p : Nat) (fd : Word) : Option (Fin nfile) := s.openfiles p fd.toNat

def setOpenfile (p fd : Nat) (f : Option (Fin nfile)) : KernM PUnit := Code.modify fun s =>
  { s with openfiles := update s.openfiles p (update (s.openfiles p) fd f) }

def fdalloc (f : Fin nfile) : KernM (Option Nat) := do
  let p ← Code.self
  let s ← Code.get
  match (List.range nofile).find? fun fd => s.openfiles p fd = none with
  | some fd => do
      setOpenfile p fd (some f)
      pure (some fd)
  | none => pure none

def badArgs (fd userBuf n : Word) : Option ErrorNr :=
  if fd.toInt < 0 ∨ (nofile : Int) ≤ fd.toInt then some .badf
  else if userBuf.toNat < vmUserlo ∨ vmUserhi < (userBuf + n).toNat ∨ 10000 < n.toNat then some .invalAddr
  else none

def State.inodeFile (s : State) (p : Nat) (fd : Word) : Option (Fin nfile) :=
  (s.openfile p fd).filter fun f => (s.file f).ip ≠ none

def readLocked (fd userBuf n : Word) : KernM Reply := do
  let p ← Code.self
  match badArgs fd userBuf n with
  | some e => pure (failedWith e)
  | none => do
      let s ← Code.get
      match s.inodeFile p fd with
      | none => pure (failedWith .badf)
      | some fp => do
          let read ← fileRead fp n
          match read with
          | some bytes => pure ⟨some .succ, some (ofNat 32 bytes.length), bytes⟩
          | none => pure (failedWith .succ)

def sysRead (fd userBuf n : Word) : KernM Reply := do
  acquire .buf
  let reply ← readLocked fd userBuf n
  release .buf
  pure reply

def writeLocked (fd userBuf n : Word) (data : List Byte) : KernM Reply := do
  let p ← Code.self
  match badArgs fd userBuf n with
  | some e => pure (failedWith e)
  | none => do
      let s ← Code.get
      match s.inodeFile p fd with
      | none => pure (failedWith .badf)
      | some fp => do
          let written ← fileWrite fp ((List.range n.toNat).map fun i => data.getD i 0)
          if written = true then pure ⟨some .succ, some n, []⟩ else pure (failedWith .succ)

def sysWrite (fd userBuf n : Word) (data : List Byte) : KernM Reply := do
  acquire .buf
  let reply ← writeLocked fd userBuf n data
  release .buf
  pure reply

def sysClose (fd : Word) : KernM Reply := do
  let p ← Code.self
  let s ← Code.get
  if nofile ≤ fd.toNat then pure (failedWith .badf)
  else
    match s.openfile p fd with
    | none => pure (failedWith .badf)
    | some fp => do
        fileClose fp
        setOpenfile p fd.toNat none
        pure ⟨some .succ, some 0, []⟩

def sizeofFileStat : Nat := 20

def sysFstat (fd userStp : Word) : KernM Reply := do
  let p ← Code.self
  let s ← Code.get
  if fd.toInt < 0 ∨ (nofile : Int) ≤ fd.toInt ∨ userStp.toNat < vmUserlo ∨
      vmUserhi < (userStp + ofNat 32 sizeofFileStat).toNat then pure (failedWith .badf)
  else
    match s.openfile p fd with
    | none => pure (failedWith .badf)
    | some fp => do
        let st ← fileStat fp
        match st with
        | some _ => pure ⟨some .succ, some 0, []⟩
        | none => pure (failedWith .badf)

def pathBuf (path : List Byte) : List Byte := cstring (path.take 127)

def undoLink (ip : Slot) : KernM Reply := do
  inodeLock ip
  modifyInode ip fun x => { x with nlink := x.nlink - 1 }
  inodeUpdate ip
  inodeUnlockput ip
  commitTrans
  pure (failed .diskOp)

def finishLink (ip dp : Slot) (linked : Bool) : KernM Reply := do
  inodeUnlockput dp
  if linked = true then do
    inodePut ip
    commitTrans
    pure succeeded
  else undoLink ip

def sysLink (old new : List Byte) : KernM Reply := do
  let ip ← namei (pathBuf old)
  if ip = none then pure (failed .nexist)
  else do
    beginTrans
    inodeLock ip
    let s ← Code.get
    if (s.inode ip).type = tDir then do
      inodeUnlockput ip
      commitTrans
      pure (failed .diskOp)
    else do
      modifyInode ip fun x => { x with nlink := x.nlink + 1 }
      inodeUpdate ip
      inodeUnlock ip
      let found ← nameiparent (pathBuf new)
      let dp := found.1
      if dp = none then undoLink ip
      else do
        inodeLock dp
        let s ← Code.get
        let linked ←
          if (s.inode dp).dev ≠ (s.inode ip).dev then pure false else dirLink dp found.2 (s.inode ip).inum
        finishLink ip dp linked

def isdiremptyLoop (dp : Slot) : Nat → Word → KernM Bool
  | 0, _ => Code.stop .loops
  | fuel + 1, off => do
      let s ← Code.get
      if off < (s.inode dp).size then do
        let read ← inodeRead dp off (ofNat 32 direntSize)
        match read with
        | none => kernPanic "isdirempty: readi"
        | some de =>
          if de.length ≠ direntSize then kernPanic "isdirempty: readi"
          else if direntInum de ≠ 0 then pure false
          else isdiremptyLoop dp fuel (off + ofNat 32 direntSize)
      else pure true

def isdirempty (dp : Slot) : KernM Bool := isdiremptyLoop dp direntFuel (ofNat 32 (2 * direntSize))

abbrev dot : List Byte := [46]
abbrev dotdot : List Byte := [46, 46]

def undoUnlink (dp : Slot) : KernM Reply := do
  inodeUnlockput dp
  commitTrans
  pure (failed .diskOp)

def removeEntry (dp ip : Slot) (off : Word) (empty : Bool) : KernM Reply := do
  if empty = false then do
    inodeUnlockput ip
    undoUnlink dp
  else do
    let written ← inodeWrite dp (direntBytes 0 []) off
    if written = false then kernPanic "unlink: writei"
    else do
      let s ← Code.get
      (if (s.inode ip).type = tDir then do
        modifyInode dp fun x => { x with nlink := x.nlink - 1 }
        inodeUpdate dp
      else pure ⟨⟩)
      inodeUnlockput dp
      modifyInode ip fun x => { x with nlink := x.nlink - 1 }
      inodeUpdate ip
      inodeUnlockput ip
      commitTrans
      pure succeeded

def sysUnlink (path : List Byte) : KernM Reply := do
  let parent ← nameiparent (pathBuf path)
  let dp := parent.1
  let name := parent.2
  if dp = none then pure (failed .diskOp)
  else do
    beginTrans
    inodeLock dp
    if dirNamecmp name dot = true ∨ dirNamecmp name dotdot = true then undoUnlink dp
    else do
      let found ← dirLookup dp name
      let ip := found.1
      if ip = none then undoUnlink dp
      else do
        inodeLock ip
        let s ← Code.get
        if (s.inode ip).nlink.toInt < 1 then kernPanic "unlink: nlink < 1"
        else do
          let empty ← if (s.inode ip).type = tDir then isdirempty ip else pure true
          removeEntry dp ip found.2 empty

def createNew (dp : Slot) (name : List Byte) (type major minor : BitVec 16) : KernM Slot := do
  let s ← Code.get
  let ip ← inodeAlloc (s.inode dp).dev type
  inodeLock ip
  modifyInode ip fun x => { x with major := major, minor := minor, nlink := 1 }
  inodeUpdate ip
  (if type = tDir then do
    modifyInode dp fun x => { x with nlink := x.nlink + 1 }
    inodeUpdate dp
    let s ← Code.get
    let self ← dirLink ip dot (s.inode ip).inum
    if self = false then kernPanic "create dots"
    else do
      let s ← Code.get
      let parent ← dirLink ip dotdot (s.inode dp).inum
      if parent = false then kernPanic "create dots" else pure ⟨⟩
  else pure ⟨⟩)
  let s ← Code.get
  let linked ← dirLink dp name (s.inode ip).inum
  if linked = false then kernPanic "create: dir_link"
  else do
    inodeUnlockput dp
    pure ip

def create (path : List Byte) (type major minor : BitVec 16) : KernM Slot := do
  let parent ← nameiparent path
  let dp := parent.1
  if dp = none then pure none
  else do
    inodeLock dp
    let found ← dirLookup dp parent.2
    let ip := found.1
    if ip ≠ none then do
      inodeUnlockput dp
      inodeLock ip
      let s ← Code.get
      if type = tFile ∧ (s.inode ip).type = tFile then pure ip
      else do
        inodeUnlockput ip
        pure none
    else createNew dp parent.2 type major minor

abbrev oRdonly : Word := 0
abbrev oWronly : Word := 1
abbrev oRdwr : Word := 2
abbrev oCreate : Word := 0x200

def openInode (ip : Slot) (omode : Word) : KernM Reply := do
  let f ← fileAlloc
  match f with
  | none => do
      inodeUnlockput ip
      pure (failedWith .diskOp)
  | some f => do
      let fd ← fdalloc f
      match fd with
      | none => do
          fileClose f
          inodeUnlockput ip
          pure (failedWith .diskOp)
      | some fd => do
          inodeUnlock ip
          modifyFile f fun x =>
            { x with
              type := .inode
              ip := ip
              off := 0
              readable := omode &&& oWronly = 0
              writable := omode &&& oWronly ≠ 0 ∨ omode &&& oRdwr ≠ 0 }
          pure ⟨some .succ, some (ofNat 32 fd), []⟩

def sysOpen (path : List Byte) (omode : Word) : KernM Reply := do
  let s ← Code.get
  (if s.first = true then do
    Code.modify fun s => { s with first := false }
    logInit
  else pure ⟨⟩)
  if omode &&& oCreate ≠ 0 then do
    beginTrans
    let ip ← create (pathBuf path) tFile 0 0
    commitTrans
    if ip = none then pure (failedWith .create) else openInode ip omode
  else do
    let ip ← namei (pathBuf path)
    if ip = none then pure (failedWith .nexist)
    else do
      inodeLock ip
      let s ← Code.get
      if (s.inode ip).type = tDir ∧ omode ≠ oRdonly then do
        inodeUnlockput ip
        pure (failedWith .diskOp)
      else openInode ip omode

def sysMkdir (path : List Byte) : KernM Reply := do
  beginTrans
  let ip ← create (pathBuf path) tDir 0 0
  if ip = none then do
    commitTrans
    pure (failed .diskOp)
  else do
    inodeUnlockput ip
    commitTrans
    pure succeeded

def setCwd (p : Nat) (ip : Slot) : KernM PUnit := Code.modify fun s => { s with cwd := update s.cwd p ip }

def sysChdir (path : List Byte) : KernM Reply := do
  let p ← Code.self
  let ip ← namei (pathBuf path)
  if ip = none then pure (failed .diskOp)
  else do
    inodeLock ip
    let s ← Code.get
    if (s.inode ip).type ≠ tDir then do
      inodeUnlockput ip
      pure (failed .diskOp)
    else do
      inodeUnlock ip
      let s ← Code.get
      inodePut (s.cwd p)
      setCwd p ip
      pure succeeded

/-! ## `TSyscall.c` -/

def getCwd : KernM Slot := do
  let p ← Code.self
  let s ← Code.get
  if s.cwd p = none then do
    let ip ← inodeGet rootdev rootino
    setCwd p ip
    pure ip
  else pure (s.cwd p)

/-- The names of the entries, each with a blank after it. A name of `DIRSIZ` characters goes on into the stack. -/
def lsLoop (dp : Slot) (stack : List Byte) : Nat → Word → KernM (List Byte)
  | 0, _ => Code.stop .loops
  | fuel + 1, off => do
      let s ← Code.get
      if off < (s.inode dp).size then do
        let read ← inodeRead dp off (ofNat 32 direntSize)
        match read with
        | none => do
            inodeUnlock dp
            kernPanic "wrong in dir_lookup"
        | some de =>
          if de.length ≠ direntSize then do
            inodeUnlock dp
            kernPanic "wrong in dir_lookup"
          else do
            let rest ← lsLoop dp stack fuel (off + ofNat 32 direntSize)
            if direntInum de = 0 then pure rest
            else pure (cstring (direntName de ++ stack) ++ [32] ++ rest)
      else pure []

def sysLs (bufLen : Word) (stack : List Byte) : KernM Reply := do
  let dp ← getCwd
  inodeLock dp
  let names ← lsLoop dp stack direntFuel 0
  inodeUnlock dp
  let len := if (names.length : Int) < bufLen.toInt then ofNat 32 names.length else bufLen
  -- the last blank becomes the null byte
  pure ⟨some .succ, some len, (names.dropLast ++ [0]).take len.toNat⟩

def pwdEntry (parent : Slot) (inum : Word) : Nat → Word → KernM (Option (List Byte))
  | 0, _ => Code.stop .loops
  | fuel + 1, off => do
      let s ← Code.get
      if off < (s.inode parent).size then do
        let read ← inodeRead parent off (ofNat 32 direntSize)
        match read with
        | none => pure none
        | some de =>
          if de.length ≠ direntSize then pure none
          else if (direntInum de).setWidth 32 = inum then pure (some (direntName de))
          else pwdEntry parent inum fuel (off + ofNat 32 direntSize)
      else pure none

/-- Row `len` of `arr` after `strncpy(arr[len], name, DIRSIZ)` and `arr[len][DIRSIZ] = 0`. -/
def setRow (arr : Nat → Byte) (len : Nat) (name : List Byte) : Nat → Byte := fun i =>
  if 100 * len ≤ i ∧ i ≤ 100 * len + dirsiz then (cstring name).getD (i - 100 * len) 0 else arr i

/-- The loop of `sys_pwd`. Each round takes a reference that is never dropped: before the number of rounds does, the
counter overflows. -/
def pwdLoop : Nat → Slot → Slot → Nat → (Nat → Byte) → KernM (Nat × (Nat → Byte))
  | 0, _, _, _, _ => Code.stop .loops
  | fuel + 1, curi, parent, len, arr => do
      let s ← Code.get
      if (s.inode parent).inum = (s.inode curi).inum then pure (len, arr)
      else do
        let entry ← pwdEntry parent (s.inode curi).inum direntFuel 0
        if entry ≠ none ∧ 100 ≤ len then Code.stop .wildAccess
        else do
          let up ← dirLookup parent dotdot
          match entry with
          | none => pwdLoop fuel parent up.1 len arr
          | some name => pwdLoop fuel parent up.1 (len + 1) (setRow arr len name)

def pwdJoin : Nat → Nat → (Nat → Byte) → Nat × (Nat → Byte)
  | 0, p, arr => (p, arr)
  | i + 1, p, arr =>
    let p := p + (cstring ((List.range 100).map fun k => arr (100 * i + k))).length
    pwdJoin i (p + 1) (update arr p slash)

def sysPwd (stack : List Byte) : KernM Reply := do
  let curi ← getCwd
  let up ← dirLookup curi dotdot
  let found ← pwdLoop (2 ^ 31) curi up.1 0 fun i => stack.getD i 0
  let joined := pwdJoin found.1 0 found.2
  let arr := update joined.2 joined.1 0
  pure ⟨none, none, (List.range (joined.1 + 1)).map arr⟩

def sysIsDir (fd : Word) : KernM Reply := do
  let p ← Code.self
  let s ← Code.get
  -- the descriptor is not tested
  if nofile ≤ fd.toNat then Code.stop .wildAccess
  else
    match s.inodeFile p fd with
    | none => pure (failedWith .badf)
    | some fp => do
        Code.note (.inode (s.file fp).ip)
        pure ⟨some .succ, some (if (s.inode (s.file fp).ip).type = tDir then 1 else 0), []⟩

def sysKill (pid signum : Word) : KernM Reply := do
  let s ← Code.get
  if signum.toInt < 1 ∨ (nsig : Int) ≤ signum.toInt then pure (failed .invalSignum)
  else if pid.toInt < 0 ∨ (numIds : Int) ≤ pid.toInt ∨ s.thread pid.toNat = .dead then pure (failed .invalPid)
  else if signum.toInt = (sigkill : Int) then do
    Code.modify fun s => { s with thread := update s.thread pid.toNat .dead }
    Code.note (.killed pid.toNat)
    pure succeeded
  else do
    (match s.thread pid.toNat with
      | .asleep chan => threadWakeup chan
      | _ => pure ⟨⟩)
    pure succeeded

/-! ## The machine -/

def trap : Trap → KernM Reply
  | .read fd userBuf n => sysRead fd userBuf n
  | .write fd userBuf n data => sysWrite fd userBuf n data
  | .close fd => sysClose fd
  | .fstat fd userStp => sysFstat fd userStp
  | .link old new => sysLink old new
  | .unlink path => sysUnlink path
  | .open path omode => sysOpen path omode
  | .mkdir path => sysMkdir path
  | .chdir path => sysChdir path
  | .ls bufLen stack => sysLs bufLen stack
  | .pwd stack => sysPwd stack
  | .isDir fd => sysIsDir fd
  | .kill pid signum => sysKill pid signum
  | .ideIntr error => do
      ideIntr error
      pure ⟨none, none, []⟩

def serve (t : Trap) : KernM PUnit := do
  Code.note (.enter t)
  let reply ← trap t
  Code.note (.leave reply)

def kernel : Machine Nat State Stop Note Trap where
  code := serve
  runs p s := s.thread p = .running

abbrev Kernel := Config Nat State Stop Note

/-- After `devinit`, with the threads of `live`: caches empty, nothing open, and no working directory set. At address
zero lies `null`, and `devsw` and `%eax` are as they happen to be. -/
def boot (disk : Disk) (live : Nat → Bool) (null : Inode) (devsw : Nat → Bool × Bool) (eax : Nat → Word) : State where
  locks _ := false
  thread p := if live p then .running else .dead
  buf _ := ⟨-1, 0, false, false, false, fun _ => 0⟩
  mru := (List.finRange Fs.nbuf).reverse
  idequeue := []
  command := ⟨0, 0⟩
  disk := disk
  havedisk1 := true
  log := ⟨0, 0, false, 0, ⟨0, fun _ => 0⟩⟩
  inode ip := match ip with
    | none => null
    | some _ => { type := 0, major := 0, minor := 0, nlink := 0, size := 0, addrs := fun _ => 0
                  dev := 0, inum := 0, ref := 0, busy := false, valid := false }
  file _ := ⟨.none, 0, false, false, none, 0⟩
  openfiles _ _ := none
  cwd _ := none
  first := true
  devsw := devsw
  eax := eax

def booted (disk : Disk) (live : Nat → Bool) (null : Inode) (devsw : Nat → Bool × Bool) (eax : Nat → Word) : Kernel :=
  ⟨boot disk live null devsw eax, [], fun _ => none⟩

end Certikos.FileSys
