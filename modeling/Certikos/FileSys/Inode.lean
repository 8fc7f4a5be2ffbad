import Certikos.FileSys.Cache

/-!
# Inodes, directories and paths

`inode.c`, `dir.c` and `path.c`. A pointer to an inode is a `Slot`; reading through a null pointer reads what is stored
at address zero.
-/

namespace Certikos.FileSys
open Lib Function
open BitVec (ofNat)
open Fs (nbuf Block rootdev)

/-! ## The inode cache -/

def State.cachedInode (s : State) (dev inum : Word) : Option (Fin ninode) :=
  (List.finRange ninode).find? fun i =>
    0 < (s.inode (some i)).ref ∧ (s.inode (some i)).dev = dev ∧ (s.inode (some i)).inum = inum

def State.emptyInode (s : State) : Option (Fin ninode) :=
  (List.finRange ninode).find? fun i => (s.inode (some i)).ref = 0

def inodeGet (dev inum : Word) : KernM Slot := do
  acquire .inodeCache
  let s ← Code.get
  match s.cachedInode dev inum with
  | some i => do
      Code.note (.inode (some i))
      modifyInode (some i) fun x => { x with ref := x.ref + 1 }
      release .inodeCache
      pure (some i)
  | none =>
    match s.emptyInode with
    | none => kernPanic "inode_get: no inodes"
    | some i => do
        Code.note (.inode (some i))
        modifyInode (some i) fun x =>
          { x with dev := dev, inum := inum, ref := 1, busy := false, valid := false }
        release .inodeCache
        pure (some i)

def inodeDup (ip : Slot) : KernM Slot := do
  acquire .inodeCache
  Code.note (.inode ip)
  modifyInode ip fun x => { x with ref := x.ref + 1 }
  release .inodeCache
  pure ip

def inodeAllocLoop (dev : Word) (type : BitVec 16) (ninodes : Word) : Nat → Word → KernM Slot
  | 0, _ => kernPanic "inode_alloc: no inodes"
  | fuel + 1, inum =>
    if inum < ninodes then do
      let bp ← bufcacheRead dev (iblock inum)
      let s ← Code.get
      if (dinodeAt (s.buf bp).data inum).type = 0 then do
        modifyData bp (setDinode · inum ⟨type, 0, 0, 0, 0, fun _ => 0⟩)
        logWrite bp
        bufcacheRelease bp
        inodeGet dev inum
      else do
        bufcacheRelease bp
        inodeAllocLoop dev type ninodes fuel (inum + 1)
    else kernPanic "inode_alloc: no inodes"

def inodeAlloc (dev : Word) (type : BitVec 16) : KernM Slot := do
  let sb ← readSuperblock dev
  inodeAllocLoop dev type sb.ninodes sb.ninodes.toNat 1

def inodeUpdate (ip : Slot) : KernM PUnit := do
  let s ← Code.get
  let bp ← bufcacheRead (s.inode ip).dev (iblock (s.inode ip).inum)
  let s ← Code.get
  modifyData bp (setDinode · (s.inode ip).inum (s.inode ip).toDinode)
  logWrite bp
  bufcacheRelease bp

def inodeLock (ip : Slot) : KernM PUnit := do
  let s ← Code.get
  if ip = none ∨ (s.inode ip).ref < 1 then kernPanic "inode_lock"
  else do
    acquire .inodeCache
    Code.note (.inode ip)
    sleepWhile .inodeCache fun s => if (s.inode ip).busy = true then some (.inode ip) else none
    modifyInode ip fun x => { x with busy := true }
    Code.note (.take (.inode ip))
    release .inodeCache
    let s ← Code.get
    if (s.inode ip).valid = false then do
      let bp ← bufcacheRead (s.inode ip).dev (iblock (s.inode ip).inum)
      let s ← Code.get
      modifyInode ip fun x => { x with toDinode := dinodeAt (s.buf bp).data x.inum }
      bufcacheRelease bp
      modifyInode ip fun x => { x with valid := true }
      let s ← Code.get
      if (s.inode ip).type = 0 then kernPanic "inode_lock: no type" else pure ⟨⟩
    else pure ⟨⟩

def inodeUnlock (ip : Slot) : KernM PUnit := do
  let s ← Code.get
  if ip = none ∨ (s.inode ip).busy = false ∨ (s.inode ip).ref < 1 then kernPanic "inode_unlock"
  else do
    acquire .inodeCache
    modifyInode ip fun x => { x with busy := false }
    Code.note (.drop (.inode ip))
    threadWakeup (.inode ip)
    release .inodeCache

/-! ## The content of an inode -/

def inodeTruncDirect (ip : Slot) (i : Nat) : KernM PUnit := do
  let s ← Code.get
  let k := Fin.ofNat (ndirect + 1) i
  if (s.inode ip).addrs k ≠ 0 then do
    blockFree (s.inode ip).dev ((s.inode ip).addrs k)
    modifyInode ip fun x => { x with addrs := update x.addrs k 0 }
  else pure ⟨⟩

def inodeTruncIndirect (ip : Slot) (bp : Fin nbuf) (j : Nat) : KernM PUnit := do
  let s ← Code.get
  let a := (s.buf bp).data (Fin.ofNat 128 j)
  if a ≠ 0 then blockFree (s.inode ip).dev a else pure ⟨⟩

def inodeTrunc (ip : Slot) : KernM PUnit := do
  Code.forLoop (inodeTruncDirect ip) ndirect
  let s ← Code.get
  let k := Fin.ofNat (ndirect + 1) ndirect
  (if (s.inode ip).addrs k ≠ 0 then do
    let bp ← bufcacheRead (s.inode ip).dev ((s.inode ip).addrs k)
    Code.forLoop (inodeTruncIndirect ip bp) nindirect
    bufcacheRelease bp
    let s ← Code.get
    blockFree (s.inode ip).dev ((s.inode ip).addrs k)
    modifyInode ip fun x => { x with addrs := update x.addrs k 0 }
  else pure ⟨⟩)
  modifyInode ip fun x => { x with size := 0 }
  inodeUpdate ip

def inodePut (ip : Slot) : KernM PUnit := do
  acquire .inodeCache
  Code.note (.inode ip)
  let s ← Code.get
  (if (s.inode ip).ref = 1 ∧ (s.inode ip).valid = true ∧ (s.inode ip).nlink = 0 then do
    if (s.inode ip).busy = true then kernPanic "inode_put busy"
    else do
      Code.note (.frees ip)
      modifyInode ip fun x => { x with busy := true }
      Code.note (.take (.inode ip))
      release .inodeCache
      inodeTrunc ip
      modifyInode ip fun x => { x with type := 0 }
      inodeUpdate ip
      acquire .inodeCache
      modifyInode ip fun x => { x with busy := false, valid := false }
      Code.note (.drop (.inode ip))
      threadWakeup (.inode ip)
  else pure ⟨⟩)
  modifyInode ip fun x => { x with ref := x.ref - 1 }
  release .inodeCache

def inodeUnlockput (ip : Slot) : KernM PUnit := do
  inodeUnlock ip
  inodePut ip

def bmap (ip : Slot) (bn : Word) : KernM Word := do
  let s ← Code.get
  if bn.toNat < ndirect then do
    let k := Fin.ofNat (ndirect + 1) bn.toNat
    if (s.inode ip).addrs k = 0 then do
      Code.note (.hole ip bn)
      let addr ← blockAlloc (s.inode ip).dev
      modifyInode ip fun x => { x with addrs := update x.addrs k addr }
      pure addr
    else pure ((s.inode ip).addrs k)
  else if bn.toNat - ndirect < nindirect then do
    let k := Fin.ofNat (ndirect + 1) ndirect
    (if (s.inode ip).addrs k = 0 then do
      Code.note (.hole ip bn)
      let addr ← blockAlloc (s.inode ip).dev
      modifyInode ip fun x => { x with addrs := update x.addrs k addr }
    else pure ⟨⟩)
    let s ← Code.get
    let bp ← bufcacheRead (s.inode ip).dev ((s.inode ip).addrs k)
    let s ← Code.get
    let j := Fin.ofNat 128 (bn.toNat - ndirect)
    if (s.buf bp).data j = 0 then do
      Code.note (.hole ip bn)
      let addr ← blockAlloc (s.inode ip).dev
      modifyData bp (update · j addr)
      logWrite bp
      bufcacheRelease bp
      pure addr
    else do
      bufcacheRelease bp
      pure ((s.buf bp).data j)
  else kernPanic "bmap: out of range"

def blockIndex (off : Word) : Word := off / ofNat 32 bsize

def inodeReadLoop (ip : Slot) : Nat → Word → Nat → KernM (List Byte)
  | 0, _, left => if left = 0 then pure [] else Code.stop .loops
  | fuel + 1, off, left =>
    if left = 0 then pure []
    else do
      let addr ← bmap ip (blockIndex off)
      let s ← Code.get
      let bp ← bufcacheRead (s.inode ip).dev addr
      let m := min left (bsize - off.toNat % bsize)
      let s ← Code.get
      bufcacheRelease bp
      let rest ← inodeReadLoop ip fuel (off + ofNat 32 m) (left - m)
      pure (blockBytes (s.buf bp).data (off.toNat % bsize) m ++ rest)

def inodeRead (ip : Slot) (off n : Word) : KernM (Option (List Byte)) := do
  let s ← Code.get
  let x := s.inode ip
  if x.type = tDev then
    if x.major.toInt < 0 ∨ (ndev : Int) ≤ x.major.toInt ∨ (s.devsw x.major.toNat).1 = false then pure none
    else Code.stop .wildAccess
  else if x.size < off ∨ off + n < off then pure none
  else do
    let n := if x.size < off + n then x.size - off else n
    let bytes ← inodeReadLoop ip n.toNat off n.toNat
    pure (some bytes)

def inodeWriteLoop (ip : Slot) : Nat → Word → List Byte → KernM Word
  | 0, off, src => if src = [] then pure off else Code.stop .loops
  | fuel + 1, off, src =>
    if src = [] then pure off
    else do
      let addr ← bmap ip (blockIndex off)
      let s ← Code.get
      let bp ← bufcacheRead (s.inode ip).dev addr
      let m := min src.length (bsize - off.toNat % bsize)
      modifyData bp (setBytes · (off.toNat % bsize) (src.take m))
      logWrite bp
      bufcacheRelease bp
      inodeWriteLoop ip fuel (off + ofNat 32 m) (src.drop m)

def inodeWrite (ip : Slot) (src : List Byte) (off : Word) : KernM Bool := do
  let s ← Code.get
  let x := s.inode ip
  let n := ofNat 32 src.length
  if x.type = tDev then
    if x.major.toInt < 0 ∨ (ndev : Int) ≤ x.major.toInt ∨ (s.devsw x.major.toNat).2 = false then pure false
    else Code.stop .wildAccess
  else if x.size < off ∨ off + n < off then pure false
  else if ofNat 32 (maxfile * bsize) < off + n then pure false
  else do
    let off ← inodeWriteLoop ip src.length off src
    let s ← Code.get
    (if 0 < n ∧ (s.inode ip).size < off then do
      modifyInode ip fun x => { x with size := off }
      inodeUpdate ip
    else pure ⟨⟩)
    pure true

/-! ## `dir.c` -/

def dirNamecmp (s t : List Byte) : Bool := cstring (s.take dirsiz) = cstring (t.take dirsiz)

abbrev direntFuel : Nat := 2 ^ 28

def dirLookupLoop (dp : Slot) (name : List Byte) : Nat → Word → KernM (Slot × Word)
  | 0, _ => Code.stop .loops
  | fuel + 1, off => do
      let s ← Code.get
      if off < (s.inode dp).size then do
        let read ← inodeRead dp off (ofNat 32 direntSize)
        match read with
        | none => kernPanic "wrong in dir_lookup"
        | some de =>
          if de.length ≠ direntSize then kernPanic "wrong in dir_lookup"
          else if direntInum de ≠ 0 ∧ dirNamecmp (direntName de) name = true then do
            let s ← Code.get
            let ip ← inodeGet (s.inode dp).dev ((direntInum de).setWidth 32)
            pure (ip, off)
          else dirLookupLoop dp name fuel (off + ofNat 32 direntSize)
      else pure (none, off)

/-- `dir_lookup`: the inode, null if there is no such entry, and the offset of the entry. -/
def dirLookup (dp : Slot) (name : List Byte) : KernM (Slot × Word) := do
  let s ← Code.get
  if (s.inode dp).type ≠ tDir then kernPanic "dir_lookup not DIR" else dirLookupLoop dp name direntFuel 0

def emptyDirent (dp : Slot) : Nat → Word → KernM Word
  | 0, _ => Code.stop .loops
  | fuel + 1, off => do
      let s ← Code.get
      if off < (s.inode dp).size then do
        let read ← inodeRead dp off (ofNat 32 direntSize)
        match read with
        | none => kernPanic "entry size read is not correct, dir_link"
        | some de =>
          if de.length ≠ direntSize then kernPanic "entry size read is not correct, dir_link"
          else if direntInum de = 0 then pure off
          else emptyDirent dp fuel (off + ofNat 32 direntSize)
      else pure off

def dirLink (dp : Slot) (name : List Byte) (inum : Word) : KernM Bool := do
  let found ← dirLookup dp name
  if found.1 ≠ none then do
    inodePut found.1
    pure false
  else do
    let off ← emptyDirent dp direntFuel 0
    let s ← Code.get
    Code.note (.entry dp (s.inode dp).nlink)
    let written ← inodeWrite dp (direntBytes (inum.setWidth 16) name) off
    if written = true then pure true else kernPanic "entry size write is not corrent, dir_link"

/-! ## `path.c` -/

abbrev slash : Byte := 47

def skipelem (path : List Byte) : Option (List Byte × List Byte) :=
  match path.dropWhile fun c => c = slash with
  | [] => none
  | start =>
    let elem := start.takeWhile fun c => c ≠ slash
    some ((start.dropWhile fun c => c ≠ slash).dropWhile fun c => c = slash, elem.take (dirsiz - 1))

def namexLoop (nameiparent : Bool) : Nat → Slot → List Byte → List Byte → KernM (Slot × List Byte)
  | 0, _, _, _ => Code.stop .loops
  | fuel + 1, ip, path, name =>
    match skipelem path with
    | none =>
      if nameiparent = true then do
        inodePut ip
        pure (none, name)
      else pure (ip, name)
    | some (path, name) => do
        inodeLock ip
        let s ← Code.get
        if (s.inode ip).type ≠ tDir then do
          inodeUnlockput ip
          pure (none, name)
        else if nameiparent = true ∧ path = [] then do
          inodeUnlock ip
          pure (ip, name)
        else do
          let subdir ← dirLookup ip name
          inodeUnlockput ip
          if subdir.1 = none then pure (none, name)
          else namexLoop nameiparent fuel subdir.1 path name

def namex (path : List Byte) (nameiparent : Bool) : KernM (Slot × List Byte) := do
  let p ← Code.self
  let s ← Code.get
  let ip ← if path.head? = some slash then inodeGet rootdev rootino else inodeDup (s.cwd p)
  namexLoop nameiparent (path.length + 1) ip path []

def namei (path : List Byte) : KernM Slot := do
  let found ← namex path false
  pure found.1

def nameiparent (path : List Byte) : KernM (Slot × List Byte) := namex path true

end Certikos.FileSys
