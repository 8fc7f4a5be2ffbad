import Certikos.FileSys.Inode

/-!
# The program that makes the disk image

`kern/fs/mkfs.c`, compiled where `size_t` has four bytes, so that `struct superblock` is the kernel's. It runs on the
host, once, and keeps the image in a file.
-/

namespace Certikos.Mkfs
open Lib
open BitVec (ofNat)
open FileSys
open Fs (Block)

abbrev nblocks : Nat := 985
abbrev nlog : Nat := 10
abbrev ninodes : Nat := 200
abbrev size : Nat := 1024

structure Input where
  name : List Byte
  content : List Byte

structure State where
  image : Nat → Block
  sectors : Nat
  freeblock : Nat
  usedblocks : Nat
  freeinode : Nat

inductive Abort
  | perror (call : String)
  | assert (condition : String)
  deriving DecidableEq

abbrev MkfsM := EStateM Abort State

def wsect (sec : Nat) (buf : Block) : MkfsM PUnit :=
  modify fun s => { s with image := Function.update s.image sec buf, sectors := max s.sectors (sec + 1) }

def rsect (sec : Nat) : MkfsM Block := do
  let s ← get
  if sec < s.sectors then pure (s.image sec) else throw (.perror "read")

def i2b (inum : Nat) : Nat := inum / ipb + 2

def winode (inum : Nat) (din : Dinode) : MkfsM PUnit := do
  let buf ← rsect (i2b inum)
  wsect (i2b inum) (setDinode buf (ofNat 32 inum) din)

def rinode (inum : Nat) : MkfsM Dinode := do
  let buf ← rsect (i2b inum)
  pure (dinodeAt buf (ofNat 32 inum))

def ialloc (type : BitVec 16) : MkfsM Nat := do
  let s ← get
  modify fun s => { s with freeinode := s.freeinode + 1 }
  winode s.freeinode ⟨type, 0, 0, 1, 0, fun _ => 0⟩
  pure s.freeinode

def bitmap (used : Nat) : Block := (List.range used).foldl (setBit · · true) fun _ => 0

def balloc (used : Nat) : MkfsM PUnit :=
  if used < bpb then wsect (ninodes / ipb + 3) (bitmap used) else throw (.assert "used < 512*8")

def nextBlock : MkfsM Word := do
  let s ← get
  modify fun s => { s with freeblock := s.freeblock + 1, usedblocks := s.usedblocks + 1 }
  pure (ofNat 32 s.freeblock)

def fillAddr (din : Dinode) (k : Fin (ndirect + 1)) : MkfsM Dinode :=
  if din.addrs k = 0 then do
    let b ← nextBlock
    pure { din with addrs := Function.update din.addrs k b }
  else pure din

/-- What `iappend` does to find `x`, the block that holds block `fbn` of the file. -/
def findBlock (din : Dinode) (fbn : Nat) : MkfsM (Dinode × Word) :=
  if fbn < ndirect then do
    let din ← fillAddr din (Fin.ofNat (ndirect + 1) fbn)
    pure (din, din.addrs (Fin.ofNat (ndirect + 1) fbn))
  else do
    let din ← fillAddr din (Fin.ofNat (ndirect + 1) ndirect)
    let table := (din.addrs (Fin.ofNat (ndirect + 1) ndirect)).toNat
    let indirect ← rsect table
    if indirect (Fin.ofNat 128 (fbn - ndirect)) = 0 then do
      let b ← nextBlock
      wsect table (Function.update indirect (Fin.ofNat 128 (fbn - ndirect)) b)
      pure (din, b)
    else pure (din, indirect (Fin.ofNat 128 (fbn - ndirect)))

def iappendLoop : Nat → Dinode → Nat → List Byte → MkfsM (Dinode × Nat)
  | 0, din, off, _ => pure (din, off)
  | fuel + 1, din, off, src =>
    if src = [] then pure (din, off)
    else if off / bsize < maxfile then do
      let found ← findBlock din (off / bsize)
      let n1 := min src.length ((off / bsize + 1) * bsize - off)
      let buf ← rsect found.2.toNat
      wsect found.2.toNat (setBytes buf (off - off / bsize * bsize) (src.take n1))
      iappendLoop fuel found.1 (off + n1) (src.drop n1)
    else throw (.assert "fbn < MAXFILE")

def iappend (inum : Nat) (src : List Byte) : MkfsM PUnit := do
  let din ← rinode inum
  let appended ← iappendLoop src.length din din.size.toNat src
  winode inum { appended.1 with size := ofNat 32 appended.2 }

def Input.entry (f : Input) : List Byte := if f.name.head? = some 95 then f.name.tail else f.name

def copyFile (inum : Nat) : Nat → List Byte → MkfsM PUnit
  | 0, _ => pure ⟨⟩
  | fuel + 1, content =>
    if content = [] then pure ⟨⟩
    else do
      iappend inum (content.take bsize)
      copyFile inum fuel (content.drop bsize)

def addFile (rootino : Nat) (f : Input) : MkfsM PUnit :=
  if slash ∈ f.name then throw (.assert "index(argv[i], '/') == 0")
  else do
    let inum ← ialloc tFile
    iappend rootino (direntBytes (ofNat 16 inum) f.entry)
    copyFile inum f.content.length f.content

def addFiles (rootino : Nat) : List Input → MkfsM PUnit
  | [] => pure ⟨⟩
  | f :: files => do
      addFile rootino f
      addFiles rootino files

def superblock : Block := fun w =>
  [ofNat 32 size, ofNat 32 nblocks, ofNat 32 ninodes, ofNat 32 nlog].getD w.val 0

def start : State where
  image _ _ := 0
  sectors := 0
  freeblock := ninodes / ipb + 3 + (size / bpb + 1)
  usedblocks := ninodes / ipb + 3 + (size / bpb + 1)
  freeinode := 1

abbrev dot : List Byte := [46]
abbrev dotdot : List Byte := [46, 46]

@[irreducible] def main (files : List Input) : MkfsM PUnit := do
  let s ← get
  if nblocks + s.usedblocks + nlog ≠ size then throw (.assert "nblocks + usedblocks + nlog == size")
  else do
    forLoop (fun i => wsect i fun _ => 0) (nblocks + s.usedblocks + nlog)
    wsect 1 superblock
    let root ← ialloc tDir
    if ofNat 32 root ≠ rootino then throw (.assert "rootino == ROOTINO")
    else do
      iappend root (direntBytes (ofNat 16 root) dot)
      iappend root (direntBytes (ofNat 16 root) dotdot)
      addFiles root files
      -- fix size of root inode dir
      let din ← rinode root
      winode root { din with size := (din.size / ofNat 32 bsize + 1) * ofNat 32 bsize }
      let s ← get
      balloc s.usedblocks

end Certikos.Mkfs
