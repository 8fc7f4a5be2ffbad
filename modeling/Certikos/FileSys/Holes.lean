import Certikos.FileSys.Mount
import Certikos.FileSys.Reading

/-!
# Reading where there is no block

`bmap` allocates a block that is missing, also for a read. Outside a transaction `log_write` panics, so such a read
never returns.
-/

namespace Certikos.FileSys
open Lib
open Fs (nbuf Block rootdev logsize)

variable {p : Nat} {H : List (Fin nbuf × Word)} {a : View} {watch : Note → Bool} {E : Cut Stop Note → Prop} {ip : Slot}
  {b : Fin nbuf} {q : Word} {d : Block} {α : Type}

abbrev Stuck (watch : Note → Bool) (E : Cut Stop Note → Prop) (p : Nat) (P : State → Prop) (x : KernM α) : Prop :=
  x.Does (watched watch) E p P fun _ _ => False

theorem Stuck.bind {β : Type} {P : State → Prop} {x : KernM α} {f : α → KernM β} (stuck : Stuck watch E p P x)
    {Q : β → State → Prop} : Code.Does (watched watch) E p P (x >>= f) Q :=
  Code.Does.bind stuck fun _ _ never => never.elim

theorem logWrite_stuck (ends : ∀ c, E c) (idle : a.trans = false) :
    Stuck watch E p (Edited p H a b q d) (logWrite b) := by
  refine .read fun s edited => ?_
  obtain ⟨homes, c, r, lone, is⟩ := edited
  have busy : s.log.busy = false := by
    rw [lone.state_log, is.log.2.2.1]
    exact idle
  refine .noted (fun _ => ends _) fun _ => .both (.stop fun _ _ => ends _) ?_
  rw [if_pos busy]
  exact .stop fun _ _ => ends _

theorem blockAlloc_stuck (ends : ∀ c, E c) (terms : Terms watch E p) (idle : a.trans = false) (home : a.Home 1)
    (map : a.Home (bblock 0 (superblockOf (a.block 1)).ninodes)) (some' : 0 < (superblockOf (a.block 1)).size.toNat)
    (free : freeBit (a.block (bblock 0 (superblockOf (a.block 1)).ninodes)) 0 (superblockOf (a.block 1)).size ≠ none) :
    Stuck watch E p (Sees p [] a) (blockAlloc rootdev) := by
  refine does_value (readSuperblock_sees terms home (by simp) (.inr (ends _))) ?_
  show Code.Does _ _ _ _ (blockAllocLoop rootdev _ ((superblockOf (a.block 1)).size.toNat / bpb + 1 + 1) 0) _
  unfold blockAllocLoop
  rw [if_pos some']
  refine .bind (bufcacheRead_sees terms map (by simp) (.inr (ends _))) fun bp =>
    .learn (C := fun s => (s.buf bp).data = a.block (bblock 0 (superblockOf (a.block 1)).ninodes))
      (fun s sees => sees.block_eq) fun t data => ?_
  rw [data]
  split
  · exact .noted (fun _ => ends _) fun _ => .seq (modifyData_sees (.head _)) <|
      (logWrite_stuck ends idle).bind
  · rename_i none
    exact absurd none free

structure Hole (watch : Note → Bool) (E : Cut Stop Note → Prop) (p : Nat) (a : View) (ip : Slot) (bn : Word) : Prop where
  direct : bn.toNat < ndirect
  missing : (a.inode ip).addrs (Fin.ofNat (ndirect + 1) bn.toNat) = 0
  told : watch (.hole ip bn) = true → E (.notes (.hole ip bn))
  stuck : watch (.hole ip bn) = false → Stuck watch E p (Sees p [] a) (blockAlloc rootdev)

theorem bmap_hole {bn : Word} (dev : (a.inode ip).dev = rootdev) (hole : Hole watch E p a ip bn) :
    Stuck watch E p (Sees p [] a) (bmap ip bn) := by
  refine learn_inodes fun t inodes => ?_
  have root : blockAlloc (a.inode ip).dev = blockAlloc rootdev := by rw [dev]
  rw [if_pos hole.direct, inodes]
  rw [if_pos hole.missing, root]
  exact .noted hole.told fun quiet => (hole.stuck quiet).bind

theorem inodeRead_hole (off n : Word) (dev : (a.inode ip).dev = rootdev) (file : (a.inode ip).type ≠ tDev)
    (start : off.toNat < (a.inode ip).size.toNat) (some' : 0 < n.toNat) (small : off.toNat + n.toNat < 2 ^ 32)
    (hole : Hole watch E p a ip (blockIndex off)) : Stuck watch E p (Sees p [] a) (inodeRead ip off n) := by
  refine learn_inodes fun t inodes => ?_
  have sum : (off + n).toNat = off.toNat + n.toNat := by
    rw [BitVec.toNat_add, Nat.mod_eq_of_lt small]
  rw [inodes, if_neg file, if_neg (by rw [BitVec.lt_def, BitVec.lt_def]; omega)]
  dsimp only
  rw [toNat_clip (le_of_lt start) small]
  cases clipped : min n.toNat ((a.inode ip).size.toNat - off.toNat) with
  | zero => omega
  | succ count =>
    refine Stuck.bind ?_
    unfold inodeReadLoop
    rw [if_neg (Nat.succ_ne_zero count)]
    exact (bmap_hole dev hole).bind

variable {dp : Slot} {name : List Byte}

theorem dirLookup_hole (terms : Terms watch E p) (room : a.logged.length < nbuf ∨ E noBuffers) {n : Nat}
    (lists : a.Lists dp n) (others : ∀ i, i < n → ¬Named name (a.dirent dp i))
    (more : direntSize * n < (a.inode dp).size.toNat) (fits : direntSize * (n + 1) < 2 ^ 32)
    (hole : Hole watch E p a dp (blockIndex (direntOff n))) : Stuck watch E p (Sees p [] a) (dirLookup dp name) := by
  change 16 * n < _ at more
  change 16 * (n + 1) < 2 ^ 32 at fits
  have off : (direntOff n).toNat = 16 * n := toNat_direntOff (by omega)
  have inside : direntOff n < (a.inode dp).size := by
    rw [BitVec.lt_def, off]
    exact more
  refine dirLookup_reaches terms room lists others (Nat.le_refl n) fun _ => ?_
  unfold dirLookupLoop
  refine learn_inodes fun t inodes => ?_
  rw [inodes, if_pos inside]
  refine (inodeRead_hole _ _ lists.dev (by rw [lists.type]; decide) (by rw [off]; exact more) (by decide) ?_ hole).bind
  rw [off]
  show 16 * n + 16 < 2 ^ 32
  omega

theorem namei_hole (terms : Terms watch E p) (room : a.logged.length < nbuf ∨ E noBuffers) (home : a.Home 2)
    (type : a.root.type = tDir) (unused : a.Unused) (some' : name ≠ []) (plain : slash ∉ name) {n : Nat}
    (lists : a.atRoot.Lists (some 0) n)
    (others : ∀ i, i < n → ¬Named (name.take (dirsiz - 1)) (a.atRoot.dirent (some 0) i))
    (more : direntSize * n < a.root.size.toNat) (fits : direntSize * (n + 1) < 2 ^ 32)
    (hole : Hole watch E p a.atRoot (some 0) (blockIndex (direntOff n))) :
    Stuck watch E p (Sees p [] a) (namei (slash :: name)) := by
  have size : direntSize * n < (a.atRoot.inode (some 0)).size.toNat := by
    rw [View.atRoot, View.inode_setInode_self]
    exact more
  exact namei_of_lookup terms room home type unused some' plain
    (dirLookup_hole (a := a.atRoot) terms room lists others size fits hole) fun _ _ never => never.elim

theorem namei_slash (terms : Terms watch E p) (unused : a.Unused) :
    (namei [slash]).Acts watch E p (Sees p [] a) fun ip => RefersTo ip rootino := by
  have element : skipelem [slash] = none := by decide
  refine .bind (Q := fun r t => RefersTo r.1 rootino t) (.self (.get fun t => ?_)) fun r => .pure fun _ post => post
  refine Code.Does.ite (c := ([slash] : List Byte).head? = some slash) (fun _ => ?_) fun other => absurd rfl other
  refine does_value (inodeGet_sees terms (get_unused unused rootino)) ?_
  show Code.Does _ _ _ _ (namexLoop false 2 (some 0) [slash] []) _
  unfold namexLoop
  rw [element]
  refine .pure fun s sees => ⟨0, rfl, ?_⟩
  rw [sees.inode_eq, View.inode_setInode_self]
  exact ⟨rfl, rfl⟩

end Certikos.FileSys
