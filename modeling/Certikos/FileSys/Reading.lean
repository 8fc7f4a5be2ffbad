import Certikos.FileSys.View
import Mathlib.Data.List.TakeWhile

/-!
# Reading files alone

What a process that is alone gets when it looks an inode up, reads its bytes and walks a directory, as long as every
block it meets is there: what it sees stays as it is, but for the entries of the inode cache it takes and gives back.
-/

namespace Certikos.FileSys
open Lib Function
open BitVec (ofNat lt_def)
open Fs (nbuf Block rootdev)

variable {p : Nat} {H : List (Fin nbuf × Word)} {a a' : View} {s t : State} {watch : Note → Bool}
  {E : Cut Stop Note → Prop} {ip : Slot} {α β : Type}

theorem does_value {x : KernM α} {f : α → KernM β} {v : α} {P R : State → Prop} {Q : β → State → Prop}
    (first : x.Acts watch E p P fun r t => r = v ∧ R t) (next : (f v).Acts watch E p R Q) :
    Code.Does (watched watch) E p P (x >>= f) Q := by
  refine .bind first fun r t both => ?_
  obtain ⟨rfl, here⟩ := both
  exact next t here

/-! ## The inode cache -/

namespace View

def setInode (a : View) (ip : Slot) (x : Inode) : View := { a with inode := update a.inode ip x }

@[simp] theorem inode_setInode_self {x : Inode} : (a.setInode ip x).inode ip = x := update_self ..

theorem inode_setInode_of_ne {ip' : Slot} {x : Inode} (ne : ip' ≠ ip) : (a.setInode ip x).inode ip' = a.inode ip' :=
  update_of_ne ne ..

@[simp] theorem setInode_setInode {x y : Inode} : (a.setInode ip x).setInode ip y = a.setInode ip y := by
  simp only [setInode, update_idem]

end View

theorem Sees.rest_eq (sees : Sees p H a s) :
    s.rest = ⟨s.log, a.inode, a.file, a.openfiles, a.cwd, a.first, a.devsw, a.eax⟩ := by
  obtain ⟨-, c, r, lone, is⟩ := sees
  rw [lone.state_log, lone.rest]
  exact is.rest

theorem Sees.inode_eq (sees : Sees p H a s) : s.inode = a.inode := congrArg Rest.inode sees.rest_eq

theorem learn_inodes {α : Type} {f : State → KernM α} {Q : α → State → Prop}
    (next : ∀ t, t.inode = a.inode → (f t).Acts watch E p (Sees p H a) Q) :
    (Code.get >>= f).Does (watched watch) E p (Sees p H a) Q :=
  .learn (fun _ sees => sees.inode_eq) next

theorem Sees.setInode {x : Inode} (sees : Sees p H a s) : Sees p H (a.setInode ip x) (s.setInode ip x) := by
  have inodes := sees.inode_eq
  obtain ⟨homes, c, r, lone, is⟩ := sees
  refine ⟨homes, c, { r with inode := update a.inode ip x }, { lone with rest := ?_ }, { is with rest := ?_ }⟩
  · rw [← lone.rest, ← inodes]
    rfl
  · rw [is.rest]
    rfl

variable {f : Inode → Inode} {inum : Word}

theorem modifyInode_sees :
    (modifyInode ip f).Acts watch E p (Sees p H a) fun _ =>
      Sees p H (a.setInode ip (f (a.inode ip))) := by
  refine .modify fun s sees => ?_
  rw [← sees.inode_eq]
  exact sees.setInode

variable {i : Fin ninode} {n j : Nat} {l : Lock}

theorem locked_modifyInode :
    (modifyInode ip f).Acts watch E p (Locked l (Sees p H a)) fun _ =>
      Locked l (Sees p H (a.setInode ip (f (a.inode ip)))) := by
  refine locked_modify (fun s sees => ?_) fun _ => rfl
  rw [← sees.inode_eq]
  exact sees.setInode

theorem Locked.inode_eq (locked : Locked l (Sees p H a) s) : s.inode = a.inode := by
  obtain ⟨s, sees, rfl⟩ := locked
  exact sees.inode_eq

theorem acquire_sees (other : l ≠ .buf) : (acquire l).Acts watch E p (Sees p H a) fun _ => Locked l (Sees p H a) :=
  acquire_does fun _ sees => sees.unlocked other

theorem release_lock (other : l ≠ .buf) : (release l).Acts watch E p (Locked l (Sees p H a)) fun _ => Sees p H a :=
  release_does fun _ sees => sees.unlocked other

def cachedIn (inode : Slot → Inode) (dev inum : Word) : Option (Fin ninode) :=
  (List.finRange ninode).find? fun i =>
    0 < (inode (some i)).ref ∧ (inode (some i)).dev = dev ∧ (inode (some i)).inum = inum

def emptyIn (inode : Slot → Inode) : Option (Fin ninode) :=
  (List.finRange ninode).find? fun i => (inode (some i)).ref = 0

def Inode.refill (x : Inode) (dev inum : Word) : Inode :=
  { x with dev := dev, inum := inum, ref := 1, busy := false, valid := false }

def View.get (a : View) (dev inum : Word) : Option (Fin ninode × View) :=
  match cachedIn a.inode dev inum with
  | some i => some (i, a.setInode (some i) { a.inode (some i) with ref := (a.inode (some i)).ref + 1 })
  | none =>
    (emptyIn a.inode).map fun i => (i, a.setInode (some i) ((a.inode (some i)).refill dev inum))

theorem inodeGet_sees (terms : Terms watch E p) {dev : Word} (got : a.get dev inum = some (i, a')) :
    (inodeGet dev inum).Acts watch E p (Sees p H a) fun ip t => ip = some i ∧ Sees p H a' t := by
  refine .seq (acquire_sees (by simp)) <|
    .learn (C := fun s => s.inode = a.inode) (fun s locked => locked.inode_eq) fun t inodes => ?_
  have cached : t.cachedInode dev inum = cachedIn a.inode dev inum := by
    rw [State.cachedInode, inodes]
    rfl
  have empty : t.emptyInode = emptyIn a.inode := by
    rw [State.emptyInode, inodes]
    rfl
  rw [cached, empty]
  unfold View.get at got
  cases found : cachedIn a.inode dev inum with
  | some j =>
    rw [found] at got
    cases got
    exact terms.noted rfl (.seq locked_modifyInode <| .seq (release_lock (by simp)) <|
      .pure fun _ sees => ⟨rfl, sees⟩)
  | none =>
    rw [found] at got
    obtain ⟨j, free, same⟩ := Option.map_eq_some_iff.mp got
    cases same
    simp only [free]
    exact terms.noted rfl (.seq locked_modifyInode <| .seq (release_lock (by simp)) <|
      .pure fun _ sees => ⟨rfl, sees⟩)

/-! ## Locking an inode -/

def View.loaded (a : View) (ip : Slot) : Inode :=
  let x := a.inode ip
  if x.valid = true then x
  else { x with toDinode := dinodeAt (a.block (iblock x.inum)) x.inum, valid := true }

theorem View.loaded_refill (a : View) (ip : Slot) (x : Inode) (dev inum : Word) :
    (a.setInode ip (x.refill dev inum)).loaded ip =
      { toDinode := dinodeAt (a.block (iblock inum)) inum, dev, inum, ref := 1, busy := false, valid := true } := by
  rw [View.loaded, View.inode_setInode_self]
  exact if_neg Bool.false_ne_true

theorem Sees.block_eq {b : Fin nbuf} {q : Word} (sees : Sees p ((b, q) :: H) a s) : (s.buf b).data = a.block q :=
  sees.data (.head _)

abbrev noType : Cut Stop Note := .stops (.panic "inode_lock: no type")

theorem inodeLock_fetches (terms : Terms watch E p) (ref : 1 ≤ (a.inode (some i)).ref)
    (free : (a.inode (some i)).busy = false) (room : a.logged.length < nbuf ∨ E noBuffers)
    (fetch : (a.inode (some i)).valid = false →
      (a.inode (some i)).dev = rootdev ∧ a.Home (iblock (a.inode (some i)).inum) ∧
        ((a.loaded (some i)).type ≠ 0 ∨ E noType)) :
    (inodeLock (some i)).Acts watch E p (Sees p [] a) fun _ t =>
      Sees p [] (a.setInode (some i) { a.loaded (some i) with busy := true }) t ∧
        ((a.inode (some i)).valid = false → (a.loaded (some i)).type ≠ 0) := by
  refine learn_inodes fun t inodes => ?_
  rw [inodes, if_neg (by simp; omega)]
  refine .seq (acquire_sees (by simp)) <| terms.noted rfl (.seq (locked_sleepWhile fun s sees => ?_) <|
    .seq locked_modifyInode <| terms.noted rfl (.seq (release_lock (by simp)) ?_))
  · have same : (s.setLock .inodeCache true).inode = a.inode := sees.inode_eq
    rw [same, free]
    rfl
  refine .learn (C := fun s => s.inode (some i) = { a.inode (some i) with busy := true })
    (fun s sees => by rw [sees.inode_eq, View.inode_setInode_self]) fun t here => ?_
  simp only [here]
  by_cases valid : (a.inode (some i)).valid = true
  · have same : a.loaded (some i) = a.inode (some i) := by rw [View.loaded, if_pos valid]
    rw [if_neg (by simp [valid]), same]
    exact .pure fun _ sees => ⟨sees, fun invalid => absurd valid (by simp [invalid])⟩
  · have invalid : (a.inode (some i)).valid = false := by simpa using valid
    obtain ⟨dev, home, type⟩ := fetch invalid
    have loaded : a.loaded (some i) = { a.inode (some i) with
        toDinode := dinodeAt (a.block (iblock (a.inode (some i)).inum)) (a.inode (some i)).inum, valid := true } := by
      rw [View.loaded, if_neg valid]
    have root : bufcacheRead (a.inode (some i)).dev = bufcacheRead rootdev := by rw [dev]
    rw [if_pos invalid, root]
    refine .bind (bufcacheRead_sees terms (a := a.setInode (some i) _) home (by simp)
      (room.imp_left fun few => by rwa [List.length_nil, Nat.zero_add])) fun bp => ?_
    refine .learn (C := fun s => (s.buf bp).data = a.block (iblock (a.inode (some i)).inum))
      (fun s sees => sees.block_eq) fun t data => ?_
    rw [data]
    refine .seq modifyInode_sees <| .seq (release_sees terms (by simp)) <|
      .seq modifyInode_sees ?_
    simp only [View.inode_setInode_self, View.setInode_setInode]
    rw [loaded] at type ⊢
    generalize fetched : dinodeAt (a.block (iblock (a.inode (some i)).inum)) (a.inode (some i)).inum = d at *
    refine .learn (C := fun s => (s.inode (some i)).type = d.type) (fun s sees => ?_) fun t same => ?_
    · rw [sees.inode_eq, View.inode_setInode_self]
    · refine .ite (fun none => .stop fun _ _ => ?_) fun typed => .pure fun _ sees => ⟨sees, fun _ => ?_⟩
      · exact type.resolve_left (not_not.mpr (same.symm.trans none))
      · exact fun none => typed (same.trans none)

theorem inodeUnlock_sees (terms : Terms watch E p) (ref : 1 ≤ (a.inode (some i)).ref)
    (busy : (a.inode (some i)).busy = true) :
    (inodeUnlock (some i)).Acts watch E p (Sees p H a) fun _ =>
      Sees p H (a.setInode (some i) { a.inode (some i) with busy := false }) := by
  refine learn_inodes fun t inodes => ?_
  rw [inodes, if_neg (by simp [busy]; omega)]
  exact .seq (acquire_sees (by simp)) <| .seq locked_modifyInode <| terms.noted rfl <|
    .seq (locked_wakeup (by simp) (fun s sees => sees.unlocked (by simp)) fun s sees => sees.wake) <|
    release_lock (by simp)

theorem inodePut_sees (terms : Terms watch E p)
    (stays : ¬((a.inode (some i)).ref = 1 ∧ (a.inode (some i)).valid = true ∧ (a.inode (some i)).nlink = 0)) :
    (inodePut (some i)).Acts watch E p (Sees p H a) fun _ =>
      Sees p H (a.setInode (some i) { a.inode (some i) with ref := (a.inode (some i)).ref - 1 }) := by
  refine .seq (acquire_sees (by simp)) <| terms.noted rfl <|
    .learn (C := fun s => s.inode = a.inode) (fun s locked => locked.inode_eq) fun t inodes => ?_
  rw [inodes, if_neg stays]
  exact .seq (.same) <| .seq locked_modifyInode <| release_lock (by simp)

/-! ## Reading bytes -/

namespace View

def blockOf (a : View) (ip : Slot) (bn : Nat) : Word :=
  if bn < ndirect then (a.inode ip).addrs (Fin.ofNat (ndirect + 1) bn)
  else a.block ((a.inode ip).addrs (Fin.ofNat (ndirect + 1) ndirect)) (Fin.ofNat 128 (bn - ndirect))

structure Mapped (a : View) (ip : Slot) (bn : Nat) : Prop where
  range : bn < maxfile
  table : ndirect ≤ bn → (a.inode ip).addrs (Fin.ofNat (ndirect + 1) ndirect) ≠ 0 ∧
    a.Home ((a.inode ip).addrs (Fin.ofNat (ndirect + 1) ndirect))
  present : a.blockOf ip bn ≠ 0
  home : a.Home (a.blockOf ip bn)

def byte (a : View) (ip : Slot) (k : Nat) : Byte := blockByte (a.block (a.blockOf ip (k / bsize))) (k % bsize)

def bytes (a : View) (ip : Slot) (off n : Nat) : List Byte := (List.range n).map fun i => a.byte ip (off + i)

end View

theorem bmap_sees (terms : Terms watch E p) (room : a.logged.length < nbuf ∨ E noBuffers) {bn : Word}
    (dev : (a.inode ip).dev = rootdev) (mapped : a.Mapped ip bn.toNat) :
    (bmap ip bn).Acts watch E p (Sees p [] a) fun q t => q = a.blockOf ip bn.toNat ∧ Sees p [] a t := by
  refine learn_inodes fun t inodes => ?_
  have range : bn.toNat < 12 + 128 := mapped.range
  have present := mapped.present
  unfold View.blockOf at *
  by_cases direct : bn.toNat < ndirect
  · rw [if_pos direct] at present
    rw [if_pos direct, inodes, if_neg present, if_pos direct]
    exact .pure fun _ sees => ⟨rfl, sees⟩
  · rw [if_neg direct] at present
    have indirect : bn.toNat - ndirect < nindirect := by
      show bn.toNat - 12 < 128
      omega
    have root : bufcacheRead (a.inode ip).dev = bufcacheRead rootdev := by rw [dev]
    obtain ⟨table, home⟩ := mapped.table (not_lt.mp direct)
    rw [if_neg direct, if_pos indirect, if_neg direct]
    dsimp only
    rw [inodes, if_neg table]
    refine .seq (Q := fun _ => Sees p [] a) (.same) <|
      learn_inodes fun t inodes => ?_
    rw [inodes, root]
    refine .bind (bufcacheRead_sees terms home (by simp) (by simpa using room)) fun bp => ?_
    refine .learn (C := fun s => (s.buf bp).data = a.block _) (fun s sees => sees.block_eq) fun t data => ?_
    rw [data, if_neg present]
    exact .seq (release_sees terms (by simp)) <| .pure fun _ sees => ⟨rfl, sees⟩

namespace View

theorem length_bytes {off n : Nat} : (a.bytes ip off n).length = n := by
  rw [bytes, List.length_map, List.length_range]

theorem bytes_add {off m n : Nat} : a.bytes ip off (m + n) = a.bytes ip off m ++ a.bytes ip (off + m) n := by
  unfold bytes
  rw [List.range_add, List.map_append, List.map_map]
  congr 1
  apply List.map_congr_left
  intro i _
  exact congrArg (a.byte ip) (Nat.add_assoc off m i).symm

theorem bytes_eq_blockBytes {off m : Nat} (within : off % bsize + m ≤ bsize) :
    a.bytes ip off m = blockBytes (a.block (a.blockOf ip (off / bsize))) (off % bsize) m := by
  unfold bytes blockBytes
  apply List.map_congr_left
  intro i member
  have lt := List.mem_range.mp member
  have split : (off + i) / bsize = off / bsize ∧ (off + i) % bsize = off % bsize + i := by
    change off % 512 + m ≤ 512 at within
    show (off + i) / 512 = off / 512 ∧ (off + i) % 512 = off % 512 + i
    omega
  rw [byte, split.1, split.2]

end View

theorem toNat_blockIndex (off : Word) : (blockIndex off).toNat = off.toNat / bsize := rfl

theorem toNat_clip {size off n : Word} (start : off.toNat ≤ size.toNat) (small : off.toNat + n.toNat < 2 ^ 32) :
    (if size < off + n then size - off else n).toNat = min n.toNat (size.toNat - off.toNat) := by
  have sum : (off + n).toNat = off.toNat + n.toNat := by
    rw [BitVec.toNat_add, Nat.mod_eq_of_lt small]
  by_cases past : size < off + n
  · rw [if_pos past, BitVec.toNat_sub_of_le start]
    rw [lt_def] at past
    omega
  · rw [if_neg past]
    rw [lt_def] at past
    omega

section

variable (terms : Terms watch E p) (room : a.logged.length < nbuf ∨ E noBuffers) (dev : (a.inode ip).dev = rootdev)
include terms room dev

theorem inodeReadLoop_sees {fuel left : Nat} {off : Word} (enough : left ≤ fuel)
    (small : off.toNat + left < 2 ^ 32)
    (mapped : ∀ k, off.toNat ≤ k → k < off.toNat + left → a.Mapped ip (k / bsize)) :
    (inodeReadLoop ip fuel off left).Acts watch E p (Sees p [] a) fun r t =>
      r = a.bytes ip off.toNat left ∧ Sees p [] a t := by
  induction fuel generalizing off left with
  | zero =>
    have done : left = 0 := Nat.le_zero.mp enough
    subst done
    exact .pure fun _ sees => ⟨rfl, sees⟩
  | succ fuel ih =>
    unfold inodeReadLoop
    refine .ite (fun done => ?_) fun more => ?_
    · subst done
      exact .pure fun _ sees => ⟨rfl, sees⟩
    have root : bufcacheRead (a.inode ip).dev = bufcacheRead rootdev := by rw [dev]
    have here := mapped off.toNat le_rfl (by omega)
    refine does_value (bmap_sees terms room dev here) ?_
    refine learn_inodes fun t inodes => ?_
    rw [inodes, root]
    refine .bind (bufcacheRead_sees terms here.home (by simp) (by simpa using room)) fun bp => ?_
    refine .learn (C := fun s => (s.buf bp).data = a.block _) (fun s sees => sees.block_eq) fun t data => ?_
    rw [data]
    generalize count : min left (bsize - off.toNat % bsize) = m
    have low := Nat.mod_lt off.toNat (show 0 < bsize by decide)
    have within : off.toNat % bsize + m ≤ bsize := by omega
    have moved : (off + ofNat 32 m).toNat = off.toNat + m := by
      rw [BitVec.toNat_add, BitVec.toNat_ofNat, Nat.mod_eq_of_lt (show m < 2 ^ 32 by omega),
        Nat.mod_eq_of_lt (by omega)]
    refine .seq (release_sees terms (by simp)) <| does_value (ih (by omega) (by omega) ?_) ?_
    · intro k above below
      exact mapped k (by omega) (by omega)
    · refine .pure fun _ sees => ⟨?_, sees⟩
      rw [toNat_blockIndex, moved, ← View.bytes_eq_blockBytes within, ← View.bytes_add]
      congr 1
      omega

theorem inodeRead_sees (off n : Word) (file : (a.inode ip).type ≠ tDev)
    (start : off.toNat ≤ (a.inode ip).size.toNat) (small : off.toNat + n.toNat < 2 ^ 32)
    (mapped : ∀ k, off.toNat ≤ k → k < off.toNat + n.toNat → k < (a.inode ip).size.toNat → a.Mapped ip (k / bsize)) :
    (inodeRead ip off n).Acts watch E p (Sees p [] a) fun r t =>
      r = some (a.bytes ip off.toNat (min n.toNat ((a.inode ip).size.toNat - off.toNat))) ∧ Sees p [] a t := by
  refine learn_inodes fun t inodes => ?_
  have sum : (off + n).toNat = off.toNat + n.toNat := by
    rw [BitVec.toNat_add, Nat.mod_eq_of_lt small]
  rw [inodes, if_neg file, if_neg (by rw [lt_def, lt_def]; omega)]
  dsimp only
  rw [toNat_clip start small]
  refine does_value (inodeReadLoop_sees terms room dev le_rfl (by omega) ?_) (.pure fun _ sees => ⟨rfl, sees⟩)
  intro k above below
  exact mapped k above (by omega) (by omega)

end

/-! ## Directories -/

namespace View

def dirent (a : View) (dp : Slot) (j : Nat) : List Byte := a.bytes dp (direntSize * j) direntSize

theorem length_dirent {dp : Slot} {j : Nat} : (a.dirent dp j).length = direntSize := length_bytes

end View

def Named (name de : List Byte) : Prop := direntInum de ≠ 0 ∧ dirNamecmp (direntName de) name = true
deriving Decidable

theorem direntInum_direntBytes (inum : BitVec 16) (name : List Byte) : direntInum (direntBytes inum name) = inum := by
  apply BitVec.eq_of_getLsbD_eq
  intro k small
  show (inum.extractLsb' 8 8 ++ inum.extractLsb' 0 8).getLsbD k = inum.getLsbD k
  rw [BitVec.getLsbD_append, BitVec.getLsbD_extractLsb', BitVec.getLsbD_extractLsb']
  by_cases low : k < 8
  · simp [low]
  · simp [low, show k - 8 < 8 by omega, show 8 + (k - 8) = k by omega]

theorem cstring_of_not_mem {name : List Byte} (plain : 0 ∉ name) : cstring name = name :=
  List.takeWhile_eq_self_iff.mpr fun c member => by
    rw [decide_eq_true_eq]
    exact fun zero => plain (zero ▸ member)

theorem cstring_direntName {inum : BitVec 16} {name : List Byte} (plain : 0 ∉ name) :
    cstring ((direntName (direntBytes inum name)).take dirsiz) = name.take dirsiz := by
  have stored : direntName (direntBytes inum name) = (name.take dirsiz ++ List.replicate dirsiz 0).take dirsiz := rfl
  have short : ∀ c ∈ name.take dirsiz, decide (c ≠ 0) = true := by
    intro c member
    rw [decide_eq_true_eq]
    exact fun zero => plain (zero ▸ List.mem_of_mem_take member)
  have padding : ∀ n, (List.replicate n (0 : Byte)).takeWhile (fun c => c ≠ 0) = [] := by
    intro n
    cases n with
    | zero => rfl
    | succ n => rw [List.replicate_succ, List.takeWhile_cons_of_neg (by simp)]
  rw [stored, List.take_take, min_self, List.take_append, List.take_take, min_self, List.take_replicate, cstring,
    List.takeWhile_append_of_pos short, padding, List.append_nil]

theorem named_direntBytes {inum : BitVec 16} {name key : List Byte} (plain : 0 ∉ name) (plain' : 0 ∉ key)
    (short : key.length ≤ dirsiz) : Named key (direntBytes inum name) ↔ inum ≠ 0 ∧ name.take dirsiz = key := by
  unfold Named dirNamecmp
  rw [direntInum_direntBytes, cstring_direntName plain, List.take_of_length_le short, cstring_of_not_mem plain',
    decide_eq_true_eq]

def direntOff (j : Nat) : Word := ofNat 32 (direntSize * j)

theorem toNat_direntOff {j : Nat} (small : j < 2 ^ 28) : (direntOff j).toNat = direntSize * j := by
  rw [direntOff, BitVec.toNat_ofNat, Nat.mod_eq_of_lt]
  show 16 * j < 2 ^ 32
  omega

theorem direntOff_succ (j : Nat) : direntOff j + ofNat 32 direntSize = direntOff (j + 1) := by
  rw [direntOff, direntOff, ← BitVec.ofNat_add]
  rfl

section Directory

variable {dp : Slot} {name : List Byte}

structure View.Lists (a : View) (dp : Slot) (n : Nat) : Prop where
  dev : (a.inode dp).dev = rootdev
  type : (a.inode dp).type = tDir
  size : direntSize * n ≤ (a.inode dp).size.toNat
  mapped : ∀ j, j < n → a.Mapped dp (direntSize * j / bsize)

theorem View.Lists.bounds (lists : a.Lists dp n) :
    16 * n ≤ (a.inode dp).size.toNat ∧ (a.inode dp).size.toNat < 2 ^ 32 :=
  ⟨lists.size, (a.inode dp).size.isLt⟩

theorem View.Lists.inside (lists : a.Lists dp n) (lt : j < n) :
    (direntOff j).toNat = 16 * j ∧ direntOff j < (a.inode dp).size := by
  obtain ⟨size, bound⟩ := lists.bounds
  have off : (direntOff j).toNat = 16 * j := toNat_direntOff (by omega)
  exact ⟨off, by rw [lt_def]; omega⟩

variable (terms : Terms watch E p) (room : a.logged.length < nbuf ∨ E noBuffers) (lists : a.Lists dp n)
include terms room lists

theorem readDirent_sees (lt : j < n) :
    (inodeRead dp (direntOff j) (ofNat 32 direntSize)).Acts watch E p (Sees p [] a) fun r t =>
      r = some (a.dirent dp j) ∧ Sees p [] a t := by
  obtain ⟨size, bound⟩ := lists.bounds
  have off := (lists.inside lt).1
  have width : (ofNat 32 direntSize).toNat = 16 := rfl
  have read := inodeRead_sees terms room lists.dev (direntOff j) (ofNat 32 direntSize)
    (by rw [lists.type]; decide) (by omega) (by omega) (by
      intro k above below _
      have same : k / bsize = direntSize * j / bsize := by
        show k / 512 = 16 * j / 512
        omega
      rw [same]
      exact lists.mapped j lt)
  rw [off, width, Nat.min_eq_left (by omega)] at read
  exact read

variable {Q : Slot × Word → State → Prop}

theorem dirLookupLoop_skip {fuel : Nat} (others : ∀ i, i < j → ¬Named name (a.dirent dp i)) (le : j ≤ n)
    (then' : (dirLookupLoop dp name fuel (direntOff j)).Acts watch E p (Sees p [] a) Q) :
    (dirLookupLoop dp name (fuel + j) (direntOff 0)).Acts watch E p (Sees p [] a) Q := by
  induction j generalizing fuel with
  | zero => exact then'
  | succ j ih =>
    rw [Nat.add_succ, ← Nat.succ_add]
    refine ih (fun i lt => others i (Nat.lt_succ_of_lt lt)) (by omega) ?_
    unfold dirLookupLoop
    refine learn_inodes fun t inodes => ?_
    rw [inodes, if_pos (lists.inside le).2]
    refine does_value (readDirent_sees terms room lists (by omega)) ?_
    have other : ¬(direntInum (a.dirent dp j) ≠ 0 ∧ dirNamecmp (direntName (a.dirent dp j)) name = true) :=
      others j (Nat.lt_succ_self j)
    dsimp only
    rw [if_neg (not_not.mpr View.length_dirent), if_neg other, direntOff_succ]
    exact then'

theorem dirLookup_reaches (others : ∀ i, i < j → ¬Named name (a.dirent dp i)) (le : j ≤ n)
    (then' : ∀ fuel, (dirLookupLoop dp name (fuel + 1) (direntOff j)).Acts watch E p (Sees p [] a) Q) :
    (dirLookup dp name).Acts watch E p (Sees p [] a) Q := by
  obtain ⟨size, bound⟩ := lists.bounds
  have total : direntFuel - j - 1 + 1 + j = direntFuel := by
    show 2 ^ 28 - j - 1 + 1 + j = 2 ^ 28
    omega
  refine learn_inodes fun t inodes => ?_
  rw [inodes, if_neg (not_not.mpr lists.type), ← total]
  exact dirLookupLoop_skip terms room lists others le (then' _)

theorem dirLookup_found (others : ∀ i, i < j → ¬Named name (a.dirent dp i)) (lt : j < n)
    (here : Named name (a.dirent dp j))
    (got : a.get rootdev ((direntInum (a.dirent dp j)).setWidth 32) = some (i, a')) :
    (dirLookup dp name).Acts watch E p (Sees p [] a) fun r t =>
      r = (some i, direntOff j) ∧ Sees p [] a' t := by
  have this : direntInum (a.dirent dp j) ≠ 0 ∧ dirNamecmp (direntName (a.dirent dp j)) name = true := here
  have root : inodeGet (a.inode dp).dev = inodeGet rootdev := by rw [lists.dev]
  refine dirLookup_reaches terms room lists others (le_of_lt lt) fun _ => ?_
  unfold dirLookupLoop
  refine learn_inodes fun t inodes => ?_
  rw [inodes, if_pos (lists.inside lt).2]
  refine does_value (readDirent_sees terms room lists lt) ?_
  dsimp only
  rw [if_neg (not_not.mpr View.length_dirent), if_pos this]
  refine learn_inodes fun t inodes => ?_
  rw [inodes, root]
  exact does_value (inodeGet_sees terms got) (.pure fun _ sees => ⟨rfl, sees⟩)

theorem dirLookup_missing (others : ∀ i, i < n → ¬Named name (a.dirent dp i))
    (whole : (a.inode dp).size.toNat = direntSize * n) :
    (dirLookup dp name).Acts watch E p (Sees p [] a) fun r t =>
      r = (none, direntOff n) ∧ Sees p [] a t := by
  have small : 16 * n < 2 ^ 32 := by
    change (a.inode dp).size.toNat = 16 * n at whole
    omega
  have ended : ¬direntOff n < (a.inode dp).size := by
    rw [lt_def, toNat_direntOff (by omega), whole]
    exact lt_irrefl _
  refine dirLookup_reaches terms room lists others (Nat.le_refl n) fun _ => ?_
  unfold dirLookupLoop
  refine learn_inodes fun t inodes => ?_
  rw [inodes, if_neg ended]
  exact .pure fun _ sees => ⟨rfl, sees⟩

end Directory

/-! ## Paths -/

def View.Unused (a : View) : Prop := ∀ i, (a.inode (some i)).ref = 0

def View.root (a : View) : Inode where
  toDinode := dinodeAt (a.block 2) rootino
  dev := rootdev
  inum := rootino
  ref := 1
  busy := true
  valid := true

def View.atRoot (a : View) : View := a.setInode (some 0) a.root

theorem emptyIn_of_unused (unused : a.Unused) : emptyIn a.inode = some 0 := by
  have first : (List.finRange ninode) = 0 :: (List.finRange 49).map Fin.succ := List.finRange_succ
  rw [emptyIn, first, List.find?_cons_of_pos (by simp [unused 0])]

theorem cachedIn_of_unused (unused : a.Unused) {dev : Word} : cachedIn a.inode dev inum = none := by
  apply List.find?_eq_none.mpr
  intro i _
  simp [unused i]

theorem get_unused (unused : a.Unused) (inum : Word) : a.get rootdev inum =
    some (0, a.setInode (some 0) ((a.inode (some 0)).refill rootdev inum)) := by
  rw [View.get, cachedIn_of_unused unused, emptyIn_of_unused unused]
  rfl

def View.opened (a : View) (inum : Word) : Inode where
  toDinode := dinodeAt (a.block (iblock inum)) inum
  dev := rootdev
  inum := inum
  ref := 1
  busy := true
  valid := true

theorem lockFirst_sees (terms : Terms watch E p) (room : a.logged.length < nbuf ∨ E noBuffers)
    (home : a.Home (iblock inum)) (type : (a.opened inum).type ≠ 0 ∨ E noType) :
    (inodeLock (some 0)).Acts watch E p
      (Sees p [] (a.setInode (some 0) ((a.inode (some 0)).refill rootdev inum))) fun _ t =>
        Sees p [] (a.setInode (some 0) (a.opened inum)) t ∧ (a.opened inum).type ≠ 0 := by
  have loaded := a.loaded_refill (some 0) (a.inode (some 0)) rootdev inum
  have lock := inodeLock_fetches (i := 0) (a := a.setInode (some 0) ((a.inode (some 0)).refill rootdev inum)) terms
    (by rw [View.inode_setInode_self]; exact le_refl 1) (by rw [View.inode_setInode_self]; rfl) room (fun _ => by
      rw [View.inode_setInode_self, loaded]
      exact ⟨rfl, home, type⟩)
  rw [loaded, View.setInode_setInode] at lock
  refine lock.conseq (fun _ sees => sees) fun _ _ locked => ⟨locked.1, locked.2 ?_⟩
  rw [View.inode_setInode_self]
  rfl

theorem skipelem_single {name : List Byte} (some' : name ≠ []) (plain : slash ∉ name) :
    skipelem (slash :: name) = some ([], name.take (dirsiz - 1)) := by
  have first : ∀ c ∈ name, c ≠ slash := fun c member same => plain (same ▸ member)
  have start : (slash :: name).dropWhile (fun c => c = slash) = name := by
    rw [List.dropWhile_cons_of_pos (by simp)]
    cases name with
    | nil => exact absurd rfl some'
    | cons c rest => exact List.dropWhile_cons_of_neg (by simpa using first c (.head _))
  have elem : name.takeWhile (fun c => c ≠ slash) = name := List.takeWhile_eq_self_iff.mpr (by simpa using first)
  have rest : name.dropWhile (fun c => c ≠ slash) = [] := List.dropWhile_eq_nil_iff.mpr (by simpa using first)
  unfold skipelem
  rw [start]
  cases name with
  | nil => exact absurd rfl some'
  | cons c tail =>
    dsimp only
    rw [elem, rest]
    rfl

theorem iblock_rootino : iblock rootino = 2 := by decide

section Root

variable (terms : Terms watch E p) (room : a.logged.length < nbuf ∨ E noBuffers) (home : a.Home 2)
  (type : a.root.type = tDir)

include terms room home type

theorem lockRoot_sees : (inodeLock (some 0)).Acts watch E p
      (Sees p [] (a.setInode (some 0) ((a.inode (some 0)).refill rootdev rootino))) fun _ => Sees p [] a.atRoot := by
  have root : a.opened rootino = a.root := by rw [View.opened, iblock_rootino, View.root]
  have typed : (a.opened rootino).type ≠ 0 := by
    rw [root, type]
    decide
  have lock := lockFirst_sees terms room (by rwa [iblock_rootino]) (.inl typed)
  rw [root] at lock
  exact lock.conseq (fun _ sees => sees) fun _ _ locked => locked.1

theorem namei_of_lookup (unused : a.Unused) {name : List Byte} (some' : name ≠ []) (plain : slash ∉ name)
    {R : Slot × Word → State → Prop} {Q : Slot → State → Prop}
    (lookup : (dirLookup (some 0) (name.take (dirsiz - 1))).Acts watch E p (Sees p [] a.atRoot) R)
    (after : ∀ r, (inodeUnlockput (some 0)).Acts watch E p (R r) fun _ => Q r.1) :
    (namei (slash :: name)).Acts watch E p (Sees p [] a) Q := by
  have element : skipelem (slash :: name) = some ([], name.take (dirsiz - 1)) := skipelem_single some' plain
  refine .bind (Q := fun r t => Q r.1 t) (.self (.get fun t => ?_)) fun r => .pure fun _ post => post
  refine Code.Does.ite (c := (slash :: name).head? = some slash) (fun _ => ?_) fun other => absurd rfl other
  refine does_value (inodeGet_sees terms (get_unused unused rootino)) ?_
  show Code.Does _ _ _ _ (namexLoop false ((slash :: name).length + 1) (some 0) (slash :: name) []) _
  unfold namexLoop
  rw [element]
  refine .seq (lockRoot_sees terms room home type) ?_
  refine .learn (C := fun s => s.inode (some 0) = a.root)
    (fun s sees => by rw [sees.inode_eq, View.atRoot, View.inode_setInode_self]) fun t locked => ?_
  rw [locked, if_neg (not_not.mpr type), if_neg (fun both => Bool.false_ne_true both.1)]
  refine .bind lookup fun r => .seq (after r) ?_
  refine .ite (fun missing => ?_) fun found => ?_
  · refine .pure fun _ post => ?_
    rw [missing] at post
    exact post
  · unfold namexLoop
    exact .pure fun _ post => post

end Root

theorem unlockputRoot_sees (terms : Terms watch E p) {r : Int} (here : a'.inode (some 0) = { a.root with ref := r })
    (ref : 1 ≤ r) (linked : a.root.nlink ≠ 0) :
    (inodeUnlockput (some 0)).Acts watch E p (Sees p [] a') fun _ =>
      Sees p [] (a'.setInode (some 0) { a.root with ref := r - 1, busy := false }) := by
  have unlock := inodeUnlock_sees (H := []) (a := a') (i := 0) terms (by rw [here]; exact ref) (by rw [here]; rfl)
  have put := inodePut_sees (H := []) (a := a'.setInode (some 0) { a'.inode (some 0) with busy := false }) (i := 0) terms
    (by rw [View.inode_setInode_self, here]; exact fun freed => linked freed.2.2)
  rw [View.inode_setInode_self, View.setInode_setInode, here] at put
  exact .seq unlock <| by rw [here]; exact put

theorem get_atRoot (unused : a.Unused) (inum : Word) :
    ∃ i a' r, a.atRoot.get rootdev inum = some (i, a') ∧ (1 : Int) ≤ r ∧
      a'.inode (some 0) = { a.root with ref := r } ∧
      (a'.inode (some i)).dev = rootdev ∧ (a'.inode (some i)).inum = inum := by
  have root : a.atRoot.inode (some 0) = a.root := View.inode_setInode_self
  have others : ∀ i : Fin 49, (a.atRoot.inode (some i.succ)).ref = 0 := by
    intro i
    rw [View.atRoot, View.inode_setInode_of_ne (by simp)]
    exact unused i.succ
  have first : (List.finRange ninode) = 0 :: (List.finRange 49).map Fin.succ := List.finRange_succ
  by_cases same : inum = rootino
  · have cached : cachedIn a.atRoot.inode rootdev inum = some 0 := by
      rw [cachedIn, first, List.find?_cons_of_pos]
      rw [root, same]
      exact decide_eq_true ⟨Int.one_pos, rfl, rfl⟩
    refine ⟨0, _, 2, by rw [View.get, cached], by decide, ?_, ?_, ?_⟩
    · rw [View.inode_setInode_self, root]
      rfl
    · rw [View.inode_setInode_self, root]
      rfl
    · rw [View.inode_setInode_self, root, same]
      rfl
  · have missing : cachedIn a.atRoot.inode rootdev inum = none := by
      rw [cachedIn, first]
      apply List.find?_eq_none.mpr
      intro i member
      cases List.mem_cons.mp member with
      | inl head =>
        subst head
        rw [root]
        simpa [View.root] using fun equal : rootino = inum => same equal.symm
      | inr tail =>
        obtain ⟨k, -, rfl⟩ := List.mem_map.mp tail
        simp [others k]
    have empty : emptyIn a.atRoot.inode = some 1 := by
      have second : (List.finRange 49).map Fin.succ = (1 : Fin ninode) :: ((List.finRange 48).map Fin.succ).map Fin.succ :=
        congrArg (List.map Fin.succ) List.finRange_succ
      have taken : ¬a.root.ref = 0 := one_ne_zero
      rw [emptyIn, first, List.find?_cons_of_neg (by rw [root]; simpa using taken), second, List.find?_cons_of_pos]
      exact decide_eq_true (others 0)
    refine ⟨1, _, 1, by rw [View.get, missing, empty]; rfl, by decide, ?_, ?_, ?_⟩
    · rw [View.inode_setInode_of_ne (by decide), root]
      rfl
    · rw [View.inode_setInode_self]
      rfl
    · rw [View.inode_setInode_self]
      rfl

def RefersTo (ip : Slot) (inum : Word) (s : State) : Prop :=
  ∃ i, ip = some i ∧ (s.inode ip).dev = rootdev ∧ (s.inode ip).inum = inum

section Root

variable (terms : Terms watch E p) (room : a.logged.length < nbuf ∨ E noBuffers) (home : a.Home 2)
  (type : a.root.type = tDir) (linked : a.root.nlink ≠ 0) (unused : a.Unused) {name : List Byte} (some' : name ≠ [])
  (plain : slash ∉ name)

include terms room home type linked unused some' plain

theorem namei_found (lists : a.atRoot.Lists (some 0) n)
    (others : ∀ i, i < j → ¬Named (name.take (dirsiz - 1)) (a.atRoot.dirent (some 0) i)) (lt : j < n)
    (here : Named (name.take (dirsiz - 1)) (a.atRoot.dirent (some 0) j)) :
    (namei (slash :: name)).Acts watch E p (Sees p [] a) fun ip =>
      RefersTo ip ((direntInum (a.atRoot.dirent (some 0) j)).setWidth 32) := by
  obtain ⟨i, a', r, got, ref, root, dev, inum⟩ :=
    get_atRoot unused ((direntInum (a.atRoot.dirent (some 0) j)).setWidth 32)
  refine namei_of_lookup terms room home type unused some' plain
    (dirLookup_found (a := a.atRoot) terms room lists others lt here got) ?_
  intro r'
  rintro s ⟨rfl, sees⟩
  refine (unlockputRoot_sees terms root ref linked s sees).mono ?_ fun _ ended => ended
  intro _ t after
  refine ⟨i, rfl, ?_⟩
  rw [after.inode_eq]
  by_cases first : i = 0
  · subst first
    rw [View.inode_setInode_self]
    rw [root] at dev inum
    exact ⟨dev, inum⟩
  · rw [View.inode_setInode_of_ne (by simpa using first)]
    exact ⟨dev, inum⟩

theorem namei_missing {n : Nat} (lists : a.atRoot.Lists (some 0) n)
    (others : ∀ i, i < n → ¬Named (name.take (dirsiz - 1)) (a.atRoot.dirent (some 0) i))
    (whole : a.root.size.toNat = direntSize * n) :
    (namei (slash :: name)).Acts watch E p (Sees p [] a) fun ip _ => ip = none := by
  have root : a.atRoot.inode (some 0) = a.root := View.inode_setInode_self
  have size : (a.atRoot.inode (some 0)).size.toNat = direntSize * n := by rw [root]; exact whole
  refine namei_of_lookup terms room home type unused some' plain
    (dirLookup_missing (a := a.atRoot) terms room lists others size) ?_
  intro r
  rintro s ⟨rfl, sees⟩
  exact (unlockputRoot_sees (r := 1) terms root (by decide) linked s sees).mono (fun _ _ _ => rfl) fun _ ended => ended

end Root

end Certikos.FileSys
