import Certikos.Mkfs.Agreement

/-!
# Files on the image

The kernel reads back the bytes of every file, and finds marked exactly the blocks that are used. `mkfs` does not look
whether there are inodes left, and an inode in the sector of the bitmap is lost.
-/

namespace Certikos.Mkfs
open Lib
open BitVec (ofNat)
open FileSys
open Fs (Block Disk nbuf rootdev)

variable {files : List Input} {l : Layout} {t : State} {disk : Disk} {p : Nat} {s : FileSys.State} {a : View}
  {watch : Note → Bool} {E : Cut Stop Note → Prop}

def readFile (inum : Word) : KernM (Option (List Byte)) := do
  let ip ← inodeGet rootdev inum
  inodeLock ip
  let s ← Code.get
  inodeRead ip 0 (s.inode ip).size

structure Located (image : Nat → Block) : Prop where
  inodes : ∀ inum : Word, inum.toNat < (superblockOf (image 1)).ninodes.toNat → (iblock inum).toNat = i2b inum.toNat
  bitmap : ∀ q : Word, q.toNat < (superblockOf (image 1)).size.toNat →
    (bblock q (superblockOf (image 1)).ninodes).toNat = ninodes / ipb + 3

def Used (image : Nat → Block) (q : Word) : Prop :=
  q.toNat < firstData ∨ ∃ inum : Word, inum.toNat < tableLimit ∧
    ((∃ bn, bn * bsize < (inodeOf image inum).size.toNat ∧ blockNumber image (inodeOf image inum) bn = q) ∨
      ndirect * bsize < (inodeOf image inum).size.toNat ∧
        (inodeOf image inum).addrs (Fin.ofNat (ndirect + 1) ndirect) = q)

/-! ## The bitmap -/

section Bitmap

variable (fits : Fits files)

theorem Fits.toNat_fileSize (fits : Fits files) (i : Nat) :
    (ofNat 32 (fileSize files i)).toNat = fileSize files i := by
  have count : files.length + 2 ≤ 216 := fits.small
  have length : (contents files i).length ≤ 140 * 512 := length_contents_le fits.small fits.large i
  rw [BitVec.toNat_ofNat, Nat.mod_eq_of_lt]
  unfold fileSize
  split
  · show (16 * (files.length + 2) / 512 + 1) * 512 < 2 ^ 32
    omega
  · omega

theorem length_le_fileSize (files : List Input) (i : Nat) : (contents files i).length ≤ fileSize files i := by
  unfold fileSize
  split
  next root =>
    subst root
    rw [length_root]
    show 16 * (files.length + 2) ≤ (16 * (files.length + 2) / 512 + 1) * 512
    omega
  next => exact le_rfl

theorem Fits.direct_of_outside (fits : Fits files) {i bn : Nat} (below : bn * bsize < fileSize files i)
    (outside : ¬bn * bsize < (contents files i).length) : bn < ndirect := by
  have count : files.length + 2 ≤ 216 := fits.small
  unfold fileSize at below
  split at below
  · change bn * 512 < (16 * (files.length + 2) / 512 + 1) * 512 at below
    show bn < 12
    omega
  · exact absurd below outside

theorem contents_eq_nil {i : Nat} (none : ¬(1 ≤ i ∧ i < files.length + 2)) : contents files i = [] := by
  unfold contents
  rw [if_neg (by omega)]
  split
  · exact List.getD_eq_default _ _ (by rw [List.length_map]; omega)
  · rfl

variable (finished : Finished files l t) (few : l.uses.length ≤ nblocks)

include fits finished few

theorem Finished.toNat_lt_of_used {q : Word} (used : Used t.image q) : q.toNat < firstData + l.uses.length := by
  rcases used with low | ⟨inum, small, named⟩
  · exact lt_of_lt_of_le low (Nat.le_add_right _ _)
  have here := finished.inodeOf_eq small
  split at here
  · rw [here] at named
    rcases named with ⟨bn, below, rfl⟩ | ⟨-, rfl⟩
    · by_cases inside : bn * bsize < (contents files inum.toNat).length
      · have member : .data inum.toNat bn ∈ l.uses := (finished.live.data _ _).mpr (finished.content ▸ inside)
        have length : _ ≤ 140 * 512 := length_contents_le fits.small fits.large inum.toNat
        rw [finished.blockNumber_eq few member (by change bn * 512 < _ at inside; show bn < 140; omega)]
        exact (toNat_addr_lt few _).1
      · have direct := fits.direct_of_outside (fits.toNat_fileSize _ ▸ below) inside
        rw [blockNumber, if_pos direct]
        exact (toNat_addr_lt few _).1
    · exact (toNat_addr_lt few _).1
  · rw [here] at named
    rcases named with ⟨_, below, _⟩ | ⟨below, _⟩
    · exact absurd below (Nat.not_lt_zero _)
    · exact absurd below (Nat.not_lt_zero _)

theorem Finished.used_of_member {u : Use} (member : u ∈ l.uses) : Used t.image (l.addr u) := by
  have nonempty : ∀ {i n}, n < (l.content i).length → 1 ≤ i ∧ i < files.length + 2 := by
    intro i n below
    by_contra none
    rw [finished.content, contents_eq_nil none] at below
    exact absurd below (Nat.not_lt_zero _)
  have inode : ∀ {i}, 1 ≤ i ∧ i < files.length + 2 →
      ∃ inum : Word, inum.toNat = i ∧ inum.toNat < tableLimit ∧
        inodeOf t.image inum = l.inMemory i (ofNat 32 (fileSize files i)) := by
    intro i made
    have count : files.length + 1 < 208 := fits.inodes
    have number : (ofNat 32 i).toNat = i := by
      rw [BitVec.toNat_ofNat]
      omega
    have small : (ofNat 32 i).toNat < tableLimit := by
      rw [number]
      show i < 208
      omega
    have here := finished.inodeOf_eq small
    rw [number, if_pos made] at here
    exact ⟨_, number, small, here⟩
  have size : ∀ {i n}, n < (l.content i).length → n < (ofNat 32 (fileSize files i)).toNat := by
    intro i n below
    rw [finished.content] at below
    rw [fits.toNat_fileSize]
    exact lt_of_lt_of_le below (length_le_fileSize files i)
  right
  cases u with
  | data i bn =>
    have below := (finished.live.data i bn).mp member
    obtain ⟨inum, -, small, here⟩ := inode (nonempty below)
    refine ⟨inum, small, .inl ⟨bn, ?_, ?_⟩⟩
    · rw [here]
      exact size below
    · have length : (contents files i).length ≤ 140 * 512 := length_contents_le fits.small fits.large i
      rw [finished.content] at below
      rw [here]
      exact finished.blockNumber_eq few member (by change bn * 512 < _ at below; show bn < 140; omega)
  | table i =>
    have below := (finished.live.table i).mp member
    obtain ⟨inum, -, small, here⟩ := inode (nonempty below)
    refine ⟨inum, small, .inr ⟨?_, ?_⟩⟩
    · rw [here]
      exact size below
    · rw [here]
      rfl

theorem Finished.marked_iff_used {q : Word} (small : q.toNat < bpb) : Marked t.image q ↔ Used t.image q := by
  rw [finished.marked_iff few small]
  constructor
  · intro below
    rcases lt_or_ge q.toNat firstData with low | above
    · exact .inl low
    · obtain ⟨u, member, place⟩ := exists_serial finished.laid.nodup above below
      have addr : l.addr u = q := by
        apply BitVec.eq_of_toNat_eq
        rw [Layout.toNat_addr few]
        exact place
      exact addr ▸ finished.used_of_member fits few member
  · exact finished.toNat_lt_of_used fits few

end Bitmap

/-! ## Reading -/

theorem Clean.setInode {image : Nat → Block} (clean : Clean image a) (ip : Slot) (x : Inode) :
    Shows image (a.setInode ip x) := ⟨clean.home, clean.block⟩

theorem Clean.opened {image : Nat → Block} (clean : Clean image a) {inum : Word} (low : (iblock inum).toNat < size - nlog) :
    (a.opened inum).toDinode = inodeOf image inum := by
  rw [View.opened, inodeOf, clean.block _ low]

section Reading

variable (fits : Fits files) (finished : Finished files l t) (few : l.uses.length ≤ nblocks) (clean : Clean t.image a)
  (terms : Terms watch E p)

include fits finished few clean terms

theorem readFile_sees {k : Nat} (lt : k < files.length) :
    (readFile (ofNat 32 (k + 2))).Acts watch E p (Sees p [] a) fun r _ => r = some files[k].content := by
  have count : files.length + 1 < 208 := fits.inodes
  have number : (ofNat 32 (k + 2)).toNat = k + 2 := by
    rw [BitVec.toNat_ofNat]
    omega
  have small : (ofNat 32 (k + 2)).toNat < tableLimit := by
    rw [number]
    show k + 2 < 208
    omega
  generalize ofNat 32 (k + 2) = inum at number small
  have content : contents files (k + 2) = files[k].content := by
    rw [contents_of_two_le (Nat.le_add_left 2 k), Nat.add_sub_cancel, List.getD_eq_getElem _ _ (by rwa [List.length_map]),
      List.getElem_map]
  have sector : (iblock inum).toNat < size - nlog := by
    rw [toNat_iblock small, number]
    show (k + 2) / 8 + 2 < 1014
    omega
  have size : fileSize files (k + 2) = files[k].content.length := by
    rw [fileSize, if_neg (by omega), content]
  have inode : (a.opened inum).toDinode = l.inMemory (k + 2) (ofNat 32 (fileSize files (k + 2))) := by
    rw [clean.opened sector, finished.inodeOf_eq small, number, if_pos ⟨by omega, by omega⟩]
  let b := a.setInode (some 0) (a.opened inum)
  have opened : b.inode (some 0) = a.opened inum := View.inode_setInode_self
  have shows : Shows t.image b := clean.setInode _ _
  have addrs : ∀ j, (b.inode (some 0)).addrs j = l.addr (slotUse (k + 2) j) := by
    intro j
    rw [opened, inode]
    rfl
  have length : (b.inode (some 0)).size.toNat = files[k].content.length := by
    rw [opened, inode]
    exact (fits.toNat_fileSize (k + 2)).trans size
  have large := fits.large _ (List.getElem_mem lt)
  change _ ≤ 140 * 512 at large
  have member : ∀ j, j < files[k].content.length → .data (k + 2) (j / bsize) ∈ l.uses ∧ j / bsize < maxfile := by
    intro j inside
    rw [finished.live.data, finished.content, content]
    exact ⟨show j / 512 * 512 < _ by omega, show j / 512 < 140 by omega⟩
  have room : a.logged.length < nbuf ∨ E noBuffers := by
    rw [clean.logged]
    exact .inl (by decide)
  have type : (a.opened inum).type = tFile := by
    rw [inode]
    show kind (k + 2) = tFile
    rw [kind, if_neg (by omega)]
  have typed : (a.opened inum).type ≠ 0 := by
    rw [type]
    decide
  refine does_value (inodeGet_sees terms (get_unused clean.unused inum)) ?_
  refine .seq ((lockFirst_sees terms room (clean.home _ sector) (.inl typed)).conseq (fun _ sees => sees)
    fun _ _ locked => locked.1) ?_
  refine learn_inodes fun r inodes => ?_
  rw [inodes]
  have dev : (b.inode (some 0)).dev = rootdev := by
    rw [opened]
    rfl
  have read := inodeRead_sees (a := b) terms room dev 0 (b.inode (some 0)).size
    (by rw [opened, type]; decide) (Nat.zero_le _)
    (by rw [length]; show 0 + _ < 2 ^ 32; omega) (by
      intro j _ _ inside
      rw [length] at inside
      exact mapped_laid finished.laid finished.live few shows addrs (member j inside).1 (member j inside).2)
  refine read.conseq (fun _ sees => sees) fun _ _ post => post.1.trans (congrArg some ?_)
  have all : min (b.inode (some 0)).size.toNat ((b.inode (some 0)).size.toNat - (0 : Word).toNat) =
      files[k].content.length := by
    rw [length]
    exact Nat.min_self _
  rw [all]
  calc b.bytes (some 0) 0 files[k].content.length
      = (List.range files[k].content.length).map (fun j => files[k].content.getD (0 + j) 0) := by
        apply List.map_congr_left
        intro j inside
        have there := member j (List.mem_range.mp inside)
        rw [Nat.zero_add, byte_laid finished.laid finished.live few shows addrs there.1 there.2, finished.content, content]
    _ = (files[k].content.drop 0).take files[k].content.length := map_getD_range (le_of_eq (Nat.zero_add _))
    _ = files[k].content := by rw [List.drop_zero, List.take_length]

end Reading

theorem contents_agree (files : List Input) (fits : Fits files) : ∃ image, output files = some image ∧ Located image ∧
    (∀ q : Word, q.toNat < bpb → (Marked image q ↔ Used image q)) ∧
    ∀ disk p s, OnDisk image disk → Fresh disk p s → ∀ k (lt : k < files.length),
      ∃ r, (readFile (ofNat 32 (k + 2))).alone world p s = .ok (some files[k].content, r) := by
  obtain ⟨l, t, made, finished, few⟩ := fits.finished
  refine ⟨t.image, made, ⟨?_, ?_⟩, fun q small => finished.marked_iff_used fits few small, ?_⟩
  · rw [finished.super_eq]
    exact fun inum small => toNat_iblock (lt_trans small (by decide))
  · rw [finished.super_eq]
    exact fun q small => toNat_bblock (lt_trans small (by decide))
  · intro disk p s on fresh k lt
    obtain ⟨a, sees, clean⟩ := finished.clean few on fresh
    have terms : Terms (fun _ => false) (fun _ => False) p := ⟨nofun, .inl ⟨fresh.1, fresh.2.1⟩⟩
    obtain ⟨_, r, returned, rfl⟩ := (readFile_sees fits finished few clean terms lt s sees).returns
    exact ⟨r, returned⟩

theorem three_bytes_agree : ∃ image, output [⟨[97], [1, 2, 3]⟩] = some image ∧
    ∃ disk s r, OnDisk image disk ∧ Fresh disk 1 s ∧ (readFile 2).alone world 1 s = .ok (some [1, 2, 3], r) := by
  have fits : Fits [⟨[97], [1, 2, 3]⟩] := ⟨by decide, by decide, by decide, by decide⟩
  obtain ⟨image, made, -, -, read⟩ := contents_agree _ fits
  obtain ⟨disk, s, on, fresh⟩ := exists_fresh image
  obtain ⟨r, returned⟩ := read disk 1 s on fresh 0 (by decide)
  exact ⟨image, made, disk, s, r, on, fresh, returned⟩

def crowd : List Input := List.replicate 208 ⟨[97], [1]⟩

theorem crowd_small : (∀ f ∈ crowd, slash ∉ f.name ∧ f.content.length ≤ maxfile * bsize) ∧
    blocksFor (direntSize * (crowd.length + 2)) + (crowd.map fun f => blocksFor f.content.length).sum ≤ nblocks := by
  constructor
  · intro f member
    rw [List.eq_of_mem_replicate member]
    decide
  · rw [crowd, List.map_replicate, List.sum_replicate_nat, List.length_replicate]
    decide

theorem crowd_unreadable : (∀ f ∈ crowd, f.content.length ≤ maxfile * bsize) ∧
    blocksFor (direntSize * (crowd.length + 2)) + (crowd.map fun f => blocksFor f.content.length).sum ≤ nblocks ∧
    ∃ image, output crowd = some image ∧ ∃ disk s, OnDisk image disk ∧ Fresh disk 1 s ∧
      (readFile 209).alone world 1 s = .error noType := by
  obtain ⟨each, blocks⟩ := crowd_small
  have few : crowd.length + 2 ≤ inodeLimit := by
    rw [crowd, List.length_replicate]
    decide
  obtain ⟨l, t, made, finished, used⟩ :=
    exists_finished (fun f member => (each f member).1) few (fun f member => (each f member).2) blocks
  obtain ⟨disk, s, on, fresh⟩ := exists_fresh t.image
  obtain ⟨a, sees, clean⟩ := finished.clean used on fresh
  refine ⟨fun f member => (each f member).2, blocks, t.image, made, disk, s, on, fresh, ?_⟩
  have short : l.uses.length ≤ 215 := by
    apply (length_le_total finished.laid.nodup finished.laid.below).trans
    rw [total_contents few, crowd, List.map_replicate, List.sum_replicate_nat, List.length_replicate]
    decide
  have free : (a.opened 209).type = 0 := by
    have inode := clean.opened (show (iblock 209).toNat < size - nlog by decide)
    rw [inode]
    have word : t.image 28 (Fin.ofNat 128 16) = 0 := by
      refine (congrFun finished.bitmap _).trans (bitmap_clear ?_)
      show 29 + l.uses.length ≤ 512
      omega
    show ((t.image 28) (Fin.ofNat 128 16)).extractLsb' 0 16 = 0
    rw [word]
    decide
  have terms : Terms (fun _ => false) (fun c => c = noType) 1 := ⟨nofun, .inl ⟨by decide, by decide⟩⟩
  have room : a.logged.length < nbuf ∨ noBuffers = noType := by
    rw [clean.logged]
    exact .inl (by decide)
  have stuck : (readFile 209).Does world (fun c => c = noType) 1 (Sees 1 [] a) fun _ _ => False := by
    refine does_value (inodeGet_sees terms (get_unused clean.unused 209)) ?_
    refine .seq (Q := fun _ _ => False) ((lockFirst_sees terms room (clean.home _ (by decide)) (.inr rfl)).conseq
      (fun _ sees => sees) fun _ _ locked => locked.2 free) ?_
    exact fun _ none => none.elim
  obtain ⟨e, ended, rfl⟩ := Turn.Gives.fails (stuck s sees)
  exact ended

end Certikos.Mkfs
