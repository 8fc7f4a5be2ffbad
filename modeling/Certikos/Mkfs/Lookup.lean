import Certikos.FileSys.Holes
import Certikos.Mkfs.Image

/-!
# The kernel on the image

The kernel finds the blocks of a file, and the entries of the root directory, where `mkfs` put them.
-/

namespace Certikos.Mkfs
open Lib
open FileSys
open Fs (Block Disk nbuf rootdev)

def OnDisk (image : Nat → Block) (disk : Disk) : Prop :=
  ∀ q : Word, q.toNat < size → disk ⟨rootdev, q⟩ = image q.toNat

def Fresh (disk : Disk) (p : Nat) (s : FileSys.State) : Prop :=
  1 ≤ p ∧ p < numIds ∧ ∃ live null devsw eax, live p = true ∧
    (s = boot disk live null devsw eax ∨ logInit.alone world p (boot disk live null devsw eax) = .ok (⟨⟩, s))

def Mounted (disk : Disk) (p : Nat) (s : FileSys.State) : Prop :=
  1 ≤ p ∧ p < numIds ∧ ∃ live null devsw eax, live p = true ∧
    logInit.alone world p (boot disk live null devsw eax) = .ok (⟨⟩, s)

structure Shows (image : Nat → Block) (a : View) : Prop where
  home : ∀ q : Word, q.toNat < size - nlog → a.Home q
  block : ∀ q : Word, q.toNat < size - nlog → a.block q = image q.toNat

structure Clean (image : Nat → Block) (a : View) : Prop extends Shows image a where
  logged : a.logged = []
  idle : a.trans = false
  unused : a.Unused

variable {files : List Input} {l : Layout} {t : State} {disk : Disk} {p : Nat} {s : FileSys.State}

theorem superblockOf_superblock : superblockOf superblock = ⟨1024, 985, 200, 10⟩ := by
  rfl

section Image

variable (finished : Finished files l t) (few : l.uses.length ≤ nblocks)

include finished few

theorem Finished.logInit_gives (on : OnDisk t.image disk) (low : 1 ≤ p) (high : p < numIds) {live : Nat → Bool}
    (alive : live p = true) (null : Inode) (devsw : Nat → Bool × Bool) (eax : Nat → Word) :
    (logInit p (boot disk live null devsw eax)).Gives world (fun _ => False) p fun _ s =>
      ∃ a, Sees p [] a s ∧ Clean t.image a ∧ a.start = 1014 ∧ a.size = 10 := by
  have sees := boot_sees disk null devsw eax alive
  generalize state : boot disk live null devsw eax = s₀ at sees
  have unused : s₀.view.Unused := by
    rw [← state]
    exact fun _ => rfl
  have block : ∀ q : Word, q.toNat < 1024 → s₀.view.block q = t.image q.toNat := by
    rw [← state]
    exact on
  have log : s₀.view.trans = false ∧ s₀.view.size = 0 := by
    rw [← state]
    exact ⟨rfl, rfl⟩
  have super : superblockOf (s₀.view.block 1) = ⟨1024, 985, 200, 10⟩ := by
    rw [block 1 (by decide), ← superblockOf_superblock]
    exact congrArg superblockOf finished.laid.super
  have empty : s₀.view.block 1014 (Fin.ofNat 128 0) = 0 := by
    change l.uses.length ≤ 985 at few
    rw [block 1014 (by decide)]
    exact congrFun (finished.laid.clear 1014 (show 29 + l.uses.length ≤ 1014 by omega)) _
  have terms : Terms (fun _ => false) (fun _ => False) p := ⟨by simp, .inl ⟨low, high⟩⟩
  have after := logInit_sees terms log.2 rfl 1014 10 (by rw [super]; decide) (by rw [super]) (by decide) (by decide)
    empty s₀ sees
  refine after.mono (fun _ s sees => ⟨_, sees, ⟨⟨?_, ?_⟩, rfl, log.1, unused⟩, rfl, rfl⟩) fun _ ended => ended
  · intro q lt
    change q.toNat < 1014 at lt
    refine ⟨by omega, ?_⟩
    rintro ⟨above, below⟩
    change 1014 ≤ q.toNat at above
    omega
  · intro q lt
    change q.toNat < 1014 at lt
    exact block q (by omega)

theorem Finished.mounted (on : OnDisk t.image disk) (mounted : Mounted disk p s) :
    ∃ a, Sees p [] a s ∧ Clean t.image a ∧ a.start = 1014 ∧ a.size = 10 := by
  obtain ⟨low, high, live, null, devsw, eax, alive, init⟩ := mounted
  exact (finished.logInit_gives few on low high alive null devsw eax).of_ok init

theorem Finished.exists_mounted : ∃ disk s, OnDisk t.image disk ∧ Mounted disk 1 s := by
  have on : OnDisk t.image fun x => t.image x.sector.toNat := fun _ _ => rfl
  have starts := fun (live : Nat → Bool) (alive : live 1 = true) => (finished.logInit_gives few on (by decide) (by decide)
    alive ⟨⟨0, 0, 0, 0, 0, fun _ => 0⟩, 0, 0, 0, false, false⟩ (fun _ => (false, false)) fun _ => 0).returns
  obtain ⟨_, s, returned, -⟩ := starts (fun _ => true) rfl
  exact ⟨_, s, on, by decide, by decide, _, _, _, _, rfl, returned⟩

theorem Finished.clean (on : OnDisk t.image disk) (fresh : Fresh disk p s) : ∃ a, Sees p [] a s ∧ Clean t.image a := by
  obtain ⟨low, high, live, null, devsw, eax, alive, either⟩ := fresh
  rcases either with rfl | init
  · refine ⟨_, boot_sees disk null devsw eax alive, ⟨?_, ?_⟩, rfl, rfl, fun _ => rfl⟩
    · intro q lt
      change q.toNat < 1014 at lt
      refine ⟨by omega, ?_⟩
      rintro ⟨above, below⟩
      change q.toNat < 0 + 0 at below
      omega
    · intro q lt
      change q.toNat < 1014 at lt
      exact on q (show q.toNat < 1024 by omega)
  · obtain ⟨a, sees, clean, -⟩ := finished.mounted few on ⟨low, high, live, null, devsw, eax, alive, init⟩
    exact ⟨a, sees, clean⟩

end Image

/-! ## Files -/

section Files

variable {bound : Nat → Nat} {written : Nat → Prop} {a : View} {ip : Slot} {i bn : Nat}
  (laid : Laid bound l written t) (live : l.Live) (few : l.uses.length ≤ nblocks) (shows : Shows t.image a)
  (addrs : ∀ k, (a.inode ip).addrs k = l.addr (slotUse i k))

theorem Shows.block_addr {image : Nat → Block} (shows : Shows image a) (few : l.uses.length ≤ nblocks) (u : Use) :
    a.Home (l.addr u) ∧ a.block (l.addr u) = image (l.place u) := by
  have place := l.toNat_addr (u := u) few
  have lt : l.place u < 29 + l.uses.length := Layout.place_lt
  change l.uses.length ≤ 985 at few
  have low : (l.addr u).toNat < size - nlog := by
    rw [place]
    show _ < 1014
    omega
  rw [← place]
  exact ⟨shows.home _ low, shows.block _ low⟩

theorem Laid.entry (laid : Laid bound l written t) (live : l.Live) (member : .data i bn ∈ l.uses) (large : ndirect ≤ bn)
    (range : bn < maxfile) : t.image (l.place (.table i)) (Fin.ofNat 128 (bn - ndirect)) = l.addr (.data i bn) := by
  have entry := laid.tables i (live.table_of_data member large) (Fin.ofNat 128 (bn - ndirect))
  rwa [entry_index large range] at entry

include laid live few shows addrs

theorem blockOf_laid (member : .data i bn ∈ l.uses) (range : bn < maxfile) : a.blockOf ip bn = l.addr (.data i bn) := by
  unfold View.blockOf
  by_cases direct : bn < ndirect
  · rw [if_pos direct, addrs, slotUse_direct direct]
  · rw [if_neg direct, addrs, slotUse_table, (shows.block_addr few _).2]
    exact laid.entry live member (not_lt.mp direct) range

theorem mapped_laid (member : .data i bn ∈ l.uses) (range : bn < maxfile) : a.Mapped ip bn := by
  have number := blockOf_laid laid live few shows addrs member range
  refine ⟨range, ?_, ?_, ?_⟩
  · intro indirect
    have table := live.table_of_data member indirect
    rw [addrs, slotUse_table]
    exact ⟨fun zero => (l.addr_eq_zero few).mp zero table, (shows.block_addr few _).1⟩
  · rw [number]
    exact fun zero => (l.addr_eq_zero few).mp zero member
  · rw [number]
    exact (shows.block_addr few _).1

theorem byte_laid {k : Nat} (member : .data i (k / bsize) ∈ l.uses) (range : k / bsize < maxfile) :
    a.byte ip k = (l.content i).getD k 0 := by
  have bytes := laid.bytes i (k / bsize) member (k % bsize) (Nat.mod_lt _ (by decide))
  rw [Nat.div_add_mod'] at bytes
  rw [View.byte, blockOf_laid laid live few shows addrs member range, (shows.block_addr few _).2]
  exact bytes

end Files

/-! ## The root directory -/

theorem map_getD_range {xs : List Byte} {off n : Nat} (within : off + n ≤ xs.length) :
    (List.range n).map (fun j => xs.getD (off + j) 0) = (xs.drop off).take n := by
  apply List.ext_getElem
  · rw [List.length_map, List.length_range, List.length_take, List.length_drop]
    omega
  · intro j lt _
    rw [List.length_map, List.length_range] at lt
    rw [List.getElem_map, List.getElem_range, List.getElem_take, List.getElem_drop, List.getD_eq_getElem]

theorem take_drop_flatten {ds : List (List Byte)} {width j : Nat} (each : ∀ d ∈ ds, d.length = width)
    (lt : j < ds.length) : (ds.flatten.drop (width * j)).take width = ds[j] := by
  induction ds generalizing j with
  | nil => exact absurd lt (Nat.not_lt_zero j)
  | cons d ds ih =>
    have length := each d (.head _)
    cases j with
    | zero =>
      rw [Nat.mul_zero, List.drop_zero, List.flatten_cons, List.take_left' length]
      rfl
    | succ j =>
      rw [List.flatten_cons, Nat.mul_succ, Nat.add_comm, ← List.drop_drop, List.drop_left' length]
      exact ih (fun d' member => each d' (List.mem_cons_of_mem d member)) _

theorem Clean.atRoot {image : Nat → Block} {a : View} (clean : Clean image a) : Shows image a.atRoot :=
  ⟨clean.home, clean.block⟩

variable {j : Nat}

section Root

variable {a : View} (finished : Finished files l t) (few : l.uses.length ≤ nblocks) (clean : Clean t.image a)

include finished clean

theorem Finished.root_eq : a.root =
    { toDinode := l.inMemory 1 (BitVec.ofNat 32 (rootSize files)), dev := rootdev, inum := rootino, ref := 1
      busy := true, valid := true } := by
  have block : a.block 2 = t.image 2 := clean.block 2 (by decide)
  unfold View.root
  rw [block, finished.root]

theorem Finished.size_root (small : files.length + 2 ≤ inodeLimit) : a.root.size.toNat = rootSize files := by
  change files.length + 2 ≤ 216 at small
  rw [finished.root_eq clean]
  show (BitVec.ofNat 32 (rootSize files)).toNat = _
  rw [BitVec.toNat_ofNat, Nat.mod_eq_of_lt]
  show (16 * (files.length + 2) / 512 + 1) * 512 < 2 ^ 32
  omega

include few

omit few in
theorem Finished.addrs_root (k : Fin (ndirect + 1)) : (a.atRoot.inode (some 0)).addrs k = l.addr (slotUse 1 k) := by
  rw [View.atRoot, View.inode_setInode_self, finished.root_eq clean]
  rfl

omit few clean in
theorem Finished.data_root {bn : Nat} : .data 1 bn ∈ l.uses ↔ bn * bsize < direntSize * (files.length + 2) := by
  rw [finished.live.data, finished.content, length_root]

variable (small : files.length + 2 ≤ inodeLimit)
include small

theorem Finished.mapped_root {bn : Nat}
    (below : bn * bsize < direntSize * (files.length + 2)) : a.atRoot.Mapped (some 0) bn := by
  refine mapped_laid finished.laid finished.live few clean.atRoot (finished.addrs_root clean)
    (finished.data_root.mpr below) ?_
  change bn * 512 < 16 * _ at below
  change files.length + 2 ≤ 216 at small
  show bn < 140
  omega

theorem Finished.byte_root {k : Nat} (below : k / bsize * bsize < direntSize * (files.length + 2)) :
    a.atRoot.byte (some 0) k = (dirents files).flatten.getD k 0 := by
  rw [byte_laid finished.laid finished.live few clean.atRoot (finished.addrs_root clean)
    (finished.data_root.mpr below), finished.content]
  · rfl
  · change k / 512 * 512 < 16 * _ at below
    change files.length + 2 ≤ 216 at small
    show k / 512 < 140
    omega

theorem Finished.dirent_root (lt : j < files.length + 2) :
    a.atRoot.dirent (some 0) j = (dirents files).getD j [] := by
  have length : (dirents files).flatten.length = 16 * (files.length + 2) := length_root files
  have entries : j < (dirents files).length := by rw [length_dirents]; exact lt
  have bytes : a.atRoot.dirent (some 0) j =
      (List.range direntSize).map fun i => (dirents files).flatten.getD (direntSize * j + i) 0 := by
    apply List.map_congr_left
    intro i member
    have lt' := List.mem_range.mp member
    refine finished.byte_root few clean small ?_
    change i < 16 at lt'
    show (16 * j + i) / 512 * 512 < 16 * (files.length + 2)
    omega
  rw [bytes, map_getD_range (by rw [length]; show 16 * j + 16 ≤ _; omega),
    take_drop_flatten (fun _ => length_of_mem_dirents) entries, List.getD_eq_getElem _ _ entries]

theorem Finished.dirent_end (past : files.length + 2 ≤ j)
    (below : direntSize * j / bsize * bsize < direntSize * (files.length + 2)) :
    direntInum (a.atRoot.dirent (some 0) j) = 0 := by
  have length : (dirents files).flatten.length = 16 * (files.length + 2) := length_root files
  change 16 * j / 512 * 512 < 16 * (files.length + 2) at below
  have bytes : a.atRoot.dirent (some 0) j = (List.range direntSize).map fun _ => 0 := by
    apply List.map_congr_left
    intro i member
    have lt' := List.mem_range.mp member
    change i < 16 at lt'
    have block : (16 * j + i) / 512 = 16 * j / 512 := by
      clear below past
      omega
    have within : (direntSize * j + i) / bsize * bsize < direntSize * (files.length + 2) := by
      show (16 * j + i) / 512 * 512 < 16 * (files.length + 2)
      rw [block]
      exact below
    have beyond : (dirents files).flatten.length ≤ direntSize * j + i := by
      rw [length]
      show _ ≤ 16 * j + i
      omega
    exact (finished.byte_root few clean small within).trans (List.getD_eq_default _ _ beyond)
  rw [bytes]
  decide

theorem Finished.lists_root {n : Nat} (size : direntSize * n ≤ rootSize files)
    (each : ∀ j, j < n → direntSize * j / bsize * bsize < direntSize * (files.length + 2)) :
    a.atRoot.Lists (some 0) n := by
  have root : a.atRoot.inode (some 0) = a.root := View.inode_setInode_self
  refine ⟨by rw [root]; rfl, ?_, ?_, fun j lt => finished.mapped_root few clean small (each j lt)⟩
  · rw [root, finished.root_eq clean]
    rfl
  · rw [root, finished.size_root clean small]
    exact size

theorem Finished.lists_files : a.atRoot.Lists (some 0) (files.length + 2) := by
  apply finished.lists_root few clean small
  · show 16 * (files.length + 2) ≤ (16 * (files.length + 2) / 512 + 1) * 512
    omega
  · intro i lt
    show 16 * i / 512 * 512 < 16 * (files.length + 2)
    omega

end Root

/-! ## Names -/

def nameOf (files : List Input) (j : Nat) : List Byte := (dot :: dotdot :: files.map Input.entry).getD j []

def inumOf (j : Nat) : BitVec 16 := if j < 2 then 1 else BitVec.ofNat 16 j

theorem getD_dirents (lt : j < files.length + 2) :
    (dirents files).getD j [] = direntBytes (inumOf j) (nameOf files j) := by
  match j with
  | 0 => rfl
  | 1 => rfl
  | j + 2 =>
    have inside : j < files.length := by omega
    have index : inumOf (j + 2) = BitVec.ofNat 16 (j + 2) := if_neg (by omega)
    rw [index, dirents, nameOf, List.getD_cons_succ, List.getD_cons_succ, List.getD_cons_succ, List.getD_cons_succ,
      List.getD_eq_getElem _ _ (by simpa using inside), List.getD_eq_getElem _ _ (by simpa using inside)]
    simp

theorem inumOf_ne_zero (small : j < inodeLimit) : inumOf j ≠ 0 := by
  change j < 216 at small
  unfold inumOf
  split
  · decide
  · intro zero
    have := congrArg BitVec.toNat zero
    rw [BitVec.toNat_ofNat] at this
    change j % 65536 = 0 at this
    omega

theorem entry_plain {f : Input} {c : Byte} (plain : c ∉ f.name) : c ∉ f.entry := by
  unfold Input.entry
  split
  · exact fun member => plain (List.mem_of_mem_tail member)
  · exact plain

theorem nameOf_plain (plain : ∀ f ∈ files, 0 ∉ f.name) (j : Nat) : 0 ∉ nameOf files j := by
  match j with
  | 0 => exact (by decide : 0 ∉ dot)
  | 1 => exact (by decide : 0 ∉ dotdot)
  | j + 2 =>
    rw [nameOf, List.getD_cons_succ, List.getD_cons_succ]
    rcases lt_or_ge j (files.map Input.entry).length with before | after
    · rw [List.getD_eq_getElem _ _ before, List.getElem_map]
      exact entry_plain (plain _ (List.getElem_mem _))
    · rw [List.getD_eq_default _ _ after]
      exact List.not_mem_nil

theorem Finished.named_iff {a : View} (finished : Finished files l t) (few : l.uses.length ≤ nblocks)
    (clean : Clean t.image a) (small : files.length + 2 ≤ inodeLimit) (plain : ∀ f ∈ files, 0 ∉ f.name)
    {name : List Byte} (plain' : 0 ∉ name) (lt : j < files.length + 2) :
    Named (name.take (dirsiz - 1)) (a.atRoot.dirent (some 0) j) ↔
      (nameOf files j).take dirsiz = name.take (dirsiz - 1) := by
  have short : (name.take (dirsiz - 1)).length ≤ dirsiz := by
    rw [List.length_take]
    show min 13 _ ≤ 14
    omega
  rw [finished.dirent_root few clean small lt, getD_dirents lt,
    named_direntBytes (nameOf_plain plain j) (fun member => plain' (List.mem_of_mem_take member)) short]
  exact and_iff_right (inumOf_ne_zero (lt_of_lt_of_le lt small))

end Certikos.Mkfs
