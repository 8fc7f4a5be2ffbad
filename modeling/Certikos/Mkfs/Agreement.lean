import Certikos.Mkfs.Lookup

/-!
# What the kernel finds on the image

Where the two programs agree on names, and where the size of the root directory leaves a hole for the kernel to fall
into.
-/

namespace Certikos.Mkfs
open Lib
open BitVec (ofNat toNat_ofNat)
open FileSys
open Fs (Block Disk nbuf rootdev)

variable {files : List Input} {l : Layout} {t : State} {disk : Disk} {p : Nat} {s : FileSys.State} {a : View}
  {watch : Note → Bool} {E : Cut Stop Note → Prop} {name : List Byte}

structure Element (name : List Byte) : Prop where
  nonempty : name ≠ []
  plain : slash ∉ name ∧ 0 ∉ name

def Missing (files : List Input) (name : List Byte) : Prop :=
  ∀ j, j < files.length + 2 → (nameOf files j).take dirsiz ≠ name.take (dirsiz - 1)

theorem Fits.small (fits : Fits files) : files.length + 2 ≤ inodeLimit := le_trans fits.inodes (by decide)

theorem Fits.nulFree (fits : Fits files) : ∀ f ∈ files, 0 ∉ f.name := fun f member => (fits.names f member).2

section Lookup

variable (fits : Fits files) (finished : Finished files l t) (few : l.uses.length ≤ nblocks) (clean : Clean t.image a)
  (terms : Terms watch E p) (element : Element name)

omit fits in
include finished clean in
theorem Finished.dir_root : a.root.type = tDir ∧ a.root.nlink ≠ 0 := by
  rw [finished.root_eq clean]
  exact ⟨rfl, show (1 : BitVec 16) ≠ 0 by decide⟩

include fits finished few clean terms element

theorem namei_first {j : Nat} (lt : j < files.length + 2)
    (here : (nameOf files j).take dirsiz = name.take (dirsiz - 1))
    (before : ∀ i, i < j → (nameOf files i).take dirsiz ≠ name.take (dirsiz - 1)) :
    (namei (slash :: name)).Acts watch E p (Sees p [] a) fun ip =>
      RefersTo ip ((inumOf j).setWidth 32) := by
  obtain ⟨type, linked⟩ := finished.dir_root clean
  have small := fits.small
  have named := fun {i : Nat} => finished.named_iff few clean small fits.nulFree element.plain.2 (j := i)
  have lists := finished.lists_files few clean small
  have found := namei_found terms (.inl (by rw [clean.logged]; decide)) (clean.home 2 (by decide)) type linked
    clean.unused element.nonempty element.plain.1 lists
    (fun i lt' => fun same => before i lt' ((named (by omega)).mp same)) lt ((named lt).mpr here)
  rw [finished.dirent_root few clean small lt, getD_dirents lt, direntInum_direntBytes] at found
  exact found

theorem namei_none (whole : (files.length + 2) % 32 ≠ 0) (missing : Missing files name) :
    (namei (slash :: name)).Acts watch E p (Sees p [] a) fun ip _ => ip = none := by
  obtain ⟨type, linked⟩ := finished.dir_root clean
  have small := fits.small
  have size : rootSize files = direntSize * (32 * ((files.length + 2) / 32 + 1)) := by
    show (16 * (files.length + 2) / 512 + 1) * 512 = 16 * _
    omega
  have below : ∀ j, j < 32 * ((files.length + 2) / 32 + 1) →
      direntSize * j / bsize * bsize < direntSize * (files.length + 2) := by
    intro j lt
    show 16 * j / 512 * 512 < 16 * (files.length + 2)
    omega
  refine namei_missing terms (.inl (by rw [clean.logged]; decide)) (clean.home 2 (by decide)) type linked
    clean.unused element.nonempty element.plain.1 (finished.lists_root few clean small (le_of_eq size.symm) below)
    ?_ ((finished.size_root clean small).trans size)
  intro j lt same
  rcases lt_or_ge j (files.length + 2) with before | past
  · exact missing j before ((finished.named_iff few clean small fits.nulFree element.plain.2 before).mp same)
  · exact same.1 (finished.dirent_end few clean small past (below j lt))

theorem namei_stuck (hollow : (files.length + 2) % 32 = 0) (missing : Missing files name)
    (told : ∀ ip bn, watch (.hole ip bn) = true → E (.notes (.hole ip bn)))
    (stuck : ∀ ip bn, watch (.hole ip bn) = false → Stuck watch E p (Sees p [] a.atRoot) (blockAlloc rootdev)) :
    Stuck watch E p (Sees p [] a) (namei (slash :: name)) := by
  obtain ⟨type, -⟩ := finished.dir_root clean
  have small := fits.small
  have few' : files.length + 2 ≤ 216 := small
  have lists := finished.lists_files few clean small
  have index : (blockIndex (direntOff (files.length + 2))).toNat = (files.length + 2) / 32 := by
    rw [toNat_blockIndex, toNat_direntOff (by omega)]
    show 16 * (files.length + 2) / 512 = _
    omega
  have direct : (files.length + 2) / 32 < ndirect := by
    show _ < 12
    omega
  refine namei_hole terms (.inl (by rw [clean.logged]; decide)) (clean.home 2 (by decide)) type
    clean.unused element.nonempty element.plain.1 lists ?_ ?_ ?_ ⟨?_, ?_, told _ _, stuck _ _⟩
  · intro j lt same
    exact missing j lt ((finished.named_iff few clean small fits.nulFree element.plain.2 lt).mp same)
  · rw [finished.size_root clean small]
    show 16 * (files.length + 2) < (16 * (files.length + 2) / 512 + 1) * 512
    omega
  · show 16 * (files.length + 2 + 1) < 2 ^ 32
    omega
  · rw [index]
    exact direct
  · rw [index, finished.addrs_root clean, Layout.addr_eq_zero few, slotUse_direct direct, finished.data_root]
    show ¬(files.length + 2) / 32 * 512 < 16 * (files.length + 2)
    omega

end Lookup

theorem Finished.alloc_stuck (finished : Finished files l t) (few : l.uses.length ≤ nblocks) (clean : Clean t.image a)
    (terms : Terms watch E p) (ends : ∀ c, E c) : Stuck watch E p (Sees p [] a.atRoot) (blockAlloc rootdev) := by
  change l.uses.length ≤ 985 at few
  have super : superblockOf (a.block 1) = ⟨1024, 985, 200, 10⟩ := by
    rw [clean.block 1 (by decide), ← superblockOf_superblock]
    exact congrArg superblockOf finished.laid.super
  have map : a.block (bblock 0 200) = Mkfs.bitmap (29 + l.uses.length) :=
    (clean.block (bblock 0 200) (by decide)).trans finished.bitmap
  have stuck := blockAlloc_stuck (a := a.atRoot) ends terms clean.idle (clean.home 1 (by decide))
  rw [show a.atRoot.block = a.block from rfl, super] at stuck
  refine stuck (clean.home (bblock 0 200) (by decide)) (by decide) ?_
  rw [map]
  unfold freeBit
  intro none
  have taken := List.find?_eq_none.mp none 1014 (List.mem_range.mpr (by decide))
  rw [bitAt_bitmap (by show 29 + l.uses.length ≤ 4096; omega) (by decide),
    decide_eq_false (show ¬1014 < 29 + l.uses.length by omega)] at taken
  exact taken (by decide)

/-! ## Holes -/

def inodeOf (image : Nat → Block) (inum : Word) : Dinode := dinodeAt (image (iblock inum).toNat) inum

def blockNumber (image : Nat → Block) (d : Dinode) (bn : Nat) : Word :=
  if bn < ndirect then d.addrs (Fin.ofNat (ndirect + 1) bn)
  else image (d.addrs (Fin.ofNat (ndirect + 1) ndirect)).toNat (Fin.ofNat 128 (bn - ndirect))

def fileSize (files : List Input) (i : Nat) : Nat := if i = 1 then rootSize files else (contents files i).length

theorem toNat_iblock {inum : Word} (small : inum.toNat < tableLimit) : (iblock inum).toNat = i2b inum.toNat := by
  change inum.toNat < 208 at small
  rw [iblock, BitVec.toNat_add, BitVec.toNat_udiv]
  show (inum.toNat / 8 + 2) % 2 ^ 32 = inum.toNat / 8 + 2
  omega

def Marked (image : Nat → Block) (q : Word) : Prop :=
  bitAt (image (bblock q (superblockOf (image 1)).ninodes).toNat) (q.toNat % bpb) = true

def Allocated (image : Nat → Block) (q : Word) : Prop := q ≠ 0 ∧ Marked image q

def NoHoles (image : Nat → Block) : Prop :=
  ∀ inum : Word, inum.toNat < tableLimit → ∀ bn, bn * bsize < (inodeOf image inum).size.toNat →
    bn < maxfile ∧ Allocated image (blockNumber image (inodeOf image inum) bn)

section Holes

variable (finished : Finished files l t) (few : l.uses.length ≤ nblocks)

include finished few

omit finished few in
theorem toNat_bblock {q : Word} (small : q.toNat < bpb) : (bblock q 200).toNat = ninodes / ipb + 3 := by
  have low : (q / ofNat 32 bpb).toNat = 0 := by
    rw [BitVec.toNat_udiv]
    exact Nat.div_eq_of_lt small
  have zero : q / ofNat 32 bpb = 0 := BitVec.eq_of_toNat_eq low
  rw [bblock, zero]
  decide

omit few in
theorem Finished.super_eq : superblockOf (t.image 1) = ⟨1024, 985, 200, 10⟩ := by
  rw [finished.laid.super, superblockOf_superblock]

theorem Finished.marked_iff {q : Word} (small : q.toNat < bpb) :
    Marked t.image q ↔ q.toNat < firstData + l.uses.length := by
  change l.uses.length ≤ 985 at few
  unfold Marked
  rw [finished.super_eq, toNat_bblock small, Nat.mod_eq_of_lt small, finished.bitmap,
    bitAt_bitmap (by show 29 + l.uses.length ≤ 4096; omega) small]
  exact decide_eq_true_iff

omit finished in
theorem toNat_addr_lt (u : Use) : (l.addr u).toNat < firstData + l.uses.length ∧ (l.addr u).toNat < bpb := by
  have place : l.place u < 29 + l.uses.length := Layout.place_lt
  rw [Layout.toNat_addr few]
  change l.uses.length ≤ 985 at few
  exact ⟨place, show _ < 4096 by omega⟩

theorem Finished.allocated {u : Use} (member : u ∈ l.uses) : Allocated t.image (l.addr u) := by
  have bounds := toNat_addr_lt few u
  exact ⟨fun zero => (l.addr_eq_zero few).mp zero member, (finished.marked_iff few bounds.2).mpr bounds.1⟩

theorem Finished.blockNumber_eq {i bn : Nat} {n : Word} (member : .data i bn ∈ l.uses) (range : bn < maxfile) :
    blockNumber t.image (l.inMemory i n) bn = l.addr (.data i bn) := by
  unfold blockNumber
  by_cases direct : bn < ndirect
  · rw [if_pos direct, Layout.addrs_inMemory, slotUse_direct direct]
  · rw [if_neg direct, Layout.addrs_inMemory, slotUse_table, Layout.toNat_addr few]
    exact finished.laid.entry finished.live member (not_lt.mp direct) range

omit few in
theorem Finished.inodeOf_eq {inum : Word} (small : inum.toNat < tableLimit) :
    inodeOf t.image inum = if 1 ≤ inum.toNat ∧ inum.toNat < files.length + 2 then
      l.inMemory inum.toNat (ofNat 32 (fileSize files inum.toNat)) else ⟨0, 0, 0, 0, 0, fun _ => 0⟩ := by
  have sector : (iblock inum).toNat = i2b inum.toNat := toNat_iblock small
  have number : ofNat 32 inum.toNat = inum := by simp
  have next := finished.next
  unfold inodeOf
  rw [sector]
  by_cases made : 1 ≤ inum.toNat ∧ inum.toNat < files.length + 2
  · rw [if_pos made, fileSize]
    by_cases root : inum.toNat = 1
    · have one : inum = rootino := BitVec.eq_of_toNat_eq root
      rw [if_pos root, one]
      exact finished.root
    · have here := (finished.laid.inodes inum.toNat ⟨by omega, by omega, small⟩).2
      rw [number] at here
      rw [if_neg root, here, Layout.dinode, finished.content]
  · have blank := finished.laid.blank inum.toNat small (by omega)
    rw [number] at blank
    rw [if_neg made, blank]

omit finished few in
theorem inside_of_whole (whole : (files.length + 2) % 32 ≠ 0) {i bn : Nat}
    (below : bn * bsize < (ofNat 32 (fileSize files i)).toNat) : bn * bsize < (contents files i).length := by
  rw [toNat_ofNat] at below
  change bn * 512 < _ at below
  show bn * 512 < _
  by_cases root : i = 1
  · subst root
    have entries : (contents files 1).length = 16 * (files.length + 2) := length_root files
    rw [fileSize, if_pos rfl] at below
    change bn * 512 < (16 * (files.length + 2) / 512 + 1) * 512 % 2 ^ 32 at below
    omega
  · rw [fileSize, if_neg root] at below
    omega

theorem Finished.noHoles_iff (fits : Fits files) : NoHoles t.image ↔ (files.length + 2) % 32 ≠ 0 := by
  have count : files.length + 2 ≤ 216 := fits.small
  constructor
  · intro full hollow
    have size : (inodeOf t.image rootino).size.toNat = rootSize files := by
      have here : inodeOf t.image rootino = _ := finished.root
      rw [here]
      show (ofNat 32 (rootSize files)).toNat = _
      rw [toNat_ofNat, Nat.mod_eq_of_lt]
      show (16 * (files.length + 2) / 512 + 1) * 512 < 2 ^ 32
      omega
    have allocated := (full rootino (by decide) ((files.length + 2) / 32) (by
      rw [size]
      show _ * 512 < (16 * (files.length + 2) / 512 + 1) * 512
      omega)).2.1
    have direct : (files.length + 2) / 32 < ndirect := by
      show _ < 12
      omega
    have here : inodeOf t.image rootino = _ := finished.root
    rw [here, blockNumber, if_pos direct, Layout.addrs_inMemory, ne_eq, Layout.addr_eq_zero few, not_not,
      slotUse_direct direct, finished.data_root] at allocated
    change (files.length + 2) / 32 * 512 < 16 * (files.length + 2) at allocated
    omega
  · intro whole inum small bn below
    have here := finished.inodeOf_eq small
    by_cases made : 1 ≤ inum.toNat ∧ inum.toNat < files.length + 2
    · rw [if_pos made] at here
      rw [here] at below ⊢
      have within := inside_of_whole whole below
      have member : .data inum.toNat bn ∈ l.uses := (finished.live.data _ _).mpr (finished.content ▸ within)
      have length := length_contents_le fits.small fits.large inum.toNat
      have range : bn < maxfile := by
        change bn * 512 < _ at within
        change _ ≤ 140 * 512 at length
        show bn < 140
        omega
      rw [finished.blockNumber_eq few member range]
      exact ⟨range, finished.allocated few member⟩
    · rw [if_neg made] at here
      rw [here] at below
      exact absurd below (Nat.not_lt_zero _)

end Holes

def allocates : Note → Bool
  | .hole _ _ | .blockAlloc _ => true
  | _ => false

def MissesQuietly (p : Nat) (s : FileSys.State) (name : List Byte) : Prop :=
  ∃ t, (namei (slash :: name)).alone (watched allocates) p s = .ok (none, t)

theorem allocates_terms {E : Cut Stop Note → Prop} (low : 1 ≤ p) (high : p < numIds) : Terms allocates E p := by
  refine ⟨fun w watched => ?_, .inl ⟨low, high⟩⟩
  cases w <;> first | rfl | cases watched

theorem namei_allocates (fits : Fits files) (finished : Finished files l t) (few : l.uses.length ≤ nblocks)
    (clean : Clean t.image a) (sees : Sees p [] a s) (low : 1 ≤ p) (high : p < numIds) (element : Element name)
    (hollow : (files.length + 2) % 32 = 0) (missing : Missing files name) :
    ∃ ip bn, (namei (slash :: name)).alone (watched allocates) p s = .error (.notes (.hole ip bn)) := by
  have stuck := namei_stuck fits finished few clean (allocates_terms low high) element hollow missing
    (E := fun c => ∃ ip bn, c = .notes (.hole ip bn)) (fun ip bn _ => ⟨ip, bn, rfl⟩)
    (fun _ _ unwatched => by cases unwatched) s sees
  obtain ⟨e, ended, ip, bn, rfl⟩ := stuck.fails
  exact ⟨ip, bn, ended⟩

/-- The image has no hole, and the first lookup of a missing name allocates nothing, unless the entries of the root
directory fill their blocks. -/
theorem image_noHoles_iff (files : List Input) (fits : Fits files) : ∃ image, output files = some image ∧
    (NoHoles image ↔ (files.length + 2) % 32 ≠ 0) ∧
    ∀ disk p s name, OnDisk image disk → Fresh disk p s → Element name → Missing files name →
      (MissesQuietly p s name ↔ (files.length + 2) % 32 ≠ 0) := by
  obtain ⟨l, t, made, finished, few⟩ := fits.finished
  refine ⟨t.image, made, finished.noHoles_iff few fits, ?_⟩
  intro disk p s name on fresh element missing
  obtain ⟨a, sees, clean⟩ := finished.clean few on fresh
  obtain ⟨low, high, -⟩ := fresh
  constructor
  · rintro ⟨r, returned⟩ hollow
    obtain ⟨ip, bn, ended⟩ := namei_allocates fits finished few clean sees low high element hollow missing
    rw [returned] at ended
    cases ended
  · intro whole
    have none := namei_none fits finished few clean (allocates_terms (E := fun _ => False) low high) element whole
      missing s sees
    obtain ⟨ip, r, returned, rfl⟩ := none.returns
    exact ⟨r, returned⟩

theorem exists_fresh (image : Nat → Block) : ∃ disk s, OnDisk image disk ∧ Fresh disk 1 s :=
  ⟨fun q => image q.sector.toNat, _, fun _ _ => rfl, by decide, by decide, fun _ => true,
    ⟨⟨0, 0, 0, 0, 0, fun _ => 0⟩, 0, 0, 0, false, false⟩, fun _ => (false, false), fun _ => 0, rfl, .inl rfl⟩

theorem empty_image_noHoles : ∃ image, output [] = some image ∧ NoHoles image ∧
    ∃ disk s, OnDisk image disk ∧ Fresh disk 1 s ∧ MissesQuietly 1 s [120] := by
  have fits : Fits [] := ⟨by decide, by decide, by decide, by decide⟩
  obtain ⟨image, made, whole, quiet⟩ := image_noHoles_iff [] fits
  obtain ⟨disk, s, on, fresh⟩ := exists_fresh image
  have missing : Missing [] [120] := by
    unfold Missing
    decide
  exact ⟨image, made, whole.mpr (by decide), disk, s, on, fresh,
    (quiet disk 1 s [120] on fresh ⟨by decide, by decide⟩ missing).mpr (by decide)⟩

def thirtyFiles : List Input := (List.range 30).map fun k => ⟨[ofNat 8 (k + 97)], []⟩

theorem thirtyFiles_leave_hole : ∃ image, output thirtyFiles = some image ∧ ¬NoHoles image ∧
    ∃ disk s ip bn, OnDisk image disk ∧ Fresh disk 1 s ∧
      (namei [slash, 48]).alone (watched allocates) 1 s = .error (.notes (.hole ip bn)) := by
  have fits : Fits thirtyFiles := ⟨by decide, by decide, by decide, by decide⟩
  obtain ⟨l, t, made, finished, few⟩ := fits.finished
  obtain ⟨disk, s, on, fresh⟩ := exists_fresh t.image
  obtain ⟨a, sees, clean⟩ := finished.clean few on fresh
  have missing : Missing thirtyFiles [48] := by
    unfold Missing
    decide
  obtain ⟨ip, bn, ended⟩ := namei_allocates fits finished few clean sees fresh.1 fresh.2.1 ⟨by decide, by decide⟩
    (by decide) missing
  exact ⟨t.image, made, fun whole => (finished.noHoles_iff few fits).mp whole (by decide), disk, s, ip, bn, on, fresh,
    ended⟩

def Resolves (path : List Byte) (inum : Word) (p : Nat) (s : FileSys.State) : Prop :=
  ∃ ip r, (namei path).alone world p s = .ok (ip, r) ∧ RefersTo ip inum r

theorem refersTo_unique {ip : Slot} {m n : Word} (left : RefersTo ip m s) (right : RefersTo ip n s) : m = n := by
  obtain ⟨i, -, -, left⟩ := left
  obtain ⟨j, -, -, right⟩ := right
  exact left.symm.trans right

theorem inumOf_eq_iff {j k : Nat} (lt : j < inodeLimit) (lt' : k + 2 < inodeLimit) :
    (inumOf j).setWidth 32 = ofNat 32 (k + 2) ↔ j = k + 2 := by
  change j < 216 at lt
  change k + 2 < 216 at lt'
  unfold inumOf
  constructor
  · intro same
    have values := congrArg BitVec.toNat same
    split at values
    · have one : (1 : BitVec 16).toNat = 1 := rfl
      rw [BitVec.toNat_setWidth, one, toNat_ofNat] at values
      omega
    · simp only [BitVec.toNat_setWidth, toNat_ofNat] at values
      omega
  · rintro rfl
    rw [if_neg (by omega)]
    apply BitVec.eq_of_toNat_eq
    simp only [BitVec.toNat_setWidth, toNat_ofNat]
    omega

section Names

variable (fits : Fits files) (finished : Finished files l t) (few : l.uses.length ≤ nblocks) (clean : Clean t.image a)
  (sees : Sees p [] a s) (low : 1 ≤ p) (high : p < numIds)

include fits finished few clean sees

theorem not_resolves_of_missing (element : Element name) (missing : Missing files name) (inum : Word) :
    ¬Resolves (slash :: name) inum p s := by
  rintro ⟨ip, r, returned, i, rfl, -⟩
  by_cases whole : (files.length + 2) % 32 = 0
  · have terms : Terms (fun _ => false) (fun _ => True) p := ⟨nofun, .inr trivial⟩
    have stuck := namei_stuck fits finished few clean terms element whole missing (fun _ _ watched => by cases watched)
      (fun _ _ _ => finished.alloc_stuck few clean terms fun _ => trivial) s sees
    exact stuck.of_ok returned
  · have terms : Terms (fun _ => false) (fun _ => True) p := ⟨nofun, .inr trivial⟩
    have nothing := namei_none fits finished few clean terms element whole missing s sees
    cases nothing.of_ok returned

include low high

theorem resolves_iff (element : Element name) {k : Nat} (lt : k < files.length) :
    Resolves (slash :: name) (ofNat 32 (k + 2)) p s ↔
      (nameOf files (k + 2)).take dirsiz = name.take (dirsiz - 1) ∧
        ∀ j, j < k + 2 → (nameOf files j).take dirsiz ≠ name.take (dirsiz - 1) := by
  have terms : Terms (fun _ => false) (fun _ => False) p := ⟨nofun, .inl ⟨low, high⟩⟩
  have small := fits.small
  by_cases found : ∃ j, j < files.length + 2 ∧ (nameOf files j).take dirsiz = name.take (dirsiz - 1)
  · obtain ⟨below, here⟩ := Nat.find_spec found
    have before : ∀ j, j < Nat.find found → (nameOf files j).take dirsiz ≠ name.take (dirsiz - 1) :=
      fun j earlier same => Nat.find_min found earlier ⟨lt_trans earlier below, same⟩
    have first := namei_first fits finished few clean terms element below here before s sees
    obtain ⟨ip, r, returned, refers⟩ := first.returns
    have inum := inumOf_eq_iff (k := k) (lt_of_lt_of_le below small) (by omega)
    constructor
    · rintro ⟨ip', r', returned', refers'⟩
      have same := returned.symm.trans returned'
      cases same
      have place := inum.mp (refersTo_unique refers refers')
      rw [place] at here before
      exact ⟨here, before⟩
    · rintro ⟨here', before'⟩
      have place : Nat.find found = k + 2 := by
        apply le_antisymm (Nat.find_min' found ⟨by omega, here'⟩)
        exact not_lt.mp fun earlier => before' _ earlier here
      exact ⟨ip, r, returned, inum.mpr place ▸ refers⟩
  · have missing : Missing files name := fun j below same => found ⟨j, below, same⟩
    constructor
    · exact fun resolves =>
        absurd resolves (not_resolves_of_missing fits finished few clean sees element missing _)
    · exact fun matching => absurd matching.1 (missing (k + 2) (by omega))

omit fits finished few in
theorem not_resolves_slash {k : Nat} (lt : k + 2 < inodeLimit) : ¬Resolves [slash] (ofNat 32 (k + 2)) p s := by
  rintro ⟨ip, r, returned, refers⟩
  have terms : Terms (fun _ => false) (fun _ => False) p := ⟨nofun, .inl ⟨low, high⟩⟩
  have root : RefersTo ip rootino r := (namei_slash terms clean.unused s sees).of_ok returned
  have values := congrArg BitVec.toNat (refersTo_unique root refers)
  change 1 = (k + 2) % 2 ^ 32 at values
  change k + 2 < 216 at lt
  omega

end Names

theorem nameOf_add_two {k : Nat} (lt : k < files.length) : nameOf files (k + 2) = files[k].entry := by
  show (files.map Input.entry).getD k [] = files[k].entry
  rw [List.getD_eq_getElem _ _ (by rwa [List.length_map]), List.getElem_map]

theorem take_eq_take_iff {name : List Byte} : name.take dirsiz = name.take (dirsiz - 1) ↔ name.length < dirsiz := by
  show name.take 14 = name.take 13 ↔ name.length < 14
  constructor
  · intro same
    have lengths := congrArg List.length same
    rw [List.length_take, List.length_take] at lengths
    omega
  · intro short
    rw [List.take_of_length_le (by omega), List.take_of_length_le (by omega)]

def Distinguished (files : List Input) : Prop :=
  (∀ f ∈ files, f.entry ≠ [] ∧ f.entry.length < dirsiz ∧ f.entry ≠ dot ∧ f.entry ≠ dotdot) ∧
    (files.map Input.entry).Nodup

theorem distinguished_iff : Distinguished files ↔ ∀ k (lt : k < files.length), files[k].entry ≠ [] ∧
    (nameOf files (k + 2)).take dirsiz = files[k].entry.take (dirsiz - 1) ∧
      ∀ j, j < k + 2 → (nameOf files j).take dirsiz ≠ files[k].entry.take (dirsiz - 1) := by
  have short : ∀ {name : List Byte}, name.length < dirsiz → name.take dirsiz = name ∧ name.take (dirsiz - 1) = name :=
    fun lt => ⟨List.take_of_length_le (le_of_lt lt), List.take_of_length_le (Nat.le_sub_one_of_lt lt)⟩
  unfold Distinguished
  rw [List.Nodup, List.pairwise_map, List.pairwise_iff_getElem]
  constructor
  · rintro ⟨plain, distinct⟩ k lt
    obtain ⟨some', fits, notDot, notDotdot⟩ := plain _ (List.getElem_mem lt)
    rw [nameOf_add_two lt, (short fits).1, (short fits).2]
    refine ⟨some', rfl, fun j earlier => ?_⟩
    cases j with
    | zero => exact notDot.symm
    | succ j =>
      cases j with
      | zero => exact notDotdot.symm
      | succ j =>
        have lt' : j < k := by omega
        have fits' := (plain _ (List.getElem_mem (lt_trans lt' lt))).2.1
        rw [nameOf_add_two (lt_trans lt' lt), (short fits').1]
        exact distinct j k _ lt lt'
  · intro found
    have fits : ∀ k (lt : k < files.length), files[k].entry.length < dirsiz := by
      intro k lt
      have here := (found k lt).2.1
      rw [nameOf_add_two lt] at here
      exact take_eq_take_iff.mp here
    constructor
    · intro f member
      obtain ⟨k, lt, rfl⟩ := List.getElem_of_mem member
      obtain ⟨some', -, before⟩ := found k lt
      rw [(short (fits k lt)).2] at before
      exact ⟨some', fits k lt, (before 0 (by omega)).symm, (before 1 (by omega)).symm⟩
    · intro j k lt lt' earlier
      have other := (found k lt').2.2 (j + 2) (by omega)
      rwa [nameOf_add_two lt, (short (fits j lt)).1, (short (fits k lt')).2] at other

/-- The kernel finds each file under its name exactly when the names are short and told apart from each other and from
`.` and `..`. -/
theorem names_agree_iff (files : List Input) (fits : Fits files) : ∃ image, output files = some image ∧
    ∀ disk p s, OnDisk image disk → Fresh disk p s →
      ((∀ k (lt : k < files.length), Resolves (slash :: files[k].entry) (ofNat 32 (k + 2)) p s) ↔
        Distinguished files) := by
  obtain ⟨l, t, made, finished, few⟩ := fits.finished
  refine ⟨t.image, made, fun disk p s on fresh => ?_⟩
  obtain ⟨a, sees, clean⟩ := finished.clean few on fresh
  obtain ⟨low, high, -⟩ := fresh
  have small := fits.small
  rw [distinguished_iff]
  refine forall_congr' fun k => forall_congr' fun lt => ?_
  by_cases empty : files[k].entry = []
  · rw [empty]
    exact iff_of_false (not_resolves_slash clean sees low high (by omega)) fun found => found.1 rfl
  · have plain := fits.names _ (List.getElem_mem lt)
    have element : Element files[k].entry := ⟨empty, entry_plain plain.1, entry_plain plain.2⟩
    rw [resolves_iff fits finished few clean sees low high element lt]
    exact (and_iff_right empty).symm

theorem sh_resolves : ∃ image, output [⟨[95, 115, 104], [1, 2, 3]⟩] = some image ∧
    ∃ disk s, OnDisk image disk ∧ Fresh disk 1 s ∧ Resolves [slash, 115, 104] 2 1 s := by
  have fits : Fits [⟨[95, 115, 104], [1, 2, 3]⟩] := ⟨by decide, by decide, by decide, by decide⟩
  obtain ⟨image, made, agree⟩ := names_agree_iff _ fits
  obtain ⟨disk, s, on, fresh⟩ := exists_fresh image
  refine ⟨image, made, disk, s, on, fresh, ?_⟩
  refine (agree disk 1 s on fresh).mpr ?_ 0 (by decide)
  unfold Distinguished
  decide

def longName : Input := ⟨[97, 98, 99, 100, 101, 102, 103, 104, 105, 106, 107, 108, 109, 110], []⟩

theorem longName_missing : ∃ image, output [longName] = some image ∧
    ∃ disk s r, OnDisk image disk ∧ Fresh disk 1 s ∧
      (namei (slash :: longName.entry)).alone world 1 s = .ok (none, r) := by
  have fits : Fits [longName] := ⟨by decide, by decide, by decide, by decide⟩
  obtain ⟨l, t, made, finished, few⟩ := fits.finished
  obtain ⟨disk, s, on, fresh⟩ := exists_fresh t.image
  obtain ⟨a, sees, clean⟩ := finished.clean few on fresh
  have terms : Terms (fun _ => false) (fun _ => False) 1 := ⟨nofun, .inl ⟨by decide, by decide⟩⟩
  have missing : Missing [longName] longName.entry := by
    unfold Missing
    decide
  have nothing := namei_none fits finished few clean terms ⟨by decide, by decide⟩ (by decide) missing s sees
  obtain ⟨ip, r, returned, rfl⟩ := nothing.returns
  exact ⟨t.image, made, disk, s, r, on, fresh, returned⟩

end Certikos.Mkfs
