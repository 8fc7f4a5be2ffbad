import Certikos.Mkfs.Layout

/-!
# The image of a whole run

Every file that is appended to keeps the image in line with its layout, so the finished image holds the files of the
command line and a root directory with their names.
-/

namespace Certikos.Mkfs
open Lib Function
open BitVec (ofNat)
open FileSys
open Fs (Block)

variable {bound : Nat → Nat} {l : Layout} {written written' : Nat → Prop} {s : State} {i : Nat}

/-! ## Inodes -/

theorem Laid.weaken (laid : Laid bound l written s) (fewer : ∀ i, written' i → written i) :
    Laid bound l written' s := { laid with inodes := fun i wrote => laid.inodes i (fewer i wrote) }

theorem Laid.write_low (laid : Laid bound l written s) {b : Nat} (low : b < firstData) (other : b ≠ 1) {x : Block}
    (inodes : ∀ i, written' i → i < inodeLimit ∧
      dinodeAt ((s.write b x).image (i2b i)) (ofNat 32 i) = l.dinode i)
    (blank : ∀ i, i < tableLimit → (i = 0 ∨ l.next ≤ i) →
      dinodeAt ((s.write b x).image (i2b i)) (ofNat 32 i) = dinodeAt (s.image (i2b i)) (ofNat 32 i)) :
    Laid bound l written' (s.write b x) := by
  have away : ∀ c, firstData ≤ c → (s.write b x).image c = s.image c := fun c above => image_write_of_ne (by omega)
  refine ⟨?_, laid.freeblock, laid.usedblocks, laid.freeinode, laid.nodup, laid.below, inodes, ?_, ?_, ?_, ?_, ?_⟩
  · show max s.sectors (b + 1) = 1024
    change b < 29 at low
    rw [laid.sectors]
    exact Nat.max_eq_left (show b + 1 ≤ 1024 by omega)
  · intro i small unmade
    rw [blank i small unmade]
    exact laid.blank i small unmade
  · intro i table j
    rw [away _ (l.place_bounds table).1]
    exact laid.tables i table j
  · intro i bn data k lt
    rw [away _ (l.place_bounds data).1]
    exact laid.bytes i bn data k lt
  · intro c above
    rw [away c (by omega)]
    exact laid.clear c above
  · rw [image_write_of_ne (Ne.symm other)]
    exact laid.super

theorem Laid.i2b_lt_sectors (laid : Laid bound l written s) (small : i < inodeLimit) : i2b i < s.sectors := by
  have low : i2b i < 29 := i2b_lt small
  rw [laid.sectors]
  show i2b i < 1024
  omega

variable {j n used : Nat} {d : Dinode} {files : List Input}

theorem dinodeAt_write (small : i < inodeLimit) (small' : j < inodeLimit) (ne : j ≠ i) :
    dinodeAt ((s.write (i2b i) (setDinode (s.image (i2b i)) (ofNat 32 i) d)).image (i2b j)) (ofNat 32 j) =
      dinodeAt (s.image (i2b j)) (ofNat 32 j) := by
  change i < 216 at small
  change j < 216 at small'
  have number : ∀ k, k < 216 → (ofNat 32 k).toNat = k := by
    intro k lt
    rw [BitVec.toNat_ofNat]
    omega
  by_cases sector : i2b j = i2b i
  · rw [sector, image_write_self]
    apply dinodeAt_setDinode_of_ne
    rw [number i small, number j small']
    change j / 8 + 2 = i / 8 + 2 at sector
    show j % 8 ≠ i % 8
    omega
  · rw [image_write_of_ne sector]

theorem wp_winode {Q : PUnit → State → Prop} {E : Abort → State → Prop} (below : i2b i < s.sectors) :
    wp (winode i d) Q E s ↔ Q ⟨⟩ (s.write (i2b i) (setDinode (s.image (i2b i)) (ofNat 32 i) d)) := by
  rw [winode, wp_bind, wp_rsect below, wp_wsect]

theorem Laid.write_inode (laid : Laid bound l written s) (small : i < inodeLimit) (mine : 1 ≤ i ∧ i < l.next) :
    Laid bound l (fun j => written j ∨ j = i)
      (s.write (i2b i) (setDinode (s.image (i2b i)) (ofNat 32 i) (l.dinode i))) := by
  refine laid.write_low (i2b_lt small) (show i / 8 + 2 ≠ 1 by omega) ?_ fun j early unmade =>
    dinodeAt_write small (lt_trans early (by decide)) (by omega)
  intro j wrote
  by_cases same : j = i
  · subst same
    exact ⟨small, by rw [image_write_self, dinodeAt_setDinode_self]⟩
  · obtain ⟨small', here⟩ := laid.inodes j (wrote.resolve_right same)
    exact ⟨small', (dinodeAt_write small small' same).trans here⟩

/-! ## Between two calls -/

structure Made (bound : Nat → Nat) (l : Layout) (s : State) : Prop where
  laid : Laid bound l (fun i => 1 ≤ i ∧ i < l.next) s
  live : l.Live
  limit : l.next ≤ inodeLimit
  unused : ∀ i, l.next ≤ i → l.content i = []

theorem iappend_made (fits : total bound ≤ nblocks) (small : bound i ≤ maxfile * bsize) (made : Made bound l s)
    (here : 1 ≤ i ∧ i < l.next) {src : List Byte} (room : (l.content i).length + src.length ≤ bound i) :
    wp (iappend i src) (fun _ t => ∃ l' : Layout, Made bound l' t ∧
      l'.content = update l.content i (l.content i ++ src) ∧ l'.next = l.next) (fun _ _ => False) s := by
  have inside : i < inodeLimit := lt_of_lt_of_le here.2 made.limit
  have dinode := (made.laid.inodes i here).2
  have length : (l.dinode i).size.toNat = (l.content i).length := by
    change bound i ≤ (12 + 128) * 512 at small
    show (ofNat 32 (l.content i).length).toNat = _
    rw [BitVec.toNat_ofNat, Nat.mod_eq_of_lt (by omega)]
  have others : Laid bound l (fun j => (1 ≤ j ∧ j < l.next) ∧ j ≠ i) s := made.laid.weaken fun _ both => both.1
  rw [iappend, wp_bind, rinode, wp_bind, wp_rsect (made.laid.i2b_lt_sectors inside), wp_pure, dinode, length, wp_bind]
  refine wp_mono (iappendLoop_laid fits small inside (fun out => out.2 rfl) _ others made.live le_rfl room) ?_
    fun _ _ h => h
  rintro _ t ⟨l', laid', live', content', next', rfl⟩
  have file : l'.content i = l.content i ++ src := by rw [content', update_self]
  rw [wp_winode (laid'.i2b_lt_sectors inside)]
  refine ⟨l', ⟨?_, live', next' ▸ made.limit, ?_⟩, content', next'⟩
  · have written := laid'.write_inode inside (next' ▸ here)
    rw [Layout.dinode, file] at written
    refine written.weaken ?_
    intro j both
    rw [next'] at both
    by_cases same : j = i
    · exact .inr same
    · exact .inl ⟨both, same⟩
  · intro j above
    rw [next'] at above
    rw [content', update_of_ne (by omega)]
    exact made.unused j above

theorem ialloc_made (made : Made bound l s) (positive : 1 ≤ l.next) (more : l.next < inodeLimit) :
    wp (ialloc (kind l.next)) (fun i t => i = l.next ∧ Made bound { l with next := l.next + 1 } t)
      (fun _ _ => False) s := by
  have laid : Laid bound { l with next := l.next + 1 } (fun i => 1 ≤ i ∧ i < l.next)
      { s with freeinode := l.next + 1 } := { made.laid with
    freeinode := rfl
    blank := fun i small unmade => made.laid.blank i small (unmade.imp_right Nat.le_of_succ_le) }
  have empty := made.unused l.next le_rfl
  have fresh : ∀ k, slotUse l.next k ∉ l.uses := by
    intro k
    unfold slotUse
    split
    · rw [made.live.data, empty]
      exact Nat.not_lt_zero _
    · rw [made.live.table, empty]
      exact Nat.not_lt_zero _
  have dinode : Layout.dinode { l with next := l.next + 1 } l.next = ⟨kind l.next, 0, 0, 1, 0, fun _ => 0⟩ := by
    unfold Layout.dinode Layout.inMemory
    rw [show (l.content l.next).length = 0 by rw [empty]; rfl]
    congr 1
    funext k
    exact congrArg (ofNat 32) (serial_of_not_mem (fresh k))
  rw [ialloc, wp_bind, wp_get, wp_bind, wp_modify, wp_bind, made.laid.freeinode]
  rw [wp_winode (laid.i2b_lt_sectors more), wp_pure]
  refine ⟨rfl, ?_, ⟨made.live.data, made.live.table⟩, more, fun i above => made.unused i (Nat.le_of_succ_le above)⟩
  have written := laid.write_inode more ⟨positive, Nat.lt_succ_self l.next⟩
  rw [dinode] at written
  refine written.weaken ?_
  intro i both
  by_cases same : i = l.next
  · exact .inr same
  · refine .inl ⟨both.1, ?_⟩
    have := both.2
    change i < l.next + 1 at this
    omega

theorem copyFile_made (fits : total bound ≤ nblocks) (small : bound i ≤ maxfile * bsize) (here : 1 ≤ i)
    {fuel : Nat} {content : List Byte} (made : Made bound l s) (below : i < l.next) (enough : content.length ≤ fuel)
    (room : (l.content i).length + content.length ≤ bound i) :
    wp (copyFile i fuel content) (fun _ t => ∃ l' : Layout, Made bound l' t ∧
      l'.content = update l.content i (l.content i ++ content) ∧ l'.next = l.next) (fun _ _ => False) s := by
  induction fuel generalizing l s content with
  | zero =>
    have none : content = [] := List.length_eq_zero_iff.mp (Nat.le_zero.mp enough)
    subst none
    exact ⟨l, made, by simp, rfl⟩
  | succ fuel ih =>
    unfold copyFile
    refine wp_ite (fun none => ?_) fun some => ?_
    · subst none
      exact ⟨l, made, by simp, rfl⟩
    have taken : (content.take bsize).length = min 512 content.length := List.length_take
    have left : (content.drop bsize).length = content.length - 512 := List.length_drop
    rw [wp_bind]
    refine wp_mono (iappend_made fits small made ⟨here, below⟩ (by omega)) ?_ fun _ _ h => h
    rintro _ t ⟨l', made', content', next'⟩
    have file : l'.content i = l.content i ++ content.take bsize := by rw [content', update_self]
    refine wp_mono (ih made' (next' ▸ below) (by omega) (by rw [file, List.length_append]; omega)) ?_ fun _ _ h => h
    rintro _ t' ⟨l'', made'', content'', next''⟩
    refine ⟨l'', made'', ?_, next''.trans next'⟩
    rw [content'', file, content', update_idem, List.append_assoc, List.take_append_drop]

/-! ## The files of the command line -/

def dirents (files : List Input) : List (List Byte) :=
  direntBytes 1 dot :: direntBytes 1 dotdot ::
    files.mapIdx fun k f => direntBytes (ofNat 16 (k + 2)) f.entry

def contents (files : List Input) (i : Nat) : List Byte :=
  if i = 1 then (dirents files).flatten else if 2 ≤ i then (files.map Input.content).getD (i - 2) [] else []

theorem dirents_concat (files : List Input) (f : Input) :
    dirents (files ++ [f]) = dirents files ++ [direntBytes (ofNat 16 (files.length + 2)) f.entry] := by
  simp [dirents, List.mapIdx_append]

theorem length_direntBytes (inum : BitVec 16) (name : List Byte) : (direntBytes inum name).length = direntSize := by
  simp only [direntBytes, List.length_append, List.length_cons, List.length_nil, List.length_take,
    List.length_replicate]
  show 2 + min 14 (min 14 name.length + 14) = 16
  omega

theorem length_of_mem_dirents {de : List Byte} (member : de ∈ dirents files) :
    de.length = direntSize := by
  unfold dirents at member
  simp only [List.mem_cons, List.mem_mapIdx] at member
  rcases member with rfl | rfl | ⟨k, lt, rfl⟩
  all_goals exact length_direntBytes _ _

theorem length_dirents (files : List Input) : (dirents files).length = files.length + 2 := by
  simp [dirents]

theorem length_root (files : List Input) : (contents files 1).length = direntSize * (files.length + 2) := by
  have each : (dirents files).map List.length = (dirents files).map fun _ => direntSize :=
    List.map_congr_left fun _ member => length_of_mem_dirents member
  rw [contents, if_pos rfl, List.length_flatten, each, List.map_const', List.sum_replicate_nat, length_dirents,
    Nat.mul_comm]

theorem contents_of_two_le (file : 2 ≤ i) :
    contents files i = (files.map Input.content).getD (i - 2) [] := by
  rw [contents, if_neg (by omega), if_pos file]

theorem contents_concat (files : List Input) (f : Input) : contents (files ++ [f]) = update (update (contents files) 1
      (contents files 1 ++ direntBytes (ofNat 16 (files.length + 2)) f.entry)) (files.length + 2) f.content := by
  funext i
  by_cases last : i = files.length + 2
  · subst last
    rw [update_self, contents_of_two_le (by omega), List.map_append,
      List.getD_append_right _ _ _ _ (by rw [List.length_map]; omega)]
    simp
  rw [update_of_ne last]
  by_cases root : i = 1
  · subst root
    rw [update_self, contents, contents, if_pos rfl, if_pos rfl, dirents_concat, List.flatten_append]
    simp
  rw [update_of_ne root]
  by_cases file : 2 ≤ i
  · rw [contents_of_two_le file, contents_of_two_le file, List.map_append]
    rcases lt_or_ge (i - 2) (files.map Input.content).length with before | after
    · exact List.getD_append _ _ _ _ before
    · rw [List.length_map] at after
      rw [List.getD_eq_default _ _ (by simp; omega), List.getD_eq_default _ _ (by simp; omega)]
  · rw [contents, contents, if_neg root, if_neg file, if_neg root, if_neg file]

theorem length_contents_append (files more : List Input) (i : Nat) :
    (contents files i).length ≤ (contents (files ++ more) i).length := by
  by_cases root : i = 1
  · subst root
    rw [length_root, length_root, List.length_append]
    show 16 * _ ≤ 16 * _
    omega
  by_cases file : 2 ≤ i
  · rw [contents_of_two_le file, contents_of_two_le file, List.map_append]
    rcases lt_or_ge (i - 2) (files.map Input.content).length with before | after
    · rw [List.getD_append _ _ _ _ before]
    · rw [List.getD_eq_default _ _ after]
      exact Nat.zero_le _
  · rw [contents, if_neg root, if_neg file]
    exact Nat.zero_le _

section Files

variable (fits : total bound ≤ nblocks) (small : ∀ i, bound i ≤ maxfile * bsize)

include fits small

theorem addFile_made {done : List Input} {f : Input} (made : Made bound l s) (content : l.content = contents done)
    (next : l.next = done.length + 2) (more : l.next < inodeLimit) (plain : slash ∉ f.name)
    (room : ∀ i, (contents (done ++ [f]) i).length ≤ bound i) :
    wp (addFile 1 f) (fun _ t => ∃ l' : Layout, Made bound l' t ∧ l'.content = contents (done ++ [f]) ∧
      l'.next = (done ++ [f]).length + 2) (fun _ _ => False) s := by
  have type : kind l.next = tFile := if_neg (by omega)
  have made' := ialloc_made made (by omega) more
  rw [type] at made'
  rw [addFile, if_neg plain, wp_bind]
  refine wp_mono made' ?_ fun _ _ h => h
  rintro _ t ⟨rfl, allocated⟩
  have after := contents_concat done f
  have entry : (contents done 1).length + (direntBytes (ofNat 16 l.next) f.entry).length ≤ bound 1 := by
    have whole := room 1
    rw [length_root, List.length_append] at whole
    rw [length_root, length_direntBytes]
    exact whole
  rw [wp_bind]
  refine wp_mono (iappend_made fits (small 1) allocated ⟨Nat.le_refl 1, show 1 < l.next + 1 by omega⟩
    (by rw [content]; exact entry)) ?_ fun _ _ h => h
  rintro _ t' ⟨l', linked, content', next'⟩
  have empty : l'.content l.next = [] := by
    rw [content', update_of_ne (by omega)]
    exact made.unused l.next le_rfl
  have file : f.content.length ≤ bound l.next := by
    have whole := room l.next
    rw [after, next, update_self] at whole
    rw [next]
    exact whole
  refine wp_mono (copyFile_made fits (small _) (by omega) linked (next' ▸ Nat.lt_succ_self l.next) le_rfl
    (by rw [empty]; simpa using file)) ?_ fun _ _ h => h
  rintro _ t'' ⟨l'', copied, content'', next''⟩
  refine ⟨l'', copied, ?_, ?_⟩
  · rw [content'', empty, List.nil_append, content', after, next, content]
  · rw [next'', next', List.length_append, next]
    rfl

theorem addFiles_made {rest : List Input} {done : List Input} (made : Made bound l s) (content : l.content = contents done)
    (next : l.next = done.length + 2) (limit : (done ++ rest).length + 2 ≤ inodeLimit)
    (plain : ∀ f ∈ rest, slash ∉ f.name) (room : ∀ i, (contents (done ++ rest) i).length ≤ bound i) :
    wp (addFiles 1 rest) (fun _ t => ∃ l' : Layout, Made bound l' t ∧ l'.content = contents (done ++ rest) ∧
      l'.next = (done ++ rest).length + 2) (fun _ _ => False) s := by
  induction rest generalizing done l s with
  | nil =>
    rw [List.append_nil]
    exact ⟨l, made, content, next⟩
  | cons f rest ih =>
    have split : done ++ f :: rest = done ++ [f] ++ rest := by simp
    rw [split] at limit room ⊢
    have shorter : (done ++ [f]).length ≤ (done ++ [f] ++ rest).length := (List.sublist_append_left _ _).length_le
    rw [addFiles, wp_bind]
    refine wp_mono (addFile_made fits small made content next ?_ (plain f (.head _)) ?_) ?_ fun _ _ h => h
    · rw [List.length_append, List.length_singleton] at shorter
      omega
    · exact fun i => (length_contents_append _ rest i).trans (room i)
    · rintro _ t ⟨l', made', content', next'⟩
      exact ih made' content' next' limit (fun g member => plain g (List.mem_cons_of_mem f member)) room

end Files

/-! ## The whole program -/

def output (files : List Input) : Option (Nat → Block) :=
  match main files start with
  | .ok _ s => some s.image
  | .error _ _ => none

/-- The names are as on a command line, and `mkfs` has room: for the inodes before the bitmap, for the blocks before the
log. -/
structure Fits (files : List Input) : Prop where
  names : ∀ f ∈ files, slash ∉ f.name ∧ 0 ∉ f.name
  inodes : files.length + 1 < tableLimit
  large : ∀ f ∈ files, f.content.length ≤ maxfile * bsize
  blocks : blocksFor (direntSize * (files.length + 2)) + (files.map fun f => blocksFor f.content.length).sum ≤ nblocks

def rootSize (files : List Input) : Nat := (direntSize * (files.length + 2) / bsize + 1) * bsize

structure Finished (files : List Input) (l : Layout) (s : State) : Prop where
  laid : Laid (fun i => (contents files i).length) l (fun i => 2 ≤ i ∧ i < l.next ∧ i < tableLimit) s
  live : l.Live
  content : l.content = contents files
  next : l.next = files.length + 2
  root : dinodeAt (s.image 2) rootino = l.inMemory 1 (ofNat 32 (rootSize files))
  bitmap : s.image (ninodes / ipb + 3) = bitmap (firstData + l.uses.length)

theorem sum_range_getD {l : List Nat} (enough : l.length ≤ n) : ∑ k ∈ Finset.range n, l.getD k 0 = l.sum := by
  induction l generalizing n with
  | nil => simp
  | cons a l ih =>
    cases n with
    | zero => simp at enough
    | succ n =>
      rw [Finset.sum_range_succ', List.sum_cons, Nat.add_comm, List.getD_cons_zero]
      congr 1
      exact ih (by simpa using enough)

theorem blocksFor_contents (files : List Input) (k : Nat) :
    blocksFor (contents files (k + 2)).length = (files.map fun f => blocksFor f.content.length).getD k 0 := by
  rw [contents_of_two_le (Nat.le_add_left 2 k), Nat.add_sub_cancel]
  induction files generalizing k with
  | nil =>
    rw [List.map_nil, List.map_nil, List.getD_nil, List.getD_nil]
    decide
  | cons f files ih =>
    cases k with
    | zero => rfl
    | succ k => exact ih k

theorem total_contents (few : files.length + 2 ≤ inodeLimit) :
    total (fun i => (contents files i).length) =
      blocksFor (direntSize * (files.length + 2)) + (files.map fun f => blocksFor f.content.length).sum := by
  have enough : (files.map fun f => blocksFor f.content.length).length ≤ 214 := by
    change files.length + 2 ≤ 216 at few
    rw [List.length_map]
    omega
  have zero : blocksFor (contents files 0).length = 0 := by
    rw [contents, if_neg (by decide), if_neg (by decide)]
    decide
  have sums : ∑ k ∈ Finset.range 214, blocksFor (contents files (k + 1 + 1)).length =
      (files.map fun f => blocksFor f.content.length).sum :=
    (Finset.sum_congr rfl fun k _ => blocksFor_contents files k).trans (sum_range_getD enough)
  unfold total
  rw [show inodeLimit = 214 + 1 + 1 from rfl, Finset.sum_range_succ', Finset.sum_range_succ', sums, zero, Nat.add_zero,
    Nat.add_comm, Nat.zero_add]
  exact congrArg (blocksFor · + _) (length_root files)

theorem start_made (bound : Nat → Nat) {s : State} (sectors : s.sectors = size) (image : s.image = fun _ _ => 0)
    (free : s.freeblock = firstData ∧ s.usedblocks = firstData ∧ s.freeinode = 1) :
    Made bound ⟨[], fun _ => [], 1⟩ (s.write 1 superblock) := by
  refine ⟨⟨?_, free.1, free.2.1, free.2.2, List.nodup_nil, by simp, ?_, ?_, by simp, by simp, ?_, image_write_self⟩, ?_,
    by decide, fun _ _ => rfl⟩
  · show max s.sectors 2 = 1024
    rw [sectors]
    rfl
  · intro i both
    have := both.2
    change i < 1 at this
    omega
  · intro i _ _
    rw [image_write_of_ne (show i2b i ≠ 1 from show i / 8 + 2 ≠ 1 by omega), image]
    exact dinodeAt_zero
  · intro b above
    change 29 ≤ b at above
    rw [image_write_of_ne (by omega), image]
  · exact ⟨by simp, by simp⟩

theorem zero_image (n : Nat) : wp (forLoop (fun i => wsect i fun _ => 0) n)
    (fun _ t => t.sectors = n ∧ t.image = (fun _ _ => 0) ∧
      t.freeblock = firstData ∧ t.usedblocks = firstData ∧ t.freeinode = 1) (fun _ _ => False) start := by
  refine wp_forLoop (fun n (t : State) => t.sectors = n ∧ t.image = (fun _ _ => 0) ∧ t.freeblock = firstData ∧
    t.usedblocks = firstData ∧ t.freeinode = 1) ⟨rfl, rfl, rfl, rfl, rfl⟩ ?_
  rintro i t - ⟨sectors, image, counters⟩
  refine ⟨?_, ?_, counters⟩
  · show max t.sectors (i + 1) = i + 1
    omega
  · show update t.image i _ = _
    rw [image]
    exact update_eq_self_iff.mpr rfl

theorem rounded_size (small : n < 2 ^ 31) :
    (ofNat 32 n / ofNat 32 bsize + 1) * ofNat 32 bsize = ofNat 32 ((n / bsize + 1) * bsize) := by
  apply BitVec.eq_of_toNat_eq
  show ((n % 2 ^ 32 / (512 % 2 ^ 32) + 1 % 2 ^ 32) % 2 ^ 32 * (512 % 2 ^ 32)) % 2 ^ 32 = (n / 512 + 1) * 512 % 2 ^ 32
  rw [Nat.mod_eq_of_lt (show n < 2 ^ 32 by omega), show 512 % 2 ^ 32 = 512 from rfl]
  omega

theorem contents_nil : contents [] = update (fun _ => []) 1 (direntBytes 1 dot ++ direntBytes 1 dotdot) := by
  funext i
  by_cases root : i = 1
  · subst root
    rw [update_self]
    rfl
  · rw [update_of_ne root, contents, if_neg root]
    split <;> rfl

theorem Made.finish (fits : total (fun i => (contents files i).length) ≤ nblocks)
    (made : Made (fun i => (contents files i).length) l s) (content : l.content = contents files)
    (next : l.next = files.length + 2) :
    wp (do
      let din ← rinode 1
      winode 1 { din with size := (din.size / ofNat 32 bsize + 1) * ofNat 32 bsize }
      let s ← get
      balloc s.usedblocks) (fun _ t => Finished files l t) (fun _ _ => False) s := by
  have here : 1 ≤ 1 ∧ 1 < l.next := ⟨Nat.le_refl 1, by omega⟩
  have limit := made.limit
  change l.next ≤ 216 at limit
  have small : 1 < inodeLimit := by decide
  have dinode := (made.laid.inodes 1 here).2
  have few : l.uses.length ≤ 985 := made.laid.length_le fits
  have length : (l.content 1).length = 16 * (files.length + 2) := by rw [content]; exact length_root files
  rw [wp_bind, rinode, wp_bind, wp_rsect (made.laid.i2b_lt_sectors small), wp_pure, dinode, wp_bind,
    wp_winode (made.laid.i2b_lt_sectors small), wp_bind, wp_get]
  have size : { l.dinode 1 with size :=
      ((l.dinode 1).size / ofNat 32 bsize + 1) * ofNat 32 bsize } =
        l.inMemory 1 (ofNat 32 (rootSize files)) := by
    have rounded := rounded_size (n := (l.content 1).length) (by omega)
    rw [length] at rounded
    show Dinode.mk _ _ _ _ ((ofNat 32 (l.content 1).length / _ + 1) * _) _ = _
    rw [length, rounded]
    rfl
  rw [size]
  generalize rounded : s.write (i2b 1) _ = t
  have laid : Laid (fun i => (contents files i).length) l (fun i => (1 ≤ i ∧ i < l.next) ∧ i ≠ 1) t := by
    rw [← rounded]
    refine made.laid.write_low (i2b_lt small) (by decide) ?_ fun j early unmade =>
      dinodeAt_write small (lt_trans early (by decide)) (by omega)
    rintro j ⟨made', other⟩
    obtain ⟨small', there⟩ := made.laid.inodes j made'
    exact ⟨small', (dinodeAt_write small small' other).trans there⟩
  have root : dinodeAt (t.image 2) rootino = l.inMemory 1 (ofNat 32 (rootSize files)) := by
    rw [← rounded, show (2 : Nat) = i2b 1 from rfl, image_write_self]
    exact dinodeAt_setDinode_self
  have used : t.usedblocks = 29 + l.uses.length := laid.usedblocks
  rw [balloc, if_pos (show t.usedblocks < 4096 by omega), wp_wsect]
  have early : ∀ j, j < tableLimit → i2b j ≠ ninodes / ipb + 3 := by
    intro j lt
    change j < 208 at lt
    show j / 8 + 2 ≠ 28
    omega
  refine ⟨laid.write_low (by decide) (by decide) ?_ fun j lt _ => by rw [image_write_of_ne (early j lt)],
    made.live, content, next, ?_, ?_⟩
  · rintro j ⟨file, below, lt⟩
    obtain ⟨small', there⟩ := laid.inodes j ⟨⟨by omega, below⟩, by omega⟩
    refine ⟨small', ?_⟩
    rw [image_write_of_ne (early j lt)]
    exact there
  · rw [image_write_of_ne (by decide)]
    exact root
  · rw [image_write_self, used]

section Main

variable {files : List Input} (plain : ∀ f ∈ files, slash ∉ f.name) (few : files.length + 2 ≤ inodeLimit)
  (large : ∀ f ∈ files, f.content.length ≤ maxfile * bsize)
  (blocks : blocksFor (direntSize * (files.length + 2)) + (files.map fun f => blocksFor f.content.length).sum ≤ nblocks)

include few large in
theorem length_contents_le (i : Nat) : (contents files i).length ≤ maxfile * bsize := by
  by_cases root : i = 1
  · subst root
    rw [length_root]
    change files.length + 2 ≤ 216 at few
    show 16 * _ ≤ 140 * 512
    omega
  by_cases file : 2 ≤ i
  · rw [contents_of_two_le file]
    rcases lt_or_ge (i - 2) (files.map Input.content).length with before | after
    · rw [List.getD_eq_getElem _ _ before, List.getElem_map]
      exact large _ (List.getElem_mem _)
    · rw [List.getD_eq_default _ _ after]
      exact Nat.zero_le _
  · rw [contents, if_neg root, if_neg file]
    exact Nat.zero_le _

include plain few large blocks

theorem main_finished : wp (main files) (fun _ t => ∃ l, Finished files l t) (fun _ _ => False) start := by
  have fits : total (fun i => (contents files i).length) ≤ nblocks := by
    rw [total_contents few]
    exact blocks
  have small := length_contents_le few large
  rw [main, wp_bind, wp_get, if_neg (by decide), wp_bind]
  generalize count : nblocks + start.usedblocks + nlog = n
  refine wp_mono (zero_image n) ?_ fun _ _ h => h
  rintro _ s ⟨sectors, image, counters⟩
  rw [← count] at sectors
  rw [wp_bind, wp_wsect, wp_bind]
  have first := ialloc_made (start_made (fun i => (contents files i).length) sectors image counters)
    (Nat.le_refl 1) (by decide)
  refine wp_mono first ?_ fun _ _ h => h
  rintro _ t ⟨rfl, made⟩
  rw [if_neg (by decide), wp_bind]
  have entries : (contents files 1).length = 16 * (files.length + 2) := length_root files
  have length : ∀ name, (direntBytes (ofNat 16 1) name).length = 16 := length_direntBytes _
  refine wp_mono (iappend_made fits (small 1) made ⟨Nat.le_refl 1, by decide⟩
    (by rw [length, entries]; show 0 + 16 ≤ _; omega)) ?_ fun _ _ h => h
  rintro _ t₁ ⟨l₁, made₁, content₁, next₁⟩
  have file₁ : l₁.content 1 = direntBytes (ofNat 16 1) dot := by
    rw [content₁, update_self]
    rfl
  rw [wp_bind]
  refine wp_mono (iappend_made fits (small 1) made₁ ⟨Nat.le_refl 1, by rw [next₁]; decide⟩
    (by rw [file₁, length, length, entries]; omega)) ?_ fun _ _ h => h
  rintro _ t₂ ⟨l₂, made₂, content₂, next₂⟩
  have start : l₂.content = contents [] := by
    rw [content₂, file₁, content₁, update_idem, contents_nil]
    rfl
  rw [wp_bind]
  refine wp_mono (addFiles_made fits small made₂ start (next₂.trans next₁) (by rw [List.nil_append]; exact few)
    plain (fun _ => le_rfl)) ?_ fun _ _ h => h
  rintro _ t₃ ⟨l₃, made₃, content₃, next₃⟩
  exact wp_mono (made₃.finish fits content₃ next₃) (fun _ t finished => ⟨l₃, finished⟩) fun _ _ h => h

theorem exists_finished : ∃ l t, output files = some t.image ∧ Finished files l t ∧ l.uses.length ≤ nblocks := by
  have run := main_finished plain few large blocks
  unfold wp at run
  cases result : main files start with
  | error e t =>
    rw [result] at run
    exact run.elim
  | ok u t =>
    rw [result] at run
    obtain ⟨l, finished⟩ := run
    refine ⟨l, t, by rw [output, result], finished, finished.laid.length_le ?_⟩
    rw [total_contents few]
    exact blocks

end Main

theorem Fits.finished (fits : Fits files) :
    ∃ l t, output files = some t.image ∧ Finished files l t ∧ l.uses.length ≤ nblocks :=
  exists_finished (fun f member => (fits.names f member).1) (le_trans fits.inodes (by decide)) fits.large fits.blocks

theorem bitmap_succ (used : Nat) : bitmap (used + 1) = setBit (bitmap used) used true := by
  rw [bitmap, List.range_succ, List.foldl_append]
  rfl

theorem bitAt_bitmap (small : used ≤ bpb) (lt : j < bpb) : bitAt (bitmap used) j = decide (j < used) := by
  induction used with
  | zero => exact bitAt_zero
  | succ used ih =>
    rw [bitmap_succ, bitAt_setBit (by omega) lt, ih (by omega)]
    by_cases last : j = used
    · rw [if_pos last, decide_eq_true (by omega)]
    · rw [if_neg last]
      exact decide_eq_decide.mpr (by omega)

theorem bitmap_clear {w : Fin 128} (past : used ≤ 32 * w.val) : bitmap used w = 0 := by
  induction used with
  | zero => rfl
  | succ used ih =>
    rw [bitmap_succ, setBit, if_neg (by omega)]
    exact ih (by omega)

end Certikos.Mkfs
