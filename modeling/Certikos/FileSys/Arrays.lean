import Certikos.FileSys.Content

/-!
# Files as arrays of bytes

What `inode_read` and `inode_write` do, for any file in any consistent state, and a volume of one file that has all the
data blocks.
-/

namespace Certikos.FileSys
open Lib Function
open BitVec (ofNat eq_of_toNat_eq toNat_ofNat)
open Fs (nbuf Block rootdev logsize)

/-! ## A volume of one file -/

namespace OneFile

structure Volume where
  full : Bool
  type : BitVec 16
  size : Word
  data : Nat → Byte
  used : type ≠ 0

variable (v : Volume)

def Volume.super : Superblock := ⟨if v.full then 156 else 15, 0, 8, 10⟩

def Volume.number : Part → Word
  | .table => if v.full then 17 else 0
  | .data bn => if v.full ∧ bn < maxfile then ofNat 32 (if bn < ndirect then 5 + bn else 6 + bn) else 0

def Volume.inode (busy : Bool) : Inode where
  type := v.type
  major := 0
  minor := 0
  nlink := 1
  size := v.size
  addrs k := if k.val = ndirect then v.number .table else v.number (.data k.val)
  dev := rootdev
  inum := 1
  ref := 1
  busy := busy
  valid := true

def Volume.dataBlock (bn : Nat) : Block := fun w =>
  wordOf (v.data (512 * bn + 4 * w.val)) (v.data (512 * bn + 4 * w.val + 1)) (v.data (512 * bn + 4 * w.val + 2))
    (v.data (512 * bn + 4 * w.val + 3))

def Volume.block (q : Word) : Block :=
  if q = 1 then fun w => if w.val = 0 then v.super.size else if w.val = 2 then 8 else if w.val = 3 then 10 else 0
  else if q = 2 then setDinode (fun _ => 0) 1 (v.inode false).toDinode
  else if q = 4 then fun _ => -1
  else if q = 17 then fun w => v.number (.data (ndirect + w.val))
  else v.dataBlock (if q.toNat < 17 then q.toNat - 5 else q.toNat - 6)

def noInode : Inode := ⟨⟨0, 0, 0, 0, 0, fun _ => 0⟩, 0, 0, 0, false, false⟩

def Volume.view (trans : Bool) (off : Word) (eax : Nat → Word) : View where
  block := v.block
  logged := []
  trans := trans
  start := if v.full then 146 else 5
  size := 10
  inode := update (fun _ => noInode) (some 0) (v.inode trans)
  file _ := ⟨.inode, 1, true, true, some 0, off⟩
  openfiles _ _ := some 0
  cwd _ := none
  first := false
  devsw _ := (false, false)
  eax := eax

variable {v} {trans : Bool} {off : Word} {eax : Nat → Word}

theorem inode_view : (v.view trans off eax).inode (some 0) = v.inode trans := by
  show update (fun _ => noInode) (some 0) (v.inode trans) (some 0) = _
  exact update_self ..

theorem formatted : (v.view trans off eax).Formatted v.super := by
  have super : superblockOf (v.block 1) = v.super := by
    unfold Volume.block
    rw [if_pos rfl]
    rfl
  refine ⟨?_, super, ?_, rfl⟩
  · unfold Volume.super
    cases v.full
    · exact ⟨by decide, by decide, by decide⟩
    · exact ⟨by decide, by decide, by decide⟩
  · show (if v.full then (146 : Word) else 5).toNat = _
    unfold Volume.super
    cases v.full <;> decide

theorem cached (j : Word) : cachedIn (v.view trans off eax).inode rootdev j = if j = 1 then some 0 else none := by
  have first : List.finRange ninode = 0 :: (List.finRange 49).map Fin.succ := List.finRange_succ
  rw [cachedIn, first]
  by_cases one : j = 1
  · rw [if_pos one, List.find?_cons_of_pos]
    rw [inode_view, one, decide_eq_true_eq]
    exact ⟨show (0 : Int) < 1 by decide, rfl, rfl⟩
  · rw [if_neg one, List.find?_cons_of_neg, List.find?_eq_none]
    · intro k member
      obtain ⟨k', -, rfl⟩ := List.mem_map.mp member
      have other : (v.view trans off eax).inode (some k'.succ) = noInode := by
        show update (fun _ => noInode) (some 0) (v.inode trans) (some k'.succ) = _
        rw [update_of_ne]
        simp
      rw [other, decide_eq_true_eq]
      exact fun used => absurd used.1 (by decide)
    · rw [inode_view, decide_eq_true_eq]
      exact fun used => one used.2.2.symm

theorem opened : (v.view trans off eax).Opened v.super 0 := by
  refine ⟨?_, ?_, ?_, ?_⟩
  · rw [inode_view, cached]
    exact if_pos rfl
  · rw [inode_view]
    rfl
  · rw [inode_view]
    exact show (1 : Word).toNat < (8 : Word).toNat by decide
  · rw [inode_view]
    exact v.used

theorem unused {j : Word} (range : j.toNat < v.super.ninodes.toNat) (ne : j ≠ 1) :
    ((v.view trans off eax).seen j).type = 0 := by
  change j.toNat < 8 at range
  have sector : iblock j = 2 := by
    apply eq_of_toNat_eq
    rw [View.toNat_iblock]
    show j.toNat / 8 + 2 = 2
    omega
  rw [View.seen, cached, if_neg ne]
  rw [sector]
  have block : (v.view trans off eax).block 2 = setDinode (fun _ => 0) 1 (v.inode false).toDinode := by
    show v.block 2 = _
    unfold Volume.block
    rw [if_neg (by decide), if_pos rfl]
  rw [block, dinodeAt_setDinode_of_ne, dinodeAt_zero]
  intro same
  change j.toNat % 8 = 1 at same
  exact ne (eq_of_toNat_eq (show j.toNat = 1 by omega))

theorem addrs_view (k : Nat) (small : k ≤ ndirect) : ((v.view trans off eax).inode (some 0)).addrs
    (Fin.ofNat (ndirect + 1) k) = if k = ndirect then v.number .table else v.number (.data k) := by
  have value : (Fin.ofNat (ndirect + 1) k).val = k := Nat.mod_eq_of_lt (Nat.lt_succ_of_le small)
  rw [inode_view]
  show (if (Fin.ofNat (ndirect + 1) k).val = ndirect then _ else v.number (.data (Fin.ofNat (ndirect + 1) k).val)) = _
  rw [value]

theorem own (u : Part) : (v.view trans off eax).own (some 0) u = v.number u := by
  have table : (v.view trans off eax).table (some 0) = v.number .table := (addrs_view ndirect le_rfl).trans (if_pos rfl)
  cases u with
  | table => exact table
  | data bn =>
    by_cases small : bn < ndirect
    · rw [View.own_direct small, addrs_view bn (le_of_lt small), if_neg (ne_of_lt small)]
    · have large := not_lt.mp small
      by_cases range : bn < maxfile
      · cases full : v.full with
        | false =>
          have none : v.number .table = 0 := by simp [Volume.number, full]
          rw [View.own_none large (table.trans none)]
          simp [Volume.number, full]
        | true =>
          have here : v.number .table = 17 := by simp [Volume.number, full]
          have block : (v.view trans off eax).block 17 = fun w => v.number (.data (ndirect + w.val)) := by
            show v.block 17 = _
            unfold Volume.block
            rw [if_neg (by decide), if_neg (by decide), if_neg (by decide), if_pos rfl]
          have index : ndirect + (Fin.ofNat 128 (bn - ndirect)).val = bn := by
            change 12 ≤ bn at large
            change bn < 12 + 128 at range
            show 12 + (bn - 12) % 128 = bn
            omega
          rw [View.own_indirect large range (by rw [table, here]; decide), table, here, block]
          dsimp only
          rw [index]
      · rw [View.own_beyond (not_lt.mp range)]
        simp only [Volume.number, range, and_false, if_false]

theorem number_iff {u : Part} {q : Word} : v.number u = q ∧ q ≠ 0 ↔ v.full = true ∧
    (match u with
      | .table => q = 17
      | .data bn => bn < maxfile ∧ q.toNat = if bn < ndirect then 5 + bn else 6 + bn) := by
  have empty {r : Word} (none : r = 0) : ¬(r = q ∧ q ≠ 0) := fun both => both.2 (both.1.symm.trans none)
  cases u with
  | table =>
    cases full : v.full with
    | false => exact iff_of_false (empty (by simp [Volume.number, full])) (by simp)
    | true =>
      simp only [Volume.number, full, if_true, true_and]
      constructor
      · exact fun both => both.1.symm
      · rintro rfl
        exact ⟨rfl, by decide⟩
  | data bn =>
    cases full : v.full with
    | false => exact iff_of_false (empty (by simp [Volume.number, full])) (by simp)
    | true =>
      simp only [Volume.number, full, true_and]
      by_cases range : bn < maxfile
      · have bound : (if bn < ndirect then 5 + bn else 6 + bn) < 2 ^ 32 := by
          change bn < 12 + 128 at range
          split <;> omega
        rw [if_pos range]
        constructor
        · rintro ⟨rfl, -⟩
          exact ⟨range, by rw [toNat_ofNat, Nat.mod_eq_of_lt bound]⟩
        · rintro ⟨-, value⟩
          refine ⟨?_, ?_⟩
          · apply eq_of_toNat_eq
            rw [value, toNat_ofNat, Nat.mod_eq_of_lt bound]
          · rintro rfl
            change 0 = _ at value
            split at value <;> omega
      · exact iff_of_false (empty (if_neg range)) fun both => range both.1

theorem isData_iff {q : Word} : v.super.IsData q ↔ v.full = true ∧ 5 ≤ q.toNat ∧ q.toNat < 146 := by
  unfold Superblock.IsData Volume.super
  cases v.full with
  | false =>
    show 5 ≤ q.toNat ∧ q.toNat < 5 ↔ _
    simp
  | true =>
    show 5 ≤ q.toNat ∧ q.toNat < 146 ↔ _
    simp

theorem marked (q : Word) (inside : q.toNat < 4096) : (v.view trans off eax).marked v.super q = true := by
  have sector : bblock q v.super.ninodes = 4 := by
    apply eq_of_toNat_eq
    have inodes : v.super.ninodes / ofNat 32 ipb = 1 := show (8 : Word) / 8 = 1 by decide
    rw [bblock, inodes, BitVec.toNat_add, BitVec.toNat_add, BitVec.toNat_udiv]
    show ((q.toNat / 4096 + 1) % 2 ^ 32 + 3) % 2 ^ 32 = 4
    omega
  have block : (v.view trans off eax).block 4 = fun _ => -1 := by
    show v.block 4 = _
    unfold Volume.block
    rw [if_neg (by decide), if_neg (by decide), if_pos rfl]
  rw [View.marked, sector, block, bitAt]
  have low : q.toNat % bpb % 32 < 32 := Nat.mod_lt _ (by decide)
  show (-1 : BitVec 32).getLsbD _ = true
  rw [show (-1 : BitVec 32) = BitVec.allOnes 32 by decide, BitVec.getLsbD_allOnes]
  exact decide_eq_true low

theorem held {w : Word × Part} {q : Word} : (v.view trans off eax).holds v.super w = some q ↔
    w.1 = 1 ∧ v.number w.2 = q ∧ q ≠ 0 := by
  obtain ⟨j, u⟩ := w
  by_cases one : j = 1
  · subst one
    have opened : (v.view trans off eax).Opened v.super 0 := opened
    have here := opened.holds_iff (u := u) (q := q)
    rw [own, inode_view] at here
    exact here.trans (by simp)
  · rw [View.holds_eq_some]
    constructor
    · rintro ⟨⟨range, typed⟩, -⟩
      exact absurd (unused range one) typed
    · exact fun both => absurd both.1 one

theorem owned : (v.view trans off eax).Owned v.super := by
  refine ⟨formatted, fun w q here => ?_, ?_, fun q data => ?_, fun q low => ?_⟩
  · have both := number_iff.mp (held.mp here).2
    rw [isData_iff]
    refine ⟨both.1, ?_⟩
    obtain ⟨j, u⟩ := w
    cases u with
    | table =>
      rw [both.2]
      decide
    | data bn =>
      obtain ⟨range, value⟩ := both.2
      change bn < 12 + 128 at range
      rw [value]
      show 5 ≤ (if bn < 12 then 5 + bn else 6 + bn) ∧ (if bn < 12 then 5 + bn else 6 + bn) < 146
      split <;> omega
  · rintro ⟨j, u⟩ ⟨j', u'⟩ q left right
    obtain ⟨one, left⟩ := held.mp left
    obtain ⟨one', right⟩ := held.mp right
    have left := (number_iff.mp left).2
    have right := (number_iff.mp right).2
    have part : u = u' := by
      cases u with
      | table =>
        cases u' with
        | table => rfl
        | data bn =>
          have value := right.2
          rw [show q = 17 from left] at value
          change 17 = if bn < 12 then 5 + bn else 6 + bn at value
          split at value <;> omega
      | data bn =>
        have value := left.2
        change q.toNat = if bn < 12 then 5 + bn else 6 + bn at value
        cases u' with
        | table =>
          rw [show q = 17 from right] at value
          change 17 = _ at value
          split at value <;> omega
        | data bn' =>
          have value' := right.2
          change q.toNat = if bn' < 12 then 5 + bn' else 6 + bn' at value'
          congr 1
          split at value <;> split at value' <;> omega
    exact Prod.ext (one.trans one'.symm) part
  · obtain ⟨full, above, below⟩ := isData_iff.mp data
    refine iff_of_true (marked q (by omega)) ?_
    by_cases table : q = 17
    · exact ⟨(1, .table), held.mpr ⟨rfl, number_iff.mpr ⟨full, table⟩⟩⟩
    · have ne : q.toNat ≠ 17 := fun same => table (eq_of_toNat_eq same)
      by_cases low : q.toNat < 17
      · refine ⟨(1, .data (q.toNat - 5)), held.mpr ⟨rfl, number_iff.mpr ⟨full, ?_⟩⟩⟩
        show q.toNat - 5 < 12 + 128 ∧ q.toNat = if q.toNat - 5 < 12 then 5 + (q.toNat - 5) else 6 + (q.toNat - 5)
        rw [if_pos (by omega)]
        omega
      · refine ⟨(1, .data (q.toNat - 6)), held.mpr ⟨rfl, number_iff.mpr ⟨full, ?_⟩⟩⟩
        show q.toNat - 6 < 12 + 128 ∧ q.toNat = if q.toNat - 6 < 12 then 5 + (q.toNat - 6) else 6 + (q.toNat - 6)
        rw [if_neg (by omega)]
        omega
  · have start : v.super.dataStart = 5 := by
      unfold Volume.super
      cases v.full <;> decide
    exact marked q (by omega)

theorem noHoles (full : v.full = true) (small : v.size.toNat ≤ maxfile * bsize) :
    (v.view trans off eax).NoHoles v.super := by
  intro inum inUse
  by_cases one : inum = 1
  · have opened : (v.view trans off eax).Opened v.super 0 := opened
    have seen := opened.seen_eq
    have number := opened.number_eq
    rw [inode_view] at seen number
    rw [one, show (1 : Word) = (v.inode trans).inum from rfl]
    refine ⟨by rw [seen]; exact small, fun k lt => ?_⟩
    rw [seen] at lt
    change k < v.size.toNat at lt
    rw [number, own]
    have range : k / bsize < maxfile := by
      change v.size.toNat ≤ 140 * 512 at small
      show k / 512 < 140
      omega
    obtain ⟨same, present⟩ := number_iff (v := v) (u := .data (k / bsize))
      (q := ofNat 32 (if k / bsize < ndirect then 5 + k / bsize else 6 + k / bsize)) |>.mpr ⟨full, range, by
        change k / bsize < 140 at range
        rw [toNat_ofNat, Nat.mod_eq_of_lt]
        split <;> omega⟩
    rw [same]
    exact present
  · exact absurd (unused inUse.1 one) inUse.2

theorem missing (full : v.full = true) {P : Finset Part} (small : ∀ bn, Part.data bn ∈ P → bn < maxfile) :
    (v.view trans off eax).missing 0 P = ∅ := by
  apply Finset.filter_eq_empty_iff.mpr
  intro u member
  rw [own]
  cases u with
  | table => simp [Volume.number, full]
  | data bn =>
    have range := small bn member
    intro none
    have value : ofNat 32 (if bn < ndirect then 5 + bn else 6 + bn) = 0 := by
      simpa [Volume.number, full, range] using none
    have toNat := congrArg BitVec.toNat value
    change bn < 140 at range
    rw [toNat_ofNat, Nat.mod_eq_of_lt (by split <;> omega)] at toNat
    change _ = 0 at toNat
    split at toNat <;> omega

theorem sees (p : Nat) : Sees p [] (v.view trans off eax) (v.view trans off eax).state := by
  refine View.state_sees _ p rfl ?_
  show (if v.full then (146 : Word) else 5).toNat + 10 ≤ _
  cases v.full <;> decide

end OneFile

/-- A file or directory that a process has locked is an array of bytes: writing is refused, or overwrites a stretch of it
and leaves all other files alone; reading is refused, or returns a stretch of it. -/
theorem file_isArray {p : Nat} (low : 1 ≤ p) (high : p < numIds) {a : View} {s : State} {sb : Superblock}
    {i : Fin ninode} (sees : Sees p [] a s) (owned : a.Owned sb) (whole : a.NoHoles sb) (opened : a.Opened sb i)
    (type : (a.inode (some i)).type = tFile ∨ (a.inode (some i)).type = tDir) :
    (∀ (off : Word) (src : List Byte), src.length < 2 ^ 32 → Refused (a.inode (some i)) off src.length →
      ∃ t, (inodeWrite (some i) src off).alone world p s = .ok (false, t) ∧ Sees p [] a t) ∧
    (∀ (off : Word) (src : List Byte), src.length < 2 ^ 32 → ¬Refused (a.inode (some i)) off src.length →
      (a.missing i (View.parts off.toNat src.length)).card ≤ (a.freeBlocks sb).card →
      a.Room (View.sectorCount sb (View.parts off.toNat src.length) + 1) →
      ∃ t a', (inodeWrite (some i) src off).alone world p s = .ok (true, t) ∧ Sees p [] a' t ∧
        a'.content (a.inode (some i)).inum = splice (a.content (a.inode (some i)).inum) off.toNat src ∧
        (a'.content (a.inode (some i)).inum).length =
          max (a.content (a.inode (some i)).inum).length (off.toNat + src.length) ∧
        (∀ inum, inum ≠ (a.inode (some i)).inum → a.InUse sb inum → a'.content inum = a.content inum) ∧
        a'.Owned sb ∧ a'.NoHoles sb) ∧
    (∀ off n : Word, ReadRefused (a.inode (some i)) off n →
      ∃ t, (inodeRead (some i) off n).alone world p s = .ok (none, t) ∧ Sees p [] a t) ∧
    (∀ off n : Word, ¬ReadRefused (a.inode (some i)) off n →
      ∃ t, (inodeRead (some i) off n).alone world p s =
          .ok (some (((a.content (a.inode (some i)).inum).drop off.toNat).take n.toNat), t) ∧ Sees p [] a t) := by
  have terms : Terms (fun _ => false) (fun _ => False) p := ⟨nofun, .inl ⟨low, high⟩⟩
  have file : (a.inode (some i)).type ≠ tDev := by
    rcases type with same | same
    · rw [same]
      decide
    · rw [same]
      decide
  refine ⟨fun off src short refused => ?_, fun off src short accepted enough room => ?_, fun off n refused => ?_,
    fun off n accepted => ?_⟩
  · obtain ⟨_, t, returned, rfl, after⟩ := (inodeWrite_refuses (E := fun _ => False) file short refused s sees).returns
    exact ⟨t, returned, after⟩
  · obtain ⟨_, t, returned, rfl, a', written, after⟩ := (inodeWrite_sees terms owned opened whole file short accepted
      enough (fun a' changed => room.allows sees.nodup owned nofun changed) s sees).returns
    have start : off.toNat ≤ (a.content (a.inode (some i)).inum).length := by
      rw [View.length_content, opened.seen_eq]
      exact not_lt.mp fun beyond => accepted (.inl beyond)
    refine ⟨t, a', returned, after, written.content, ?_, fun inum ne used => ?_, written.owned, written.noHoles⟩
    · rw [written.content, length_splice start]
    · exact written.spares.content_eq whole ne used
  · obtain ⟨_, t, returned, rfl, after⟩ := (inodeRead_refuses (E := fun _ => False) file refused s sees).returns
    exact ⟨t, returned, after⟩
  · obtain ⟨_, t, returned, rfl, after⟩ := (inodeRead_returns terms owned opened whole file
      (sees.length_logged owned.format) accepted s sees).returns
    exact ⟨t, returned, after⟩

theorem long_write_stops {p : Nat} {a : View} {s : State} {sb : Superblock} {i : Fin ninode} {off : Word}
    {src : List Byte} (owned : a.Owned sb) (opened : a.Opened sb i)
    (file : (a.inode (some i)).type ≠ tDev) (accepted : ¬Refused (a.inode (some i)) off src.length)
    (enough : (a.missing i (View.parts off.toNat src.length)).card ≤ (a.freeBlocks sb).card)
    (long : 10 * bsize ≤ src.length) (sees : Sees p [] a s) (r : Bool) (t : State) :
    (inodeWrite (some i) src off).alone world p s ≠ .ok (r, t) := by
  intro returned
  have range : off.toNat + src.length ≤ maxfile * bsize :=
    not_lt.mp fun beyond => accepted (.inr (.inr beyond))
  obtain ⟨a', writes⟩ := View.exists_writes owned opened (Set.Subset.refl _) range (Finset.Subset.refl _) enough
  have changed := writes.changed owned opened (Finset.Subset.refl _)
  have terms : Terms (fun _ => false) (fun _ => True) p := ⟨nofun, .inr trivial⟩
  obtain ⟨-, after⟩ := (inodeWrite_writes terms writes owned.format opened changed file
    (lt_of_le_of_lt (Nat.le_add_left ..) (lt_of_le_of_lt range (by decide))) accepted (.anything ..)
    (.inr (.inl rfl)) s sees).of_ok returned
  have inside : ∀ k < 10, off.toNat + k * bsize < off.toNat + src.length := by
    intro k lt
    have less : k * bsize < 10 * bsize := Nat.mul_lt_mul_of_pos_right lt (by decide)
    omega
  have index : ∀ k, (off.toNat + k * bsize) / bsize = off.toNat / bsize + k :=
    fun k => Nat.add_mul_div_right _ _ (by decide)
  -- the ten blocks are in the log
  have member : ∀ k < 10, a'.own (some i) (.data (off.toNat / bsize + k)) ∈
      (a'.extend i (off.toNat + src.length)).logged := by
    intro k lt
    rw [← index]
    exact View.logs_extend.longer.subset (writes.stores owned opened (Nat.le_add_right ..) (inside k lt)).2
  have apart : Set.InjOn (fun k => a'.own (some i) (.data (off.toNat / bsize + k))) (Finset.range 10) := by
    intro k member' l _ same
    have present := (writes.stores owned opened (Nat.le_add_right ..) (inside k (Finset.mem_range.mp member'))).1
    rw [index] at present
    have parts := Part.data.inj (changed.owned.own_inj changed.opened present same)
    omega
  have count : 10 ≤ (a'.extend i (off.toNat + src.length)).logged.length := by
    rw [← Finset.card_range 10, ← Finset.card_image_of_injOn apart]
    refine (Finset.card_le_card fun q image => ?_).trans (List.toFinset_card_le _)
    obtain ⟨k, lt, rfl⟩ := Finset.mem_image.mp image
    exact List.mem_toFinset.mpr (member k (Finset.mem_range.mp lt))
  have few := after.length_logged (View.owned_extend changed.owned changed.opened).format
  exact absurd count (not_le_of_gt few)

namespace OneFile

theorem tFile_ne_zero : tFile ≠ 0 := by decide

def empty : Volume := ⟨true, tFile, 0, fun _ => 0, tFile_ne_zero⟩

theorem empty_isArray : ∃ (t : State) (a' : View),
    (inodeWrite (some 0) [1, 2, 3] 0).alone world 1 (empty.view true 0 fun _ => 0).state = .ok (true, t) ∧
      Sees 1 [] a' t ∧ a'.content 1 = [1, 2, 3] := by
  have parts : View.parts 0 3 = {.data 0} := by decide
  have owned : (empty.view true 0 fun _ => 0).Owned empty.super := owned
  obtain ⟨t, a', returned, after, content, -⟩ := (file_isArray (p := 1) (by decide) (by decide) (sees 1) owned
    (noHoles rfl (by decide)) opened (.inl (by rw [inode_view]; rfl))).2.1 0 [1, 2, 3] (by decide) (by rw [inode_view]; decide) (by
      show ((empty.view true 0 fun _ => 0).missing 0 (View.parts 0 3)).card ≤ _
      rw [missing rfl (by simp [parts])]
      exact Nat.zero_le _) ⟨rfl, by
      show 0 + (View.sectorCount empty.super (View.parts 0 3) + 1) < 9
      rw [parts]
      decide⟩
  refine ⟨t, a', returned, after, ?_⟩
  rw [opened.content_eq, inode_view] at content
  exact content

theorem tenBlocks_stop : ∃ (a : View) (sb : Superblock) (src : List Byte), a.Owned sb ∧ a.NoHoles sb ∧ a.Opened sb 0 ∧
    Sees 1 [] a a.state ∧ a.trans = true ∧ ¬Refused (a.inode (some 0)) 0 src.length ∧
      (a.missing 0 (View.parts 0 src.length)).card ≤ (a.freeBlocks sb).card ∧
      ∀ r t, (inodeWrite (some 0) src 0).alone world 1 a.state ≠ .ok (r, t) := by
  obtain ⟨src, length⟩ : ∃ src : List Byte, src.length = 5120 := ⟨List.replicate 5120 0, List.length_replicate⟩
  have file : ((empty.view true 0 fun _ => 0).inode (some 0)).type ≠ tDev := by
    rw [inode_view]
    decide
  have accepted : ¬Refused ((empty.view true 0 fun _ => 0).inode (some 0)) 0 src.length := by
    rw [inode_view, length]
    decide
  have enough : ((empty.view true 0 fun _ => 0).missing 0 (View.parts 0 src.length)).card ≤
      ((empty.view true 0 fun _ => 0).freeBlocks empty.super).card := by
    rw [missing rfl, Finset.card_empty]
    · exact Nat.zero_le _
    · intro bn member
      obtain ⟨k, ⟨-, below⟩, rfl⟩ := View.data_mem_parts.mp member
      rw [length] at below
      show k / 512 < 140
      omega
  exact ⟨empty.view true 0 fun _ => 0, empty.super, src, owned, noHoles rfl (by decide), opened, sees 1, rfl, accepted,
    enough, long_write_stops owned opened file accepted enough (by rw [length]; decide) (sees 1)⟩

end OneFile

end Certikos.FileSys
