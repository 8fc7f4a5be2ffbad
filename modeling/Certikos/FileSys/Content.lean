import Certikos.FileSys.Writing
import Certikos.Lib.Splice

/-!
# The bytes of the files

A file is an array of bytes, in the blocks that its inode keeps. `inode_write` overwrites a stretch of it, and
`inode_read` returns one.
-/

namespace Certikos.FileSys
open Lib
open Fs (nbuf Block rootdev logsize)
open View (Bmaps Changed Writes Spares)

variable {p : Nat} {a a₁ a' : View} {sb : Superblock} {watch : Note → Bool} {E : Cut Stop Note → Prop} {W : Set Word}
  {i : Fin ninode} {P : Finset Part} {q : Word} {src : List Byte} {off k : Nat}

namespace View

def stored (a : View) (addrs : Fin (ndirect + 1) → Word) (k : Nat) : Byte :=
  blockByte (a.block (a.number addrs (.data (k / bsize)))) (k % bsize)

def content (a : View) (inum : Word) : List Byte :=
  (List.range (a.seen inum).size.toNat).map (a.stored (a.seen inum).addrs)

theorem length_content {inum : Word} : (a.content inum).length = (a.seen inum).size.toNat := by
  rw [content, List.length_map, List.length_range]

def NoHoles (a : View) (sb : Superblock) : Prop := ∀ inum, a.InUse sb inum →
  (a.seen inum).size.toNat ≤ maxfile * bsize ∧
    ∀ k, k < (a.seen inum).size.toNat → a.number (a.seen inum).addrs (.data (k / bsize)) ≠ 0

/-! ## Other files -/

theorem Spares.content_eq (spares : Spares sb i a a') (whole : a.NoHoles sb) {j : Word}
    (ne : j ≠ (a.inode (some i)).inum) (used : a.InUse sb j) : a'.content j = a.content j := by
  have numbers := spares.number_eq ne used
  rw [content, content, spares.seen j ne used.1]
  rw [spares.seen j ne used.1] at numbers
  apply List.map_congr_left
  intro k member
  have present := (whole j used).2 k (List.mem_range.mp member)
  rw [stored, stored, numbers]
  rw [spares.blocks j (.data (k / bsize)) _ ne (holds_eq_some.mpr ⟨used, rfl, present⟩)]

theorem Spares.noHoles (spares : Spares sb i a a') (whole : a.NoHoles sb) {j : Word}
    (ne : j ≠ (a.inode (some i)).inum) (used : a'.InUse sb j) : (a'.seen j).size.toNat ≤ maxfile * bsize ∧
      ∀ k, k < (a'.seen j).size.toNat → a'.number (a'.seen j).addrs (.data (k / bsize)) ≠ 0 := by
  have before := (spares.inUse_iff ne).mp used
  rw [spares.number_eq ne before, spares.seen j ne before.1]
  exact whole j before

/-! ## The file that is written -/

def fileByte (a : View) (i : Fin ninode) (k : Nat) : Byte := a.stored (a.inode (some i)).addrs k

theorem fileByte_eq : a.fileByte i k = blockByte (a.block (a.own (some i) (.data (k / bsize)))) (k % bsize) := rfl

theorem Bmaps.block_eq {bn : Nat} (maps : Bmaps sb W (some i) bn a q a') (owned : a.Owned sb) (opened : a.Opened sb i)
    (present : a.own (some i) (.data k) ≠ 0) :
    a'.block (a.own (some i) (.data k)) = a.block (a.own (some i) (.data k)) := by
  have spared : ∀ {b : View} {q' : Word} {u : Part}, b.Owned sb → b.Opened sb i → b.own (some i) (.data k) ≠ 0 →
      b.Offers sb W q' → (b.give sb i q' u).block (b.own (some i) (.data k)) = b.block (b.own (some i) (.data k)) := by
    intro b q' u owned opened present offers
    refine block_give owned offers.data (.inr (owned.own_data opened present).1)
      (owned.own_ne opened offers.data offers.lowest.free) fun same => ?_
    cases owned.own_inj opened present same
  induction maps with
  | direct => rfl
  | newDirect small _ offers =>
    have here := spared (u := .data bn) owned opened present offers
    rw [give, setPart_direct small] at here
    exact here
  | entry => rfl
  | newEntry large _ _ _ offers =>
    have here := spared (u := .data bn) owned opened present offers
    rw [give, setPart_indirect large] at here
    exact here
  | @newTable a _ t _ large none offers _ ih =>
    have here := spared (u := .table) owned opened present offers
    have first : Changed sb i {.table} a (a.give sb i t .table) := .give (u := .table) owned opened trivial none
      offers.data offers.lowest.free (by simp) nofun
    have same := first.keeps _ present
    have later := ih first.owned first.opened (same.trans_ne present)
    rw [show (a.take sb t).setAddr (some i) (Fin.ofNat (ndirect + 1) ndirect) t = a.give sb i t .table from rfl,
      same, here] at later
    exact later

theorem piece_place {n : Nat} (above : off ≤ k) (below : k < off + piece off n) :
    k / bsize = off / bsize ∧ k % bsize = off % bsize + (k - off) := by
  have within := piece_within off n
  change off % 512 + piece off n ≤ 512 at within
  show k / 512 = off / 512 ∧ k % 512 = off % 512 + (k - off)
  omega

section Copied

variable (owned : a.Owned sb) (opened : a.Opened sb i) (maps : Bmaps sb W (some i) (off / bsize) a q a₁)

include owned opened maps

theorem own_copied (src : List Byte) : (a₁.copied q off src).own (some i) = a₁.own (some i) ∧
    a₁.own (some i) (.data (off / bsize)) = q := by
  obtain ⟨changed, here⟩ := maps.changed owned opened (Finset.Subset.refl _)
  refine ⟨?_, here⟩
  have same := own_store (d := setBytes (a₁.block q) (off % bsize) (src.take (piece off src.length))) changed.owned
    changed.opened (here.trans_ne maps.isData.ne_zero)
  rw [here] at same
  exact same

theorem fileByte_copied (above : off ≤ k) (below : k < off + piece off src.length) :
    (a₁.copied q off src).fileByte i k = src.getD (k - off) 0 := by
  obtain ⟨same, here⟩ := own_copied owned opened maps src
  have le := piece_le off src.length
  have split := piece_place above below
  have small : k % bsize < bsize := Nat.mod_lt _ (by decide)
  rw [fileByte_eq, same, split.1, here, copied, block_write_self, blockByte_setBytes small, if_pos]
  · rw [split.2, Nat.add_sub_cancel_left, List.getD_eq_getElem?_getD, List.getElem?_take_of_lt (by omega),
      List.getD_eq_getElem?_getD]
  · rw [List.length_take, Nat.min_eq_left le]
    omega

theorem fileByte_copied_of_not (present : a.own (some i) (.data (k / bsize)) ≠ 0)
    (outside : k < off ∨ off + piece off src.length ≤ k) : (a₁.copied q off src).fileByte i k = a.fileByte i k := by
  obtain ⟨same, here⟩ := own_copied owned opened maps src
  obtain ⟨changed, -⟩ := maps.changed owned opened (Finset.Subset.refl _)
  have kept := changed.keeps _ present
  have block := maps.block_eq owned opened present
  have le := piece_le off src.length
  have small : k % bsize < bsize := Nat.mod_lt _ (by decide)
  rw [fileByte_eq, same, kept, fileByte_eq, copied]
  by_cases mine : k / bsize = off / bsize
  · rw [← mine, kept] at here
    rw [here] at block ⊢
    rw [block_write_self, blockByte_setBytes small, if_neg, block]
    rw [List.length_take, Nat.min_eq_left le]
    change k / 512 = off / 512 at mine
    show ¬(off % 512 ≤ k % 512 ∧ k % 512 < off % 512 + piece off src.length)
    omega
  · rw [block_write_of_ne, block]
    intro equal
    rw [← here] at equal
    have parts := changed.owned.own_inj changed.opened (kept.trans_ne present) (kept.trans equal)
    exact mine (Part.data.inj parts)

end Copied

section

variable (writes : Writes sb W (some i) off src a a') (owned : a.Owned sb) (opened : a.Opened sb i)
include writes owned opened

theorem Writes.fileByte_eq : (off ≤ k → k < off + src.length → a'.fileByte i k = src.getD (k - off) 0) ∧
      (a.own (some i) (.data (k / bsize)) ≠ 0 → k < off ∨ off + src.length ≤ k → a'.fileByte i k = a.fileByte i k) := by
  induction writes with
  | @done off a => exact ⟨fun above below => absurd below (not_lt_of_ge above), fun _ _ => rfl⟩
  | @piece off src q a a₁ a' more maps mine rest ih =>
    have changed := maps.changed_copied owned opened (Finset.Subset.refl _) more
    obtain ⟨inside, outside⟩ := ih changed.owned changed.opened
    have le := piece_le off src.length
    have length : (src.drop (View.piece off src.length)).length = src.length - View.piece off src.length :=
      List.length_drop
    constructor
    · intro above below
      by_cases first : k < off + View.piece off src.length
      · rw [← fileByte_copied owned opened maps above first]
        refine outside ?_ (.inl first)
        obtain ⟨same, here⟩ := own_copied owned opened maps src
        rw [same, (piece_place above first).1, here]
        exact maps.isData.ne_zero
      · rw [inside (by omega) (by omega), List.getD_eq_getElem?_getD, List.getElem?_drop, List.getD_eq_getElem?_getD]
        congr 2
        omega
    · intro present apart
      rw [outside ((changed.keeps _ present).trans_ne present) (by omega),
        fileByte_copied_of_not owned opened maps present (by omega)]

theorem Writes.stores (above : off ≤ k) (below : k < off + src.length) :
    a'.own (some i) (.data (k / bsize)) ≠ 0 ∧ a'.own (some i) (.data (k / bsize)) ∈ a'.logged := by
  induction writes with
  | done => exact absurd below (not_lt_of_ge above)
  | @piece off src q a a₁ a' more maps mine rest ih =>
    have changed := maps.changed_copied owned opened (Finset.Subset.refl _) more
    by_cases first : k < off + View.piece off src.length
    · obtain ⟨same, here⟩ := own_copied owned opened maps src
      have place : (a₁.copied q off src).own (some i) (.data (k / bsize)) = q := by
        rw [same, (piece_place above first).1, here]
      have later := rest.changed changed.owned changed.opened (Finset.Subset.refl _)
      rw [later.keeps _ (place.trans_ne maps.isData.ne_zero), place]
      exact ⟨maps.isData.ne_zero, rest.logged.subset (mem_write.mpr (.inl rfl))⟩
    · refine ih changed.owned changed.opened (not_lt.mp first) ?_
      rw [List.length_drop]
      omega

end

/-! ## The size -/

section Extend

variable (owned : a.Owned sb) (opened : a.Opened sb i) {n : Nat}

include owned opened

theorem fileByte_resize {size : Word} : (a.resize i size).fileByte i k = a.fileByte i k := by
  obtain ⟨positive, -, below⟩ := iblock_bounds opened.range
  rw [fileByte_eq, own_resize owned opened, fileByte_eq, block_resize]
  exact (owned.low_ne opened (by omega) below).symm

theorem fileByte_extend : (a.extend i n).fileByte i k = a.fileByte i k := by
  unfold extend
  split
  next => exact fileByte_resize owned opened
  next => rfl

theorem own_extend : (a.extend i n).own (some i) = a.own (some i) := by
  unfold extend
  split
  next => exact own_resize owned opened
  next => rfl

theorem spares_extend : Spares sb i a (a.extend i n) := by
  unfold extend
  split
  next => exact spares_resize owned opened
  next => exact .refl

theorem owned_extend : (a.extend i n).Owned sb := by
  unfold extend
  split
  next => exact owned_resize owned opened
  next => exact owned

omit owned opened in
theorem size_extend (small : n < 2 ^ 32) :
    ((a.extend i n).inode (some i)).size.toNat = max (a.inode (some i)).size.toNat n := by
  unfold extend
  split
  next grows =>
    rw [inode_resize]
    show (BitVec.ofNat 32 n).toNat = _
    rw [BitVec.toNat_ofNat, Nat.mod_eq_of_lt small]
    omega
  next stays => omega

omit owned opened in
theorem frame_extend : a.extend i n =
    { a with block := (a.extend i n).block, logged := (a.extend i n).logged, inode := (a.extend i n).inode } := by
  unfold extend
  split <;> rfl

theorem marked_extend {q : Word} (inside : q.toNat < sb.size.toNat) : (a.extend i n).marked sb q = a.marked sb q := by
  unfold extend
  split
  next => exact marked_resize owned opened inside
  next => rfl

omit owned opened in
theorem logs_extend : Logs (fun q => q = iblock (a.inode (some i)).inum) a (a.extend i n) := by
  unfold extend
  split
  next =>
    have same : Logs (fun q => q = iblock (a.inode (some i)).inum) a
      (a.setInode (some i) ((a.inode (some i)).withSize (BitVec.ofNat 32 n))) := .of_eq rfl
    exact same.trans (.write rfl)
  next => exact .of_eq rfl

end Extend

theorem Opened.content_eq (opened : a.Opened sb i) : a.content (a.inode (some i)).inum =
    (List.range (a.inode (some i)).size.toNat).map (a.fileByte i) := by
  rw [content, opened.seen_eq]
  rfl

theorem NoHoles.own (whole : a.NoHoles sb) (opened : a.Opened sb i) :
    (a.inode (some i)).size.toNat ≤ maxfile * bsize ∧
      ∀ k, k < (a.inode (some i)).size.toNat → a.own (some i) (.data (k / bsize)) ≠ 0 := by
  have here := whole _ opened.inUse
  rw [opened.seen_eq] at here
  exact here

structure Written (sb : Superblock) (i : Fin ninode) (off : Nat) (src : List Byte) (a a' : View) : Prop where
  spares : Spares sb i a a'
  owned : a'.Owned sb
  opened : a'.Opened sb i
  noHoles : a'.NoHoles sb
  frame : a' = { a with block := a'.block, logged := a'.logged, inode := a'.inode }
  content : a'.content (a.inode (some i)).inum = splice (a.content (a.inode (some i)).inum) off src
  space : ∀ P, parts off src.length ⊆ P →
    (a'.missing i P).card + (a.freeBlocks sb).card = (a.missing i P).card + (a'.freeBlocks sb).card
  logs : Logs (fun q => a'.Sector sb i (parts off src.length) q ∨ q = iblock (a.inode (some i)).inum) a a'

theorem Writes.written (writes : Writes sb W (some i) off src a a') (owned : a.Owned sb) (opened : a.Opened sb i)
    (whole : a.NoHoles sb) (start : off ≤ (a.inode (some i)).size.toNat) (range : off + src.length ≤ maxfile * bsize) :
    Written sb i off src a (a'.extend i (off + src.length)) := by
  have changed := writes.changed owned opened (Finset.Subset.refl _)
  have spares := changed.spares.trans (spares_extend (n := off + src.length) changed.owned changed.opened)
  have opened' := spares.alike.opened opened
  have small : off + src.length < 2 ^ 32 := lt_of_le_of_lt range (by decide)
  have size := size_extend (a := a') (i := i) small
  rw [changed.size] at size
  have own := own_extend (n := off + src.length) changed.owned changed.opened
  have bytes := fun k => fileByte_extend (k := k) (n := off + src.length) changed.owned changed.opened
  refine ⟨spares, owned_extend changed.owned changed.opened, opened', ?_, ?_, ?_, ?_, ?_⟩
  · intro inum used
    by_cases mine : inum = (a.inode (some i)).inum
    · have seen := opened'.seen_eq
      have number := opened'.number_eq
      rw [spares.alike.inum] at seen number
      rw [mine, seen, size]
      refine ⟨Nat.max_le.mpr ⟨(whole.own opened).1, range⟩, fun k lt => ?_⟩
      rw [← seen, number, own]
      by_cases before : k < (a.inode (some i)).size.toNat
      · have present := (whole.own opened).2 k before
        exact (changed.keeps _ present).trans_ne present
      · exact (writes.stores owned opened (by omega) (by omega)).1
    · exact spares.noHoles whole mine used
  · rw [frame_extend, changed.frame]
  · have here := opened'.content_eq
    rw [spares.alike.inum] at here
    rw [here, opened.content_eq, size]
    apply splice_map_range start
    · intro k lt
      rw [bytes, (writes.fileByte_eq owned opened).1 (Nat.le_add_right ..) (by omega), Nat.add_sub_cancel_left,
        List.getD_eq_getElem?_getD, List.getElem?_eq_getElem lt]
      rfl
    · intro k before apart
      rw [bytes, (writes.fileByte_eq owned opened).2 ((whole.own opened).2 k before) apart]
  · intro P sub
    have space := (writes.changed owned opened sub).space
    rw [missing, own, freeBlocks_congr owned.format.proper fun q => marked_extend changed.owned changed.opened]
    exact space
  · have inum := changed.spares.alike.inum
    refine (changed.logs.mono fun q sector => .inl ?_).trans (logs_extend.mono fun q here => .inr (inum ▸ here))
    unfold Sector
    rw [own]
    exact sector

end View

open View (Written)

theorem inodeWrite_sees (terms : Terms watch E p) {off : Word} (owned : a.Owned sb) (opened : a.Opened sb i)
    (whole : a.NoHoles sb) (file : (a.inode (some i)).type ≠ tDev) (short : src.length < 2 ^ 32)
    (accepted : ¬Refused (a.inode (some i)) off src.length)
    (room : (a.missing i (View.parts off.toNat src.length)).card ≤ (a.freeBlocks sb).card)
    (allows : ∀ a', Changed sb i (View.parts off.toNat src.length) a a' → Allows watch E (a.Writable sb i) a') :
    (inodeWrite (some i) src off).Acts watch E p (Sees p [] a) fun r t =>
      r = true ∧ ∃ a', Written sb i off.toNat src a a' ∧ Sees p [] a' t := by
  have start : off.toNat ≤ (a.inode (some i)).size.toNat := not_lt.mp fun beyond => accepted (.inl beyond)
  have range : off.toNat + src.length ≤ maxfile * bsize :=
    not_lt.mp fun beyond => accepted (.inr (.inr beyond))
  obtain ⟨a', writes⟩ := View.exists_writes owned opened (Set.Subset.refl _) range (Finset.Subset.refl _) room
  have changed := writes.changed owned opened (Finset.Subset.refl _)
  refine (inodeWrite_writes terms writes owned.format opened changed file short accepted (allows a' changed)
    (.inr (.inl rfl))).weaken fun r t both => ⟨both.1, _, writes.written owned opened whole start range, both.2⟩

/-! ## Room in the log -/

structure View.Room (a : View) (k : Nat) : Prop where
  trans : a.trans = true
  logged : a.logged.length + k < 9

theorem Sees.nodup {s : State} {H : List (Fin nbuf × Word)} (sees : Sees p H a s) : a.logged.Nodup := by
  obtain ⟨-, c, r, -, is⟩ := sees
  exact is.nodup

theorem View.Room.allows (room : a.Room (View.sectorCount sb P + 1)) (apart : a.logged.Nodup) (owned : a.Owned sb)
    (told : ∀ w, watch w = true → E (.notes w)) (changed : Changed sb i P a a') : Allows watch E W a' := by
  have count := changed.length_le apart
  have few := room.logged
  have trans : a'.trans = true := by
    rw [changed.frame]
    exact room.trans
  have size : a'.size.toInt = 10 := by
    rw [changed.frame]
    show a.size.toInt = 10
    rw [BitVec.toInt_eq_toNat_of_lt]
    · rw [owned.format.size, owned.format.proper.nlog]
      rfl
    · rw [owned.format.size, owned.format.proper.nlog]
      decide
  exact ⟨.inl trans, .inl (show _ + 2 < 10 by omega), .inl ⟨show _ < 10 by omega, by rw [size]; omega⟩, fun _ _ => told _,
    fun _ _ => told _, fun _ _ => told _⟩

/-! ## Reading -/

section Read

variable (owned : a.Owned sb) (opened : a.Opened sb i) (whole : a.NoHoles sb)

theorem View.blockOf_eq (present : a.own (some i) (.data k) ≠ 0) : a.blockOf (some i) k = a.own (some i) (.data k) := by
  obtain ⟨range, table⟩ := View.reaches_of_own present
  by_cases small : k < ndirect
  · rw [View.own_direct small]
    exact if_pos small
  · have large := not_lt.mp small
    rw [View.own_indirect large range (table large)]
    exact if_neg small

include owned opened whole

theorem View.NoHoles.mapped (lt : k < (a.inode (some i)).size.toNat) : a.Mapped (some i) (k / bsize) := by
  have present := (whole.own opened).2 k lt
  obtain ⟨range, table⟩ := View.reaches_of_own present
  refine ⟨range, fun large => ⟨table large, ?_⟩, ?_, ?_⟩
  · exact owned.format.home (owned.own_data opened (u := .table) (table large)).2
  · rw [View.blockOf_eq present]
    exact present
  · rw [View.blockOf_eq present]
    exact owned.format.home (owned.own_data opened present).2

omit owned in
theorem View.bytes_eq {n : Nat} (within : off + n ≤ (a.inode (some i)).size.toNat) :
    a.bytes (some i) off n = ((a.content (a.inode (some i)).inum).drop off).take n := by
  rw [opened.content_eq, View.bytes]
  apply List.ext_getElem
  · simp only [List.length_map, List.length_range, List.length_take, List.length_drop]
    omega
  · intro m left right
    have lt : m < n := by
      simpa using left
    have byte : a.byte (some i) (off + m) = a.fileByte i (off + m) := by
      have present := (whole.own opened).2 (off + m) (by omega)
      rw [View.byte, View.blockOf_eq present]
      rfl
    simp [byte]

end Read

def ReadRefused (x : Inode) (off : Word) (n : Word) : Prop :=
  x.size.toNat < off.toNat ∨ 2 ^ 32 ≤ off.toNat + n.toNat

theorem inodeRead_refuses {ip : Slot} {off n : Word} (file : (a.inode ip).type ≠ tDev)
    (refused : ReadRefused (a.inode ip) off n) :
    (inodeRead ip off n).Acts watch E p (Sees p [] a) fun r t => r = none ∧ Sees p [] a t := by
  refine learn_inodes fun t inodes => ?_
  rw [inodes, if_neg file, if_pos]
  · exact .pure fun _ sees => ⟨rfl, sees⟩
  · have bound := off.isLt
    unfold ReadRefused at refused
    rw [BitVec.lt_def, BitVec.lt_def, BitVec.toNat_add]
    omega

theorem inodeRead_returns (terms : Terms watch E p) {off n : Word} (owned : a.Owned sb) (opened : a.Opened sb i)
    (whole : a.NoHoles sb) (file : (a.inode (some i)).type ≠ tDev) (few : a.logged.length < nbuf)
    (accepted : ¬ReadRefused (a.inode (some i)) off n) :
    (inodeRead (some i) off n).Acts watch E p (Sees p [] a) fun r t =>
      r = some (((a.content (a.inode (some i)).inum).drop off.toNat).take n.toNat) ∧ Sees p [] a t := by
  have start : off.toNat ≤ (a.inode (some i)).size.toNat := not_lt.mp fun beyond => accepted (.inl beyond)
  have small : off.toNat + n.toNat < 2 ^ 32 := not_le.mp fun large => accepted (.inr large)
  refine (inodeRead_sees terms (.inl few) opened.dev off n file start small fun k _ _ lt =>
    whole.mapped owned opened lt).weaken fun r t both => ⟨?_, both.2⟩
  rw [both.1, View.bytes_eq opened whole (by omega)]
  congr 1
  have length : ((a.content (a.inode (some i)).inum).drop off.toNat).length = (a.inode (some i)).size.toNat - off.toNat := by
    rw [List.length_drop, View.length_content, opened.seen_eq]
  rw [← length, ← List.take_eq_take_min]

theorem Sees.length_logged {s : State} {H : List (Fin nbuf × Word)} (sees : Sees p H a s) (format : a.Formatted sb) :
    a.logged.length < nbuf := by
  obtain ⟨-, c, r, -, is⟩ := sees
  have nlog := format.proper.nlog
  rw [← format.size] at nlog
  rcases is.fits with none | fits
  · rw [none]
    decide
  · rw [nlog] at fits
    exact fits

end Certikos.FileSys
