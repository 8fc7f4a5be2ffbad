import Certikos.FileSys.Mapping
import Certikos.Lib.PartialInj

/-!
# Whose a block is

Block numbers are kept in inodes and in indirect blocks, the newest of them only in memory. No block is kept in two
places, and the bitmap has the blocks that are kept in one; so what is written to one file is not seen in another.
-/

namespace Certikos.FileSys
open Lib Function
open Fs (nbuf Block rootdev logsize)

variable {a a' a'' : View} {sb : Superblock} {W : Set Word} {ip : Slot} {i : Fin ninode} {q q' : Word} {d : Block}
  {bn : Nat}

def Inode.withSize (x : Inode) (size : Word) : Inode := { x with size := size }

inductive Part
  | data (bn : Nat)
  | table
  deriving DecidableEq

namespace View

def number (a : View) (addrs : Fin (ndirect + 1) → Word) : Part → Word
  | .table => addrs (Fin.ofNat (ndirect + 1) ndirect)
  | .data bn =>
    if bn < ndirect then addrs (Fin.ofNat (ndirect + 1) bn)
    else if bn < maxfile ∧ addrs (Fin.ofNat (ndirect + 1) ndirect) ≠ 0 then
      a.block (addrs (Fin.ofNat (ndirect + 1) ndirect)) (Fin.ofNat 128 (bn - ndirect))
    else 0

theorem number_congr {addrs : Fin (ndirect + 1) → Word} (same : addrs (Fin.ofNat (ndirect + 1) ndirect) ≠ 0 →
      a'.block (addrs (Fin.ofNat (ndirect + 1) ndirect)) = a.block (addrs (Fin.ofNat (ndirect + 1) ndirect))) :
    a'.number addrs = a.number addrs := by
  funext u
  cases u with
  | table => rfl
  | data bn =>
    refine if_ctx_congr Iff.rfl (fun _ => rfl) fun _ => if_ctx_congr Iff.rfl (fun present => ?_) fun _ => rfl
    rw [same present.2]

def own (a : View) (ip : Slot) : Part → Word := a.number (a.inode ip).addrs

theorem own_direct (small : bn < ndirect) : a.own ip (.data bn) = (a.inode ip).addrs (Fin.ofNat (ndirect + 1) bn) :=
  if_pos small

theorem own_indirect (large : ndirect ≤ bn) (range : bn < maxfile) (present : a.table ip ≠ 0) :
    a.own ip (.data bn) = a.block (a.table ip) (Fin.ofNat 128 (bn - ndirect)) :=
  (if_neg (not_lt_of_ge large)).trans (if_pos ⟨range, present⟩)

theorem own_none (large : ndirect ≤ bn) (none : a.table ip = 0) : a.own ip (.data bn) = 0 :=
  (if_neg (not_lt_of_ge large)).trans (if_neg fun present => present.2 none)

theorem own_beyond (beyond : maxfile ≤ bn) : a.own ip (.data bn) = 0 := by
  have large : ¬bn < ndirect := by
    change 12 + 128 ≤ bn at beyond
    show ¬bn < 12
    omega
  exact (if_neg large).trans (if_neg fun present => not_lt_of_ge beyond present.1)

def Reaches (a : View) (ip : Slot) : Part → Prop
  | .table => True
  | .data bn => bn < maxfile ∧ (ndirect ≤ bn → a.table ip ≠ 0)

theorem reaches_of_own {u : Part} (present : a.own ip u ≠ 0) : a.Reaches ip u := by
  cases u with
  | table => trivial
  | data bn =>
    refine ⟨not_le.mp fun beyond => present (own_beyond beyond), fun large none => ?_⟩
    exact present (own_none large none)

def setPart (a : View) (ip : Slot) (q : Word) : Part → View
  | .table => a.setAddr ip (Fin.ofNat (ndirect + 1) ndirect) q
  | .data bn =>
    if bn < ndirect then a.setAddr ip (Fin.ofNat (ndirect + 1) bn) q else a.setEntry (a.table ip) (bn - ndirect) q

theorem setPart_direct (small : bn < ndirect) :
    a.setPart ip q (.data bn) = a.setAddr ip (Fin.ofNat (ndirect + 1) bn) q := if_pos small

theorem setPart_indirect (large : ndirect ≤ bn) :
    a.setPart ip q (.data bn) = a.setEntry (a.table ip) (bn - ndirect) q := if_neg (not_lt_of_ge large)

theorem setPart_induct {u : Part} (holds : View → Prop) (addr : ∀ k, holds (a.setAddr ip k q))
    (entry : ∀ bn, u = .data bn → ndirect ≤ bn → holds (a.setEntry (a.table ip) (bn - ndirect) q)) :
    holds (a.setPart ip q u) := by
  cases u with
  | table => exact addr _
  | data bn =>
    by_cases small : bn < ndirect
    · rw [setPart_direct small]
      exact addr _
    · have large := not_lt.mp small
      rw [setPart_indirect large]
      exact entry bn rfl large

theorem own_write (ne : a.table ip ≠ q) : (a.write q d).own ip = a.own ip :=
  number_congr fun _ => block_write_of_ne ne

theorem addr_inj {m n : Nat} (small : m ≤ ndirect) (small' : n ≤ ndirect) :
    Fin.ofNat (ndirect + 1) m = Fin.ofNat (ndirect + 1) n ↔ m = n := by
  have left : (Fin.ofNat (ndirect + 1) m).val = m := Nat.mod_eq_of_lt (Nat.lt_succ_of_le small)
  have right : (Fin.ofNat (ndirect + 1) n).val = n := Nat.mod_eq_of_lt (Nat.lt_succ_of_le small')
  rw [Fin.ext_iff, left, right]

theorem table_setAddr_direct (small : bn < ndirect) :
    (a.setAddr ip (Fin.ofNat (ndirect + 1) bn) q).table ip = a.table ip := by
  rw [table, inode_setAddr]
  refine update_of_ne (fun same => ?_) ..
  exact absurd ((addr_inj le_rfl (le_of_lt small)).mp same) (ne_of_gt small)

theorem data_ne {m n : Nat} (ne : m ≠ n) : Part.data m ≠ Part.data n := fun same => ne (Part.data.inj same)

theorem own_setTable (none : a.table ip = 0) (ne : q ≠ 0) (zero : a.block q = fun _ => 0) :
    (a.setAddr ip (Fin.ofNat (ndirect + 1) ndirect) q).own ip = update (a.own ip) .table q := by
  have table : (a.setAddr ip (Fin.ofNat (ndirect + 1) ndirect) q).table ip = q := table_setAddr
  funext u
  cases u with
  | table =>
    rw [update_self]
    exact table
  | data bn =>
    rw [update_of_ne (by simp)]
    by_cases small : bn < ndirect
    · rw [own_direct small, own_direct small, inode_setAddr]
      refine update_of_ne (fun same => ?_) ..
      exact absurd ((addr_inj (le_of_lt small) le_rfl).mp same) (ne_of_lt small)
    · have large := not_lt.mp small
      rw [own_none large none]
      by_cases range : bn < maxfile
      · rw [own_indirect large range (table.trans_ne ne), table]
        exact congrFun zero _
      · exact own_beyond (not_lt.mp range)

theorem own_setDirect (small : bn < ndirect) :
    (a.setAddr ip (Fin.ofNat (ndirect + 1) bn) q).own ip = update (a.own ip) (.data bn) q := by
  have table : (a.setAddr ip (Fin.ofNat (ndirect + 1) bn) q).table ip = a.table ip := table_setAddr_direct small
  funext u
  cases u with
  | table =>
    rw [update_of_ne (by simp)]
    exact table
  | data bn' =>
    by_cases small' : bn' < ndirect
    · rw [own_direct small', inode_setAddr]
      by_cases same : bn' = bn
      · subst same
        rw [update_self]
        exact update_self (Fin.ofNat (ndirect + 1) bn') q (a.inode ip).addrs
      · rw [update_of_ne (data_ne same), own_direct small']
        refine update_of_ne (fun equal => ?_) ..
        exact same ((addr_inj (le_of_lt small') (le_of_lt small)).mp equal)
    · have large := not_lt.mp small'
      have other : bn' ≠ bn := by
        rintro rfl
        exact small' small
      rw [update_of_ne (data_ne other)]
      by_cases range : bn' < maxfile
      · by_cases none : a.table ip = 0
        · rw [own_none large none, own_none large (table.trans none)]
        · rw [own_indirect large range (table.trans_ne none), own_indirect large range none, table]
          rfl
      · rw [own_beyond (not_lt.mp range), own_beyond (not_lt.mp range)]

theorem own_setEntry (large : ndirect ≤ bn) (range : bn < maxfile) (present : a.table ip ≠ 0) :
    (a.setEntry (a.table ip) (bn - ndirect) q).own ip = update (a.own ip) (.data bn) q := by
  funext u
  cases u with
  | table =>
    rw [update_of_ne (by simp)]
    rfl
  | data bn' =>
    by_cases small' : bn' < ndirect
    · have other : bn' ≠ bn := ne_of_lt (lt_of_lt_of_le small' large)
      rw [update_of_ne (data_ne other), own_direct small', own_direct small']
      rfl
    · have large' := not_lt.mp small'
      by_cases range' : bn' < maxfile
      · have here : (a.setEntry (a.table ip) (bn - ndirect) q).own ip (.data bn') =
            update (a.block (a.table ip)) (Fin.ofNat 128 (bn - ndirect)) q (Fin.ofNat 128 (bn' - ndirect)) := by
          have table : (a.setEntry (a.table ip) (bn - ndirect) q).table ip = a.table ip := rfl
          rw [own_indirect large' range' (table.trans_ne present), table]
          exact congrFun block_write_self _
        rw [here]
        by_cases same : bn' = bn
        · subst same
          rw [update_self, update_self]
        · rw [update_of_ne (data_ne same), own_indirect large' range' present]
          refine update_of_ne (fun equal => ?_) ..
          have values : (bn' - 12) % 128 = (bn - 12) % 128 := congrArg Fin.val equal
          change 12 ≤ bn at large
          change 12 ≤ bn' at large'
          change bn < 12 + 128 at range
          change bn' < 12 + 128 at range'
          omega
      · have other : bn' ≠ bn := by
          rintro rfl
          exact range' range
        rw [update_of_ne (data_ne other), own_beyond (not_lt.mp range'),
          own_beyond (not_lt.mp range')]

theorem own_setPart {u : Part} (reaches : a.Reaches ip u) (missing : a.own ip u = 0) (ne : q ≠ 0)
    (zero : a.block q = fun _ => 0) : (a.setPart ip q u).own ip = update (a.own ip) u q := by
  cases u with
  | table => exact own_setTable missing ne zero
  | data bn =>
    by_cases small : bn < ndirect
    · rw [setPart_direct small]
      exact own_setDirect small
    · have large := not_lt.mp small
      rw [setPart_indirect large]
      exact own_setEntry large reaches.1 (reaches.2 large)

/-! ## All inodes -/

def seen (a : View) (inum : Word) : Dinode :=
  match cachedIn a.inode rootdev inum with
  | some i => (a.loaded (some i)).toDinode
  | none => dinodeAt (a.block (iblock inum)) inum

def InUse (a : View) (sb : Superblock) (inum : Word) : Prop :=
  inum.toNat < sb.ninodes.toNat ∧ (a.seen inum).type ≠ 0
deriving Decidable

def holds (a : View) (sb : Superblock) (u : Word × Part) : Option Word :=
  if a.InUse sb u.1 ∧ a.number (a.seen u.1).addrs u.2 ≠ 0 then some (a.number (a.seen u.1).addrs u.2) else none

theorem holds_eq_some {u : Word × Part} :
    a.holds sb u = some q ↔ a.InUse sb u.1 ∧ a.number (a.seen u.1).addrs u.2 = q ∧ q ≠ 0 := by
  unfold holds
  by_cases both : a.InUse sb u.1 ∧ a.number (a.seen u.1).addrs u.2 ≠ 0
  · rw [if_pos both, Option.some.injEq]
    constructor
    · rintro rfl
      exact ⟨both.1, rfl, both.2⟩
    · exact fun same => same.2.1
  · rw [if_neg both]
    constructor
    · exact nofun
    · rintro ⟨used, rfl, present⟩
      exact absurd ⟨used, present⟩ both

structure Owned (a : View) (sb : Superblock) : Prop where
  format : a.Formatted sb
  data : ∀ u q, a.holds sb u = some q → sb.IsData q
  apart : PartialInj (a.holds sb)
  marks : ∀ q, sb.IsData q → (a.marked sb q = true ↔ ∃ u, a.holds sb u = some q)
  metadata : ∀ q : Word, q.toNat < sb.dataStart → a.marked sb q = true

structure Opened (a : View) (sb : Superblock) (i : Fin ninode) : Prop where
  cached : cachedIn a.inode rootdev (a.inode (some i)).inum = some i
  valid : (a.inode (some i)).valid = true
  range : (a.inode (some i)).inum.toNat < sb.ninodes.toNat
  typed : (a.inode (some i)).type ≠ 0

theorem cachedIn_spec {inode : Slot → Inode} {dev inum : Word} (cached : cachedIn inode dev inum = some i) :
    0 < (inode (some i)).ref ∧ (inode (some i)).dev = dev ∧ (inode (some i)).inum = inum := by
  simpa using List.find?_some cached

theorem cachedIn_congr {inode inode' : Slot → Inode} (same : ∀ i : Fin ninode, (inode' (some i)).ref = (inode (some i)).ref ∧
    (inode' (some i)).dev = (inode (some i)).dev ∧ (inode' (some i)).inum = (inode (some i)).inum) (dev inum : Word) :
    cachedIn inode' dev inum = cachedIn inode dev inum := by
  unfold cachedIn
  congr 1
  funext k
  rw [(same k).1, (same k).2.1, (same k).2.2]

namespace Opened

variable (opened : a.Opened sb i)

include opened

theorem dev : (a.inode (some i)).dev = rootdev := (cachedIn_spec opened.cached).2.1

theorem ref : 1 ≤ (a.inode (some i)).ref := (cachedIn_spec opened.cached).1

theorem seen_eq : a.seen (a.inode (some i)).inum = (a.inode (some i)).toDinode := by
  rw [seen, opened.cached]
  exact congrArg Inode.toDinode (if_pos opened.valid)

theorem inUse : a.InUse sb (a.inode (some i)).inum := by
  refine ⟨opened.range, ?_⟩
  rw [opened.seen_eq]
  exact opened.typed

theorem number_eq (u : Part) : a.number (a.seen (a.inode (some i)).inum).addrs u = a.own (some i) u := by
  rw [opened.seen_eq]
  rfl

theorem holds_iff {u : Part} : a.holds sb ((a.inode (some i)).inum, u) = some q ↔ a.own (some i) u = q ∧ q ≠ 0 := by
  rw [holds_eq_some, opened.number_eq]
  exact and_iff_right opened.inUse

end Opened

structure Alike (i : Fin ninode) (a a' : View) : Prop where
  entry : ∃ size addrs, a'.inode (some i) = { a.inode (some i) with size := size, addrs := addrs }
  others : ∀ jp, jp ≠ some i → a'.inode jp = a.inode jp

namespace Alike

theorem of_eq (same : a'.inode = a.inode) : Alike i a a' :=
  ⟨⟨_, _, congrFun same (some i)⟩, fun jp _ => congrFun same jp⟩

theorem setAddr {k : Fin (ndirect + 1)} : Alike i a (a.setAddr (some i) k q) :=
  ⟨⟨_, _, inode_setInode_self⟩, fun _ ne => inode_setInode_of_ne ne⟩

theorem trans (first : Alike i a a') (second : Alike i a' a'') : Alike i a a'' := by
  obtain ⟨size, addrs, entry⟩ := first.entry
  obtain ⟨size', addrs', entry'⟩ := second.entry
  refine ⟨⟨size', addrs', ?_⟩, fun jp ne => (second.others jp ne).trans (first.others jp ne)⟩
  rw [entry', entry]

variable (alike : Alike i a a')

include alike

theorem inum : (a'.inode (some i)).inum = (a.inode (some i)).inum := by
  obtain ⟨size, addrs, entry⟩ := alike.entry
  rw [entry]

theorem cachedIn_eq (dev inum : Word) : cachedIn a'.inode dev inum = cachedIn a.inode dev inum := by
  refine cachedIn_congr (fun k => ?_) dev inum
  by_cases same : k = i
  · obtain ⟨size, addrs, entry⟩ := alike.entry
    rw [same, entry]
    exact ⟨rfl, rfl, rfl⟩
  · rw [alike.others (some k) (by simpa using same)]
    exact ⟨rfl, rfl, rfl⟩

theorem opened (opened : a.Opened sb i) : a'.Opened sb i := by
  obtain ⟨size, addrs, entry⟩ := alike.entry
  refine ⟨?_, ?_, ?_, ?_⟩
  · rw [alike.inum, alike.cachedIn_eq]
    exact opened.cached
  · rw [entry]
    exact opened.valid
  · rw [entry]
    exact opened.range
  · rw [entry]
    exact opened.typed

end Alike

structure Spares (sb : Superblock) (i : Fin ninode) (a a' : View) : Prop where
  alike : Alike i a a'
  seen : ∀ j, j ≠ (a.inode (some i)).inum → j.toNat < sb.ninodes.toNat → a'.seen j = a.seen j
  blocks : ∀ j u q, j ≠ (a.inode (some i)).inum → a.holds sb (j, u) = some q → a'.block q = a.block q

namespace Spares

theorem refl : Spares sb i a a := ⟨.of_eq rfl, fun _ _ _ => rfl, fun _ _ _ _ _ => rfl⟩

theorem of_alike (alike : Alike i a a') (disk : ∀ j, j ≠ (a.inode (some i)).inum → j.toNat < sb.ninodes.toNat →
      dinodeAt (a'.block (iblock j)) j = dinodeAt (a.block (iblock j)) j)
    (blocks : ∀ j u q, j ≠ (a.inode (some i)).inum → a.holds sb (j, u) = some q → a'.block q = a.block q) :
    Spares sb i a a' := by
  refine ⟨alike, fun j ne range => ?_, blocks⟩
  unfold View.seen
  rw [alike.cachedIn_eq]
  cases cached : cachedIn a.inode rootdev j with
  | none => exact disk j ne range
  | some k =>
    have inum := (cachedIn_spec cached).2.2
    have other : some k ≠ some i := by
      rintro same
      rw [same] at inum
      exact ne inum.symm
    dsimp only
    unfold loaded
    rw [alike.others _ other]
    dsimp only
    rw [inum, disk j ne range]

variable (spares : Spares sb i a a') {j : Word}

include spares

section

variable (ne : j ≠ (a.inode (some i)).inum)
include ne

theorem number_eq (used : a.InUse sb j) : a'.number (a'.seen j).addrs = a.number (a.seen j).addrs := by
  rw [spares.seen j ne used.1]
  apply number_congr
  intro present
  exact spares.blocks j .table _ ne (holds_eq_some.mpr ⟨used, rfl, present⟩)

theorem inUse_iff : a'.InUse sb j ↔ a.InUse sb j :=
  and_congr_right fun range => by rw [spares.seen j ne range]

theorem holds_iff {u : Part} : a'.holds sb (j, u) = some q ↔ a.holds sb (j, u) = some q := by
  rw [holds_eq_some, holds_eq_some, spares.inUse_iff ne]
  refine and_congr_right fun used => ?_
  rw [spares.number_eq ne used]

end

theorem trans (second : Spares sb i a' a'') : Spares sb i a a'' := by
  have inum := spares.alike.inum
  refine ⟨spares.alike.trans second.alike, fun j ne range => ?_, fun j u q ne held => ?_⟩
  · exact (second.seen j (inum ▸ ne) range).trans (spares.seen j ne range)
  · refine (second.blocks j u q (inum ▸ ne) ?_).trans (spares.blocks j u q ne held)
    exact (spares.holds_iff ne).mpr held

end Spares

/-! ## Changing one file -/

namespace Owned

variable (owned : a.Owned sb)

include owned

theorem not_held (data : sb.IsData q) (free : a.marked sb q = false) (u : Word × Part) : a.holds sb u ≠ some q := by
  intro held
  have marked := (owned.marks q data).mpr ⟨u, held⟩
  rw [free] at marked
  cases marked

variable (opened : a.Opened sb i) {u v : Part}

include opened

theorem own_data (present : a.own (some i) u ≠ 0) : sb.IsData (a.own (some i) u) :=
  owned.data _ _ (opened.holds_iff.mpr ⟨rfl, present⟩)

theorem own_inj (present : a.own (some i) u ≠ 0) (same : a.own (some i) u = a.own (some i) v) : u = v := by
  have left := opened.holds_iff.mpr ⟨rfl, present⟩
  have right := opened.holds_iff.mpr ⟨same.symm, present⟩
  exact congrArg Prod.snd (owned.apart left right)

theorem own_ne (data : sb.IsData q) (free : a.marked sb q = false) : a.own (some i) u ≠ q := by
  intro same
  exact owned.not_held data free _ (opened.holds_iff.mpr ⟨same, data.ne_zero⟩)

theorem low_ne (positive : 0 < q.toNat) (low : q.toNat < sb.dataStart) : q ≠ a.own (some i) u := by
  rintro rfl
  by_cases none : a.own (some i) u = 0
  · rw [none] at positive
    exact absurd positive (by decide)
  · exact absurd (owned.own_data opened none).1 (not_le_of_gt low)

theorem other_ne {j : Word} {w : Part} (ne : j ≠ (a.inode (some i)).inum) (held : a.holds sb (j, w) = some q) :
    q ≠ a.own (some i) u := by
  rintro rfl
  have present : a.own (some i) u ≠ 0 := (holds_eq_some.mp held).2.2
  exact ne (congrArg Prod.fst (owned.apart held (opened.holds_iff.mpr ⟨rfl, present⟩)))

end Owned

theorem block_setPart {u : Part} (ne : q' ≠ a.table ip) : (a.setPart ip q u).block q' = a.block q' :=
  setPart_induct (fun v => v.block q' = a.block q') (fun _ => rfl) fun _ _ _ => block_write_of_ne ne

theorem Formatted.setPart {u : Part} (format : a.Formatted sb) (ne : a.table ip ≠ 1) :
    (a.setPart ip q u).Formatted sb :=
  setPart_induct (·.Formatted sb) (fun _ => format.setInode) fun _ _ _ => format.write ne

theorem Alike.setPart {u : Part} : Alike i a (a.setPart (some i) q u) :=
  setPart_induct (Alike i a) (fun _ => .setAddr) fun _ _ _ => .of_eq rfl

theorem toNat_iblock (inum : Word) : (iblock inum).toNat = inum.toNat / 8 + 2 := by
  have div : (inum / BitVec.ofNat 32 ipb).toNat = inum.toNat / 8 := rfl
  rw [iblock, BitVec.toNat_add, div]
  show (inum.toNat / 8 + 2) % 2 ^ 32 = inum.toNat / 8 + 2
  omega

theorem iblock_bounds {inum : Word} (range : inum.toNat < sb.ninodes.toNat) :
    1 < (iblock inum).toNat ∧ (iblock inum).toNat < sb.mapStart ∧ (iblock inum).toNat < sb.dataStart := by
  rw [toNat_iblock, Superblock.dataStart_eq, Superblock.mapStart_eq]
  omega

theorem Formatted.home_iblock (format : a.Formatted sb) {inum : Word} (range : inum.toNat < sb.ninodes.toNat) :
    a.Home (iblock inum) := format.home (lt_of_lt_of_le (iblock_bounds range).2.2 format.proper.order)

def give (a : View) (sb : Superblock) (i : Fin ninode) (q : Word) (u : Part) : View :=
  (a.take sb q).setPart (some i) q u

section Give

variable (owned : a.Owned sb) (opened : a.Opened sb i) {u : Part} (reaches : a.Reaches (some i) u)
  (missing : a.own (some i) u = 0) (data : sb.IsData q) (free : a.marked sb q = false)

include owned opened data free

omit opened free in
theorem block_give (outside : q'.toNat < sb.mapStart ∨ sb.dataStart ≤ q'.toNat) (ne : q' ≠ q)
    (other : q' ≠ a.own (some i) .table) : (a.give sb i q u).block q' = a.block q' :=
  (block_setPart (a := a.take sb q) other).trans (block_take_of_ne owned.format.proper data.lt_size outside ne)

omit owned opened data free in
theorem alike_give : Alike i a (a.give sb i q u) := (Alike.of_eq rfl : Alike i a (a.take sb q)).trans .setPart

omit free in
theorem marked_give (inside : q'.toNat < sb.size.toNat) :
    (a.give sb i q u).marked sb q' = if q' = q then true else a.marked sb q' := by
  have bounds := owned.format.proper.bblock_bounds inside
  have start := sb.mapStart_eq
  have same : (a.give sb i q u).block (bblock q' sb.ninodes) = (a.take sb q).block (bblock q' sb.ninodes) :=
    block_setPart (a := a.take sb q) (owned.low_ne opened (u := .table) (by omega) bounds.2)
  rw [marked, same]
  exact marked_take owned.format.proper data.lt_size data.1 inside

include reaches missing

theorem own_give : (a.give sb i q u).own (some i) = update (a.own (some i)) u q := by
  have same : (a.take sb q).own (some i) = a.own (some i) := by
    apply number_congr
    intro present
    refine block_take_of_ne owned.format.proper data.lt_size (.inr ?_) (owned.own_ne opened (u := .table) data free)
    exact (owned.own_data opened (u := .table) present).1
  rw [← same]
  refine own_setPart ?_ ((congrFun same u).trans missing) data.ne_zero block_take_self
  cases u with
  | table => trivial
  | data bn => exact reaches

omit reaches missing in
theorem spares_give : Spares sb i a (a.give sb i q u) := by
  refine .of_alike alike_give (fun j _ range => ?_) fun j w q' ne held => ?_
  · obtain ⟨positive, low, below⟩ := iblock_bounds range
    rw [block_give owned data (.inl low) ?_ (owned.low_ne opened (by omega) below)]
    rintro rfl
    exact absurd data.1 (not_le_of_gt below)
  · refine block_give owned data (.inr (owned.data _ _ held).1) ?_ (owned.other_ne opened ne held)
    rintro rfl
    exact owned.not_held data free _ held

omit reaches missing free in
theorem format_give : (a.give sb i q u).Formatted sb := by
  refine (owned.format.take owned.format.proper data.lt_size data.1).setPart ?_
  have start := sb.mapStart_eq
  have next := sb.dataStart_eq
  have low : (1 : Word).toNat < sb.dataStart := show 1 < _ by omega
  exact (owned.low_ne opened (u := .table) (by decide) low).symm

theorem owned_give : (a.give sb i q u).Owned sb := by
  have spares := spares_give owned opened (u := u) data free
  have opened' := spares.alike.opened opened
  have own := own_give owned opened reaches missing data free
  have held : ∀ w q', (a.give sb i q u).holds sb w = some q' ↔
      w = ((a.inode (some i)).inum, u) ∧ q' = q ∨ a.holds sb w = some q' := by
    rintro ⟨j, v⟩ q'
    by_cases mine : j = (a.inode (some i)).inum
    · have here := opened'.holds_iff (q := q') (u := v)
      rw [spares.alike.inum, own] at here
      rw [mine, here, opened.holds_iff]
      by_cases same : v = u
      · subst same
        rw [update_self, missing]
        constructor
        · rintro ⟨rfl, -⟩
          exact .inl ⟨rfl, rfl⟩
        · rintro (⟨-, rfl⟩ | ⟨rfl, present⟩)
          · exact ⟨rfl, data.ne_zero⟩
          · exact absurd rfl present
      · rw [update_of_ne same]
        simp [same]
    · rw [spares.holds_iff mine]
      simp [mine]
  have fresh := owned.not_held data free
  refine ⟨format_give owned opened data, fun w q' here => ?_, ?_, fun q' data' => ?_, fun q' low => ?_⟩
  · rcases (held w q').mp here with ⟨-, rfl⟩ | before
    · exact data
    · exact owned.data w q' before
  · exact owned.apart.grant fresh fun w q' here => (held w q').mp here
  · rw [marked_give owned opened data data'.lt_size]
    by_cases same : q' = q
    · rw [if_pos same]
      exact iff_of_true rfl ⟨_, (held _ _).mpr (.inl ⟨rfl, same⟩)⟩
    · rw [if_neg same, owned.marks q' data']
      exact exists_congr fun w => by simp [held, same]
  · have order := owned.format.proper.order
    have size := owned.format.proper.size_eq
    rw [marked_give owned opened data (by omega), owned.metadata q' low]
    exact ite_self _

end Give

theorem Owned.same (owned : a.Owned sb) (opened : a.Opened sb i) (spares : Spares sb i a a')
    (own : a'.own (some i) = a.own (some i)) (format : a'.Formatted sb)
    (marks : ∀ q : Word, q.toNat < sb.size.toNat → a'.marked sb q = a.marked sb q) : a'.Owned sb := by
  have opened' := spares.alike.opened opened
  have held : ∀ w q, a'.holds sb w = some q ↔ a.holds sb w = some q := by
    rintro ⟨j, u⟩ q
    by_cases mine : j = (a.inode (some i)).inum
    · have here := opened'.holds_iff (q := q) (u := u)
      rw [spares.alike.inum, own] at here
      rw [mine, here, opened.holds_iff]
    · exact spares.holds_iff mine
  refine ⟨format, fun w q here => owned.data w q ((held w q).mp here), ?_, fun q data => ?_, fun q low => ?_⟩
  · exact owned.apart.drop fun w q here => (held w q).mp here
  · rw [marks q data.lt_size, owned.marks q data]
    exact exists_congr fun w => (held w q).symm
  · have order := owned.format.proper.order
    have size := owned.format.proper.size_eq
    rw [marks q (by omega), owned.metadata q low]

/-! ### Writing to a block of the file -/

section Store

variable (owned : a.Owned sb) (opened : a.Opened sb i)

include owned opened

theorem spares_store : Spares sb i a (a.write (a.own (some i) (.data bn)) d) := by
  refine .of_alike (.of_eq rfl) (fun j _ range => ?_) fun j w q' ne held => ?_
  · obtain ⟨positive, -, below⟩ := iblock_bounds range
    rw [block_write_of_ne (owned.low_ne opened (by omega) below)]
  · exact block_write_of_ne (owned.other_ne opened ne held)

theorem marked_store (inside : q'.toNat < sb.size.toNat) :
    (a.write (a.own (some i) (.data bn)) d).marked sb q' = a.marked sb q' := by
  have bounds := owned.format.proper.bblock_bounds inside
  have start := sb.mapStart_eq
  exact marked_write a (owned.low_ne opened (by omega) bounds.2)

variable (present : a.own (some i) (.data bn) ≠ 0)

include present

theorem own_store : (a.write (a.own (some i) (.data bn)) d).own (some i) = a.own (some i) := by
  apply own_write
  intro same
  have equal := owned.own_inj opened (v := .table) present same.symm
  cases equal

theorem owned_store : (a.write (a.own (some i) (.data bn)) d).Owned sb :=
  owned.same opened (spares_store owned opened) (own_store owned opened present)
    (owned.format.write (owned.own_data opened present).ne_one) fun _ => marked_store owned opened

end Store

/-! ### Writing the inode back -/

def resize (a : View) (i : Fin ninode) (size : Word) : View :=
  (a.setInode (some i) ((a.inode (some i)).withSize size)).write (iblock (a.inode (some i)).inum)
    (setDinode (a.block (iblock (a.inode (some i)).inum)) (a.inode (some i)).inum
      ((a.inode (some i)).withSize size).toDinode)

theorem block_resize {size : Word} (ne : q ≠ iblock (a.inode (some i)).inum) : (a.resize i size).block q = a.block q :=
  block_write_of_ne ne

theorem inode_resize {size : Word} : (a.resize i size).inode (some i) = (a.inode (some i)).withSize size :=
  inode_setInode_self

section Resize

variable (owned : a.Owned sb) (opened : a.Opened sb i) {size : Word}

include owned opened

theorem own_resize : (a.resize i size).own (some i) = a.own (some i) := by
  obtain ⟨positive, -, below⟩ := iblock_bounds opened.range
  unfold own
  rw [inode_resize]
  apply number_congr
  intro _
  exact block_resize (owned.low_ne opened (u := .table) (by omega) below).symm

theorem spares_resize : Spares sb i a (a.resize i size) := by
  obtain ⟨-, -, below⟩ := iblock_bounds opened.range
  refine .of_alike ⟨⟨_, _, inode_resize⟩, fun jp ne => inode_setInode_of_ne ne⟩ (fun j ne range => ?_) fun j w q ne held => ?_
  · by_cases same : iblock j = iblock (a.inode (some i)).inum
    · have sector : (a.resize i size).block (iblock j) = setDinode (a.block (iblock j)) (a.inode (some i)).inum
          ((a.inode (some i)).withSize size).toDinode := by
        rw [same]
        exact block_write_self
      rw [sector]
      apply dinodeAt_setDinode_of_ne
      intro slot
      change j.toNat % 8 = (a.inode (some i)).inum.toNat % 8 at slot
      have sectors := congrArg BitVec.toNat same
      rw [toNat_iblock, toNat_iblock] at sectors
      exact ne (BitVec.eq_of_toNat_eq (by omega))
    · rw [block_resize same]
  · apply block_resize
    rintro rfl
    exact absurd (owned.data _ _ held).1 (not_le_of_gt below)

theorem marked_resize (inside : q.toNat < sb.size.toNat) : (a.resize i size).marked sb q = a.marked sb q := by
  obtain ⟨-, before, -⟩ := iblock_bounds opened.range
  refine marked_write _ fun same => ?_
  have bounds := owned.format.proper.bblock_bounds inside
  rw [same] at bounds
  omega

theorem owned_resize : (a.resize i size).Owned sb := by
  obtain ⟨positive, -, -⟩ := iblock_bounds opened.range
  refine owned.same opened (spares_resize owned opened) (own_resize owned opened) ?_ fun q => marked_resize owned opened
  apply owned.format.setInode.write
  intro one
  rw [one] at positive
  exact absurd positive (by decide)

end Resize

end View

end Certikos.FileSys
