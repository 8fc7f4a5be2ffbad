import Certikos.FileSys.Ownership
import Mathlib.Data.Finset.Union

/-!
# How a file changes

While a file is written to, it gets blocks that were free and keeps those it has. Each block that it gets is one that it
needs, so what it needs and what is free decrease together.
-/

namespace Certikos.FileSys
open Lib Function
open Fs (nbuf Block rootdev logsize)

variable {a a' a'' : View} {sb : Superblock} {W : Set Word} {i : Fin ninode} {P : Finset Part} {q : Word} {d : Block}
  {bn : Nat}

namespace View

def missing (a : View) (i : Fin ninode) (P : Finset Part) : Finset Part := P.filter fun u => a.own (some i) u = 0

def Writable (a : View) (sb : Superblock) (i : Fin ninode) : Set Word := fun q =>
  sb.mapStart ≤ q.toNat ∧ q.toNat < sb.dataStart ∨ q = iblock (a.inode (some i)).inum ∨
    (∃ u, a.own (some i) u = q ∧ q ≠ 0) ∨ sb.IsData q ∧ a.marked sb q = false

section SetPart

variable {ip : Slot} {u : Part}

theorem frame_setPart : a.setPart ip q u =
    { a with block := (a.setPart ip q u).block, logged := (a.setPart ip q u).logged, inode := (a.setPart ip q u).inode } :=
  setPart_induct (fun v => v = { a with block := v.block, logged := v.logged, inode := v.inode }) (fun _ => rfl)
    fun _ _ _ => rfl

theorem size_setPart : ((a.setPart ip q u).inode ip).size = (a.inode ip).size := by
  apply setPart_induct fun v => (v.inode ip).size = (a.inode ip).size
  · intro k
    rw [inode_setAddr]
    rfl
  · exact fun _ _ _ => rfl

theorem logged_setPart (a : View) (ip : Slot) (q : Word) (u : Part) : (a.setPart ip q u).logged = a.logged ∨
    ∃ bn d, u = .data bn ∧ ndirect ≤ bn ∧ (a.setPart ip q u).logged = (a.write (a.table ip) d).logged := by
  apply setPart_induct fun v => v.logged = a.logged ∨
    ∃ bn d, u = .data bn ∧ ndirect ≤ bn ∧ v.logged = (a.write (a.table ip) d).logged
  · exact fun _ => .inl rfl
  · exact fun bn here large => .inr ⟨bn, _, here, large, rfl⟩

end SetPart

theorem freeBlocks_congr (proper : sb.Proper)
    (same : ∀ q : Word, q.toNat < sb.size.toNat → a'.marked sb q = a.marked sb q) : a'.freeBlocks sb = a.freeBlocks sb := by
  have size := proper.size_eq
  refine Finset.filter_congr fun n member => ?_
  have lt := Finset.mem_range.mp member
  rw [same]
  rw [BitVec.toNat_ofNat, Nat.mod_eq_of_lt (by omega)]
  omega

structure Logs (S : Word → Prop) (a a' : View) : Prop where
  longer : a.logged <+: a'.logged
  nodup : a.logged.Nodup → a'.logged.Nodup
  logged : ∀ q ∈ a'.logged, q ∈ a.logged ∨ S q

namespace Logs

variable {S S' : Word → Prop}

theorem of_eq (same : a'.logged = a.logged) : Logs S a a' := by
  refine ⟨?_, ?_, ?_⟩
  · rw [same]
  · rw [same]
    exact id
  · rw [same]
    exact fun q => .inl

theorem write (mine : S q) : Logs S a (a.write q d) := by
  refine ⟨logged_write .., nodup_write, fun q' member => ?_⟩
  rcases mem_write.mp member with rfl | before
  · exact .inr mine
  · exact .inl before

theorem trans (first : Logs S a a') (second : Logs S a' a'') : Logs S a a'' := by
  refine ⟨first.longer.trans second.longer, fun apart => second.nodup (first.nodup apart), fun q member => ?_⟩
  exact (second.logged q member).elim (first.logged q) .inr

theorem mono (logs : Logs S a a') (weaker : ∀ q, S q → S' q) : Logs S' a a' :=
  ⟨logs.longer, logs.nodup, fun q member => (logs.logged q member).imp_right (weaker q)⟩

theorem length_le (logs : Logs S a a') (apart : a.logged.Nodup) (F : Finset Word) (all : ∀ q, S q → q ∈ F) :
    a'.logged.length ≤ a.logged.length + F.card := by
  have sub : a'.logged.toFinset ⊆ a.logged.toFinset ∪ F := by
    intro q member
    rw [Finset.mem_union, List.mem_toFinset]
    exact (logs.logged q (List.mem_toFinset.mp member)).imp_right (all q)
  calc a'.logged.length = a'.logged.toFinset.card := (List.toFinset_card_of_nodup (logs.nodup apart)).symm
    _ ≤ (a.logged.toFinset ∪ F).card := Finset.card_le_card sub
    _ ≤ a.logged.toFinset.card + F.card := Finset.card_union_le ..
    _ = a.logged.length + F.card := by rw [List.toFinset_card_of_nodup apart]

end Logs

def Sector (a : View) (sb : Superblock) (i : Fin ninode) (P : Finset Part) (q : Word) : Prop :=
  sb.mapStart ≤ q.toNat ∧ q.toNat < sb.dataStart ∨ ∃ u ∈ P, a.own (some i) u = q ∧ q ≠ 0

def sectorCount (sb : Superblock) (P : Finset Part) : Nat := sb.size.toNat / bpb + 1 + P.card

def sectors (a : View) (sb : Superblock) (i : Fin ninode) (P : Finset Part) : Finset Word :=
  ((Finset.range (sb.size.toNat / bpb + 1)).image fun k => BitVec.ofNat 32 (sb.mapStart + k)) ∪ P.image (a.own (some i))

theorem Sector.mem_sectors (sector : a.Sector sb i P q) : q ∈ a.sectors sb i P := by
  rcases sector with ⟨above, below⟩ | ⟨u, member, rfl, -⟩
  · refine Finset.mem_union_left _ (Finset.mem_image.mpr ⟨q.toNat - sb.mapStart, Finset.mem_range.mpr ?_, ?_⟩)
    · unfold Superblock.dataStart at below
      omega
    · rw [Nat.add_sub_cancel' above, BitVec.ofNat_toNat, BitVec.setWidth_eq]
  · exact Finset.mem_union_right _ (Finset.mem_image_of_mem _ member)

theorem card_sectors : (a.sectors sb i P).card ≤ sectorCount sb P := by
  refine (Finset.card_union_le ..).trans (Nat.add_le_add ?_ Finset.card_image_le)
  exact Finset.card_image_le.trans (Finset.card_range _).le

structure Changed (sb : Superblock) (i : Fin ninode) (P : Finset Part) (a a' : View) : Prop where
  spares : Spares sb i a a'
  owned : a'.Owned sb
  opened : a'.Opened sb i
  frame : a' = { a with block := a'.block, logged := a'.logged, inode := a'.inode }
  size : (a'.inode (some i)).size = (a.inode (some i)).size
  keeps : ∀ u, a.own (some i) u ≠ 0 → a'.own (some i) u = a.own (some i) u
  fresh : ∀ u, a.own (some i) u = 0 → a'.own (some i) u ≠ 0 → u ∈ P ∧ a.marked sb (a'.own (some i) u) = false
  marks : ∀ q : Word, q.toNat < sb.size.toNat → a.marked sb q = true → a'.marked sb q = true
  space : (a'.missing i P).card + (a.freeBlocks sb).card = (a.missing i P).card + (a'.freeBlocks sb).card
  logs : Logs (a'.Sector sb i P) a a'

namespace Changed

theorem refl (owned : a.Owned sb) (opened : a.Opened sb i) : Changed sb i P a a where
  spares := .refl
  owned := owned
  opened := opened
  frame := rfl
  size := rfl
  keeps := fun _ _ => rfl
  fresh := fun _ none some => absurd none some
  marks := fun _ _ marked => marked
  space := rfl
  logs := .of_eq rfl

theorem trans (first : Changed sb i P a a') (second : Changed sb i P a' a'') : Changed sb i P a a'' where
  spares := first.spares.trans second.spares
  owned := second.owned
  opened := second.opened
  frame := by rw [second.frame, first.frame]
  size := second.size.trans first.size
  keeps := by
    intro u present
    have middle := first.keeps u present
    rw [second.keeps u (middle.trans_ne present), middle]
  fresh := by
    intro u none some
    by_cases middle : a'.own (.some i) u = 0
    · obtain ⟨member, free⟩ := second.fresh u middle some
      refine ⟨member, Bool.eq_false_iff.mpr fun marked => ?_⟩
      have inside := (second.owned.own_data second.opened some).lt_size
      rw [first.marks _ inside marked] at free
      cases free
    · rw [second.keeps u middle]
      exact first.fresh u none middle
  marks := fun q inside marked => second.marks q inside (first.marks q inside marked)
  space := by
    have left := first.space
    have right := second.space
    omega
  logs := by
    refine (first.logs.mono fun q sector => ?_).trans second.logs
    rcases sector with map | ⟨u, part, rfl, present⟩
    · exact .inl map
    · exact .inr ⟨u, part, second.keeps u present, present⟩

theorem give (owned : a.Owned sb) (opened : a.Opened sb i) {u : Part} (reaches : a.Reaches (some i) u)
    (none : a.own (some i) u = 0) (data : sb.IsData q) (free : a.marked sb q = false) (member : u ∈ P)
    (closed : ∀ bn, u = .data bn → ndirect ≤ bn → Part.table ∈ P) : Changed sb i P a (a.give sb i q u) := by
  have own := own_give owned opened reaches none data free
  have marks := fun (q' : Word) (lt : q'.toNat < sb.size.toNat) => marked_give (u := u) owned opened data lt
  have spares := spares_give owned opened (u := u) data free
  have inside := data.lt_size
  refine ⟨spares, owned_give owned opened reaches none data free, spares.alike.opened opened, ?_, ?_, ?_, ?_, ?_, ?_, ?_⟩
  · exact frame_setPart.trans rfl
  · exact size_setPart
  · intro v present
    rw [own, update_of_ne]
    rintro rfl
    exact present none
  · intro v absent present
    rw [own] at present ⊢
    by_cases same : v = u
    · rw [same, update_self]
      exact ⟨member, free⟩
    · rw [update_of_ne same] at present
      exact absurd absent present
  · intro q' inside marked
    rw [marks q' inside, marked]
    exact ite_self _
  · have fewer : (a.give sb i q u).missing i P = (a.missing i P).erase u := by
      ext v
      rw [View.missing, own, Finset.mem_filter, View.missing, Finset.mem_erase, Finset.mem_filter]
      by_cases same : v = u
      · subst same
        rw [update_self]
        simp only [ne_eq, not_true_eq_false, false_and, iff_false, not_and]
        exact fun _ => data.ne_zero
      · simp [same]
    have taken : (a.give sb i q u).freeBlocks sb = (a.freeBlocks sb).erase q.toNat := by
      rw [← freeBlocks_take owned.format.proper inside data.1]
      refine freeBlocks_congr owned.format.proper fun q' inside' => ?_
      rw [marks q' inside', marked_take owned.format.proper inside data.1 inside']
    have needed : u ∈ a.missing i P := Finset.mem_filter.mpr ⟨member, none⟩
    have offered : q.toNat ∈ a.freeBlocks sb := mem_freeBlocks.mpr ⟨data, free⟩
    have left := Finset.card_erase_add_one needed
    have right := Finset.card_erase_add_one offered
    rw [fewer, taken]
    omega
  · have map : (a.give sb i q u).Sector sb i P (bblock q sb.ninodes) := .inl (owned.format.proper.bblock_bounds inside)
    have mine : (a.give sb i q u).Sector sb i P q := .inr ⟨u, member, by rw [own, update_self], data.ne_zero⟩
    have taken : Logs ((a.give sb i q u).Sector sb i P) a (a.take sb q) := (Logs.write map).trans (.write mine)
    rcases logged_setPart (a.take sb q) (some i) q u with same | ⟨bn, d, rfl, large, same⟩
    · exact taken.trans (.of_eq same)
    · have present : a.own (some i) .table ≠ 0 := reaches.2 large
      have table : (a.give sb i q (.data bn)).Sector sb i P (a.own (some i) .table) :=
        .inr ⟨.table, closed bn rfl large, by rw [own, update_of_ne (by simp)], present⟩
      exact taken.trans ((Logs.write table).trans (.of_eq same))

theorem store (owned : a.Owned sb) (opened : a.Opened sb i) (member : Part.data bn ∈ P)
    (present : a.own (some i) (.data bn) ≠ 0) : Changed sb i P a (a.write (a.own (some i) (.data bn)) d) := by
  have own := own_store (d := d) owned opened present
  have spares : Spares sb i a (a.write (a.own (some i) (.data bn)) d) := spares_store owned opened
  have marks : ∀ q' : Word, q'.toNat < sb.size.toNat →
      (a.write (a.own (some i) (.data bn)) d).marked sb q' = a.marked sb q' := fun _ => marked_store owned opened
  refine ⟨spares, owned_store owned opened present, spares.alike.opened opened, rfl, rfl, ?_, ?_, ?_, ?_, ?_⟩
  · intro u _
    rw [own]
  · intro u absent some
    rw [own] at some
    exact absurd absent some
  · intro q' inside marked
    rw [marks q' inside, marked]
  · rw [View.missing, own, freeBlocks_congr owned.format.proper marks]
    rfl
  · refine .write (.inr ⟨_, member, ?_, present⟩)
    rw [own]

theorem length_le (changed : Changed sb i P a a') (apart : a.logged.Nodup) :
    a'.logged.length ≤ a.logged.length + sectorCount sb P :=
  (changed.logs.length_le apart _ fun _ => Sector.mem_sectors).trans (Nat.add_le_add_left card_sectors _)

theorem writable (changed : Changed sb i P a a') : a'.Writable sb i ⊆ a.Writable sb i := by
  rintro q (map | inode | ⟨u, mine, present⟩ | ⟨data, free⟩)
  · exact .inl map
  · exact .inr (.inl (inode.trans (by rw [changed.spares.alike.inum])))
  · subst mine
    by_cases before : a.own (some i) u = 0
    · have data := changed.owned.own_data changed.opened present
      exact .inr (.inr (.inr ⟨data, (changed.fresh u before present).2⟩))
    · rw [changed.keeps u before]
      exact .inr (.inr (.inl ⟨u, rfl, before⟩))
  · refine .inr (.inr (.inr ⟨data, Bool.eq_false_iff.mpr fun marked => ?_⟩))
    rw [changed.marks q data.lt_size marked] at free
    cases free

end Changed

/-! ## What `bmap` changes -/

def blockParts (bn : Nat) : Finset Part := if bn < ndirect then {.data bn} else {.data bn, .table}

theorem data_mem_blockParts : Part.data bn ∈ blockParts bn := by
  unfold blockParts
  split <;> simp

theorem table_mem_blockParts (large : ndirect ≤ bn) : Part.table ∈ blockParts bn := by
  rw [blockParts, if_neg (not_lt_of_ge large)]
  simp

theorem Bmaps.changed (maps : Bmaps sb W (some i) bn a q a') (owned : a.Owned sb) (opened : a.Opened sb i)
    (parts : blockParts bn ⊆ P) : Changed sb i P a a' ∧ a'.own (some i) (.data bn) = q := by
  have member := parts data_mem_blockParts
  induction maps with
  | direct small => exact ⟨.refl owned opened, own_direct small⟩
  | @newDirect a q small none offers =>
    have absent : a.own (some i) (.data bn) = 0 := (own_direct small).trans none
    have reaches : a.Reaches (some i) (.data bn) :=
      ⟨lt_of_lt_of_le small (by decide), fun large => absurd small (not_lt_of_ge large)⟩
    have same : a.give sb i q (.data bn) = (a.take sb q).setAddr (some i) (Fin.ofNat (ndirect + 1) bn) q :=
      setPart_direct small
    rw [← same, own_give owned opened reaches absent offers.data offers.lowest.free, update_self]
    refine ⟨.give owned opened reaches absent offers.data offers.lowest.free member ?_, rfl⟩
    rintro _ ⟨⟩ large
    exact absurd small (not_lt_of_ge large)
  | entry large range indirect => exact ⟨.refl owned opened, own_indirect large range indirect.ne_zero⟩
  | @newEntry a q large range indirect none offers =>
    have absent : a.own (some i) (.data bn) = 0 := (own_indirect large range indirect.ne_zero).trans none
    have reaches : a.Reaches (some i) (.data bn) := ⟨range, fun _ => indirect.ne_zero⟩
    have same : a.give sb i q (.data bn) = (a.take sb q).setEntry (a.table (some i)) (bn - ndirect) q :=
      setPart_indirect large
    rw [← same, own_give owned opened reaches absent offers.data offers.lowest.free, update_self]
    refine ⟨.give owned opened reaches absent offers.data offers.lowest.free member fun _ _ _ => ?_, rfl⟩
    exact parts (table_mem_blockParts large)
  | newTable large none offers _ ih =>
    have first : Changed sb i P _ _ := .give (u := .table) owned opened trivial none offers.data offers.lowest.free
      (parts (table_mem_blockParts large)) nofun
    obtain ⟨rest, here⟩ := ih first.owned first.opened
    exact ⟨first.trans rest, here⟩

/-! ## That `bmap` finds a block -/

theorem Owned.offers (owned : a.Owned sb) (writable : a.Writable sb i ⊆ W) (some' : 0 < (a.freeBlocks sb).card) :
    ∃ q, a.Offers sb W q := by
  obtain ⟨n, member⟩ := Finset.card_pos.mp some'
  have size := owned.format.proper.size_eq
  have lt := Finset.mem_range.mp (Finset.mem_filter.mp member).1
  have toNat : (BitVec.ofNat 32 n).toNat = n := by
    rw [BitVec.toNat_ofNat, Nat.mod_eq_of_lt (by omega)]
  rw [← toNat] at member
  obtain ⟨data, free⟩ := mem_freeBlocks.mp member
  obtain ⟨q, lowest, data⟩ := exists_lowest_data owned.metadata data free
  exact ⟨q, lowest, data, writable (.inl (owned.format.proper.bblock_bounds data.lt_size)),
    writable (.inr (.inr (.inr ⟨data, lowest.free⟩)))⟩

theorem Owned.supplies {P : Finset Part} {u : Part} (owned : a.Owned sb) (writable : a.Writable sb i ⊆ W) (member : u ∈ P)
    (none : a.own (some i) u = 0) (room : (a.missing i P).card ≤ (a.freeBlocks sb).card) : ∃ q, a.Offers sb W q := by
  have needed : u ∈ a.missing i P := Finset.mem_filter.mpr ⟨member, none⟩
  exact owned.offers writable (lt_of_lt_of_le (Finset.card_pos.mpr ⟨_, needed⟩) room)

section Exists

variable (owned : a.Owned sb) (opened : a.Opened sb i) (writable : a.Writable sb i ⊆ W)

include owned opened writable

theorem exists_bmaps_direct (small : bn < ndirect) (room : (a.missing i (blockParts bn)).card ≤ (a.freeBlocks sb).card) :
    ∃ q a', Bmaps sb W (some i) bn a q a' := by
  by_cases none : a.own (some i) (.data bn) = 0
  · obtain ⟨q, offers⟩ := owned.supplies writable data_mem_blockParts none room
    rw [own_direct small] at none
    exact ⟨_, _, .newDirect small none offers⟩
  · have data := owned.own_data opened none
    rw [own_direct small] at data
    exact ⟨_, _, .direct small data⟩

theorem exists_bmaps_entry (large : ndirect ≤ bn) (range : bn < maxfile) (present : a.table (some i) ≠ 0)
    (room : (a.missing i (blockParts bn)).card ≤ (a.freeBlocks sb).card) : ∃ q a', Bmaps sb W (some i) bn a q a' := by
  have indirect : sb.IsData (a.table (some i)) := owned.own_data opened (u := .table) present
  have entry := own_indirect large range (show a.table (some i) ≠ 0 from present)
  by_cases none : a.own (some i) (.data bn) = 0
  · obtain ⟨q, offers⟩ := owned.supplies writable data_mem_blockParts none room
    rw [entry] at none
    exact ⟨_, _, .newEntry large range indirect none offers
      (owned.own_ne opened (u := .table) offers.data offers.lowest.free)
      (writable (.inr (.inr (.inl ⟨.table, rfl, present⟩))))⟩
  · have data := owned.own_data opened none
    rw [entry] at data
    exact ⟨_, _, .entry large range indirect data⟩

theorem exists_bmaps (range : bn < maxfile) (room : (a.missing i (blockParts bn)).card ≤ (a.freeBlocks sb).card) :
    ∃ q a', Bmaps sb W (some i) bn a q a' := by
  by_cases small : bn < ndirect
  · exact exists_bmaps_direct owned opened writable small room
  have large := not_lt.mp small
  by_cases none : a.table (some i) = 0
  · obtain ⟨t, offers⟩ := owned.supplies writable (table_mem_blockParts large) none room
    have first : Changed sb i (blockParts bn) a (a.give sb i t .table) :=
      .give (u := .table) owned opened trivial none offers.data offers.lowest.free (table_mem_blockParts large) nofun
    have space := first.space
    obtain ⟨q, a', rest⟩ := exists_bmaps_entry first.owned first.opened (first.writable.trans writable) large range
      (table_setAddr.trans_ne offers.data.ne_zero) (by omega)
    exact ⟨q, a', .newTable large none offers rest⟩
  · exact exists_bmaps_entry owned opened writable large range none room

end Exists

end View

end Certikos.FileSys
