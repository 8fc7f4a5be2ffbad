import Certikos.FileSys.Changes
import Mathlib.Order.Interval.Finset.Nat

/-!
# Writing to a file

`inode_write` copies its source piece by piece, a block at a time, and sets the size of the file if it has become
longer.
-/

namespace Certikos.FileSys
open Lib
open BitVec (ofNat lt_def toNat_ofNat)
open Fs (nbuf Block rootdev logsize)
open View (Bmaps Changed)

variable {p : Nat} {a a₁ a' : View} {sb : Superblock} {watch : Note → Bool} {E : Cut Stop Note → Prop} {W : Set Word}
  {ip : Slot} {i : Fin ninode} {P : Finset Part} {q : Word} {src : List Byte}

namespace View

def piece (off n : Nat) : Nat := min n (bsize - off % bsize)

theorem piece_le (off n : Nat) : piece off n ≤ n := Nat.min_le_left ..

variable {n off : Nat}

theorem piece_pos (off : Nat) (some : 0 < n) : 0 < piece off n := by
  have small := Nat.mod_lt off (show 0 < bsize by decide)
  exact Nat.lt_min.mpr ⟨some, by omega⟩

theorem piece_within (off n : Nat) : off % bsize + piece off n ≤ bsize := by
  have small := Nat.mod_lt off (show 0 < bsize by decide)
  have le : piece off n ≤ bsize - off % bsize := Nat.min_le_right ..
  omega

def copied (a : View) (q : Word) (off : Nat) (src : List Byte) : View :=
  a.write q (setBytes (a.block q) (off % bsize) (src.take (piece off src.length)))

inductive Writes (sb : Superblock) (W : Set Word) (ip : Slot) : Nat → List Byte → View → View → Prop
  | done {off : Nat} {a : View} : Writes sb W ip off [] a a
  | piece {off : Nat} {src : List Byte} {q : Word} {a a₁ a' : View} (more : src ≠ [])
      (maps : Bmaps sb W ip (off / bsize) a q a₁) (mine : q ∈ W)
      (rest : Writes sb W ip (off + View.piece off src.length) (src.drop (View.piece off src.length))
        (a₁.copied q off src) a') : Writes sb W ip off src a a'

namespace Writes

variable {off : Nat}

theorem logged (writes : Writes sb W ip off src a a') : a.logged <+: a'.logged := by
  induction writes with
  | done => exact List.prefix_refl _
  | piece _ maps _ _ ih => exact (maps.logged.trans (logged_write ..)).trans ih

theorem rest (writes : Writes sb W ip off src a a') : a'.trans = a.trans ∧ a'.size = a.size := by
  induction writes with
  | done => exact ⟨rfl, rfl⟩
  | piece _ maps _ _ ih => exact ⟨ih.1.trans maps.rest.1, ih.2.trans maps.rest.2⟩

end Writes

/-! ## The blocks that are written -/

def parts (off n : Nat) : Finset Part := (Finset.Ico off (off + n)).biUnion fun k => blockParts (k / bsize)

theorem mem_parts {u : Part} : u ∈ parts off n ↔ ∃ k, (off ≤ k ∧ k < off + n) ∧ u ∈ blockParts (k / bsize) := by
  rw [parts, Finset.mem_biUnion]
  simp only [Finset.mem_Ico]

theorem data_mem_parts {bn : Nat} : Part.data bn ∈ parts off n ↔ ∃ k, (off ≤ k ∧ k < off + n) ∧ k / bsize = bn := by
  rw [mem_parts]
  refine exists_congr fun k => and_congr_right fun _ => ?_
  unfold blockParts
  split <;> simp [eq_comm]

theorem parts_subset {off' n' : Nat} (start : off ≤ off') (end' : off' + n' ≤ off + n) : parts off' n' ⊆ parts off n := by
  intro u member
  obtain ⟨k, ⟨above, below⟩, part⟩ := mem_parts.mp member
  exact mem_parts.mpr ⟨k, ⟨by omega, by omega⟩, part⟩

theorem blockParts_subset (off : Nat) (some : 0 < n) : blockParts (off / bsize) ⊆ parts off n := by
  intro u member
  exact mem_parts.mpr ⟨off, ⟨le_rfl, by omega⟩, member⟩

theorem parts_drop :
    parts (off + piece off src.length) (src.drop (piece off src.length)).length ⊆ parts off src.length := by
  have le := piece_le off src.length
  rw [List.length_drop]
  exact parts_subset (Nat.le_add_right ..) (by omega)

theorem missing_mono {P' : Finset Part} (sub : P ⊆ P') : a.missing i P ⊆ a.missing i P' := Finset.filter_subset_filter _ sub

section Piece

variable {off : Nat} (owned : a.Owned sb) (opened : a.Opened sb i) (maps : Bmaps sb W (some i) (off / bsize) a q a₁)
  (inside : parts off src.length ⊆ P) (more : src ≠ [])

include owned opened maps inside more

theorem Bmaps.changed_copied : Changed sb i P a (a₁.copied q off src) := by
  have first := (blockParts_subset off (List.length_pos_iff.mpr more)).trans inside
  obtain ⟨changed, here⟩ := maps.changed owned opened first
  have present : a₁.own (some i) (.data (off / bsize)) ≠ 0 := here.trans_ne maps.isData.ne_zero
  have stored : Changed sb i P a₁ (a₁.write (a₁.own (some i) (.data (off / bsize)))
      (setBytes (a₁.block q) (off % bsize) (src.take (piece off src.length)))) :=
    .store changed.owned changed.opened (first data_mem_blockParts) present
  rw [here] at stored
  exact changed.trans stored

end Piece

theorem Writes.changed (writes : Writes sb W (some i) off src a a') (owned : a.Owned sb) (opened : a.Opened sb i)
    (inside : parts off src.length ⊆ P) : Changed sb i P a a' := by
  induction writes with
  | done => exact .refl owned opened
  | piece more maps _ _ ih =>
    have first := maps.changed_copied owned opened inside more
    exact first.trans (ih first.owned first.opened (parts_drop.trans inside))

theorem exists_writes (owned : a.Owned sb) (opened : a.Opened sb i) (writable : a.Writable sb i ⊆ W)
    (range : off + src.length ≤ maxfile * bsize) (inside : parts off src.length ⊆ P)
    (room : (a.missing i P).card ≤ (a.freeBlocks sb).card) : ∃ a', Writes sb W (some i) off src a a' := by
  -- by induction on what is left to write
  induction left : src.length using Nat.strong_induction_on generalizing off src a with
  | _ n ih =>
    by_cases none : src = []
    · subst none
      exact ⟨a, .done⟩
    have some := List.length_pos_iff.mpr none
    have first := (blockParts_subset off some).trans inside
    have index : off / bsize < maxfile := by
      change off + src.length ≤ 140 * 512 at range
      show off / 512 < 140
      omega
    have enough := (Finset.card_le_card (missing_mono (a := a) (i := i) first)).trans room
    obtain ⟨q, a₁, maps⟩ := exists_bmaps owned opened writable index enough
    have changed := maps.changed_copied owned opened inside none
    have space := changed.space
    have positive := piece_pos off some
    have le := piece_le off src.length
    have length : (src.drop (piece off src.length)).length = src.length - piece off src.length := List.length_drop
    obtain ⟨after, here⟩ := maps.changed owned opened first
    have mine : q ∈ W := (after.writable.trans writable) (.inr (.inr (.inl ⟨_, here, maps.isData.ne_zero⟩)))
    obtain ⟨a', rest⟩ := ih _ (by omega) changed.owned changed.opened (changed.writable.trans writable) (by omega)
      (parts_drop.trans inside) (by omega) rfl
    exact ⟨a', .piece none maps mine rest⟩

end View

open View (Writes)

theorem Allows.before_writes {off : Nat} (allows : Allows watch E W a') (writes : Writes sb W ip off src a a') :
    Allows watch E W a := allows.before writes.logged writes.rest.1.symm writes.rest.2.symm

section Code

variable (terms : Terms watch E p)

include terms

variable {off : Word} {fuel : Nat}

theorem inodeWriteLoop_piece {Q : Word → State → Prop} (maps : Bmaps sb W ip (off.toNat / bsize) a q a₁)
    (mine : q ∈ W) (more : src ≠ []) (format : a.Formatted sb) (dev : (a.inode ip).dev = rootdev)
    (allows : Allows watch E W (a₁.copied q off.toNat src))
    (rest : (inodeWriteLoop ip fuel (off + ofNat 32 (View.piece off.toNat src.length))
      (src.drop (View.piece off.toNat src.length))).Acts watch E p (Sees p [] (a₁.copied q off.toNat src)) Q) :
    (inodeWriteLoop ip (fuel + 1) off src).Acts watch E p (Sees p [] a) Q := by
  have after : Allows watch E W a₁ := allows.before (View.logged_write ..) rfl rfl
  have format₁ := maps.format format
  have dev₁ : (a₁.inode ip).dev = rootdev := by
    obtain ⟨⟨addrs, same⟩, -⟩ := maps.inode
    rw [same]
    exact dev
  have first := bmap_maps terms format dev (show Bmaps sb W ip (blockIndex off).toNat a q a₁ from maps) after
  unfold inodeWriteLoop
  rw [if_neg more]
  refine does_value first ?_
  refine learn_inodes fun t inodes => ?_
  rw [inodes, dev₁]
  exact .bind (bufcacheRead_sees terms (format₁.home maps.isData.2) (by simp) (after.read (by simp))) fun bp =>
    .seq (modifyData_sees (.head _)) <| .seq (logEdited_sees terms (by simp) after mine) <|
    .seq (release_sees terms (by simp)) rest

omit terms in
theorem toNat_add_piece (small : off.toNat + src.length < 2 ^ 32) :
    (off + ofNat 32 (View.piece off.toNat src.length)).toNat = off.toNat + View.piece off.toNat src.length := by
  have le := View.piece_le off.toNat src.length
  rw [BitVec.toNat_add, toNat_ofNat, Nat.mod_eq_of_lt (show View.piece _ _ < 2 ^ 32 by omega),
    Nat.mod_eq_of_lt (by omega)]

theorem inodeWriteLoop_writes (writes : Writes sb W ip off.toNat src a a') (format : a.Formatted sb)
    (dev : (a.inode ip).dev = rootdev) (enough : src.length ≤ fuel) (small : off.toNat + src.length < 2 ^ 32)
    (allows : Allows watch E W a') :
    (inodeWriteLoop ip fuel off src).Acts watch E p (Sees p [] a) fun r t =>
      r.toNat = off.toNat + src.length ∧ Sees p [] a' t := by
  induction fuel generalizing off src a with
  | zero =>
    obtain rfl := List.length_eq_zero_iff.mp (Nat.le_zero.mp enough)
    cases writes with
    | done => exact .pure fun _ sees => ⟨rfl, sees⟩
    | piece more => exact absurd rfl more
  | succ fuel ih =>
    cases writes with
    | done => exact .pure fun _ sees => ⟨rfl, sees⟩
    | @piece _ _ q _ a₁ _ more maps mine rest =>
      have positive := View.piece_pos off.toNat (List.length_pos_iff.mpr more)
      have le := View.piece_le off.toNat src.length
      have left : (src.drop (View.piece off.toNat src.length)).length = src.length - View.piece off.toNat src.length :=
        List.length_drop
      have moved := toNat_add_piece small
      have dev₁ : ((a₁.copied q off.toNat src).inode ip).dev = rootdev := by
        obtain ⟨⟨addrs, same⟩, -⟩ := maps.inode
        show (a₁.inode ip).dev = _
        rw [same]
        exact dev
      rw [← moved] at rest
      refine inodeWriteLoop_piece terms maps mine more format dev (allows.before_writes rest) ?_
      refine (ih rest ((maps.format format).write maps.isData.ne_one) dev₁ (by omega) (by omega)).weaken
        fun r t both => ⟨?_, both.2⟩
      rw [both.1, moved]
      omega

theorem resize_sees {size : Word} (home : a.Home (iblock (a.inode (some i)).inum))
    (root : (a.inode (some i)).dev = rootdev) (allows : Allows watch E W a) (mine : iblock (a.inode (some i)).inum ∈ W) :
    (do modifyInode (some i) fun x => { x with size := size }
        inodeUpdate (some i)).Acts watch E p (Sees p [] a) fun _ => Sees p [] (a.resize i size) := by
  have dev : ((a.inode (some i)).withSize size).dev = rootdev := root
  have after : Allows watch E W (a.setInode (some i) ((a.inode (some i)).withSize size)) :=
    allows.before (List.prefix_refl _) rfl rfl
  refine .seq (Q := fun _ => Sees p [] (a.setInode (some i) ((a.inode (some i)).withSize size))) modifyInode_sees
    <| .learn (C := fun s => s.inode (some i) = (a.inode (some i)).withSize size)
    (fun s sees => by rw [sees.inode_eq, View.inode_setInode_self]) fun t here => ?_
  rw [here, dev]
  refine .bind (bufcacheRead_sees terms (a := a.setInode (some i) _) home (by simp) (after.read (by simp))) fun bp =>
    .learn (C := fun s => s.inode (some i) = (a.inode (some i)).withSize size)
      (fun s sees => by rw [sees.inode_eq, View.inode_setInode_self]) fun t here => ?_
  rw [here]
  exact .seq (modifyData_sees (.head _)) <| .seq (logEdited_sees terms (by simp) after mine) <|
    release_sees terms (by simp)

end Code

/-! ## `inode_write` -/

def Refused (x : Inode) (off : Word) (n : Nat) : Prop :=
  x.size.toNat < off.toNat ∨ 2 ^ 32 ≤ off.toNat + n ∨ maxfile * bsize < off.toNat + n
deriving Decidable

def View.extend (a : View) (i : Fin ninode) (n : Nat) : View :=
  if (a.inode (some i)).size.toNat < n then a.resize i (ofNat 32 n) else a

section Conditions

variable {x : Inode} {off : Word} {n : Nat}

theorem refused_iff (short : n < 2 ^ 32) : Refused x off n ↔ (x.size < off ∨ off + ofNat 32 n < off) ∨
    ofNat 32 (maxfile * bsize) < off + ofNat 32 n := by
  have count : (ofNat 32 n).toNat = n := by
    rw [toNat_ofNat, Nat.mod_eq_of_lt short]
  have limit : (ofNat 32 (maxfile * bsize)).toNat = 71680 := by decide
  unfold Refused
  rw [lt_def, lt_def, lt_def, BitVec.toNat_add, count, limit, show maxfile * bsize = 71680 from rfl]
  omega

end Conditions

section Call

variable (terms : Terms watch E p) {off : Word}

include terms

theorem inodeWrite_writes (writes : Writes sb W (some i) off.toNat src a a') (format : a.Formatted sb)
    (opened : a.Opened sb i) (changed : Changed sb i P a a') (file : (a.inode (some i)).type ≠ tDev)
    (short : src.length < 2 ^ 32) (accepted : ¬Refused (a.inode (some i)) off src.length) (allows : Allows watch E W a')
    (mine : iblock (a.inode (some i)).inum ∈ W) :
    (inodeWrite (some i) src off).Acts watch E p (Sees p [] a) fun r t =>
      r = true ∧ Sees p [] (a'.extend i (off.toNat + src.length)) t := by
  have small : ¬2 ^ 32 ≤ off.toNat + src.length := fun large => accepted (.inr (.inl large))
  have start : ¬(a.inode (some i)).size.toNat < off.toNat := fun beyond => accepted (.inl beyond)
  rw [refused_iff short, not_or] at accepted
  refine learn_inodes fun t inodes => ?_
  rw [inodes, if_neg file, if_neg accepted.1, if_neg accepted.2]
  refine .bind (inodeWriteLoop_writes terms writes format opened.dev le_rfl (by omega) allows) fun r => ?_
  intro s both
  obtain ⟨here, sees⟩ := both
  have value : r = ofNat 32 (off.toNat + src.length) := by
    apply BitVec.eq_of_toNat_eq
    rw [here, toNat_ofNat, Nat.mod_eq_of_lt (by omega)]
  have count : (ofNat 32 src.length).toNat = src.length := by
    rw [toNat_ofNat, Nat.mod_eq_of_lt short]
  refine Code.Does.learn (P := Sees p [] a') (C := fun s => s.inode = a'.inode) (fun s sees => sees.inode_eq)
    (fun t inodes => ?_) s sees
  rw [inodes]
  refine .seq (Q := fun _ => Sees p [] (a'.extend i (off.toNat + src.length)))
    (.ite (fun grows => ?_) fun stays => .pure fun _ sees => ?_) <| .pure fun _ sees => ⟨rfl, sees⟩
  · have less : (a'.inode (some i)).size.toNat < off.toNat + src.length := by
      rw [← here]
      exact grows.2
    rw [View.extend, if_pos less, ← value]
    have home := changed.owned.format.home_iblock changed.opened.range
    exact resize_sees terms home changed.opened.dev allows (changed.spares.alike.inum ▸ mine)
  · have least : ¬(a'.inode (some i)).size.toNat < off.toNat + src.length := by
      rw [← here]
      intro less
      refine stays ⟨?_, less⟩
      rw [changed.size, here] at less
      rw [lt_def, count]
      show 0 < src.length
      omega
    rw [View.extend, if_neg least]
    exact sees

omit terms in
theorem inodeWrite_refuses (file : (a.inode ip).type ≠ tDev) (short : src.length < 2 ^ 32)
    (refused : Refused (a.inode ip) off src.length) :
    (inodeWrite ip src off).Acts watch E p (Sees p [] a) fun r t => r = false ∧ Sees p [] a t := by
  rw [refused_iff short] at refused
  refine learn_inodes fun t inodes => ?_
  rw [inodes, if_neg file]
  refine .ite (fun _ => .pure fun _ sees => ⟨rfl, sees⟩) fun start => ?_
  rw [if_pos (refused.resolve_left start)]
  exact .pure fun _ sees => ⟨rfl, sees⟩

omit terms in
theorem inodeWrite_device (device : (a.inode ip).type = tDev) (wild : E (.stops .wildAccess)) :
    (inodeWrite ip src off).Acts watch E p (Sees p [] a) fun r t => r = false ∧ Sees p [] a t := by
  refine learn_inodes fun t inodes => ?_
  rw [inodes, if_pos device]
  exact .both (.pure fun _ sees => ⟨rfl, sees⟩) <| .stop fun _ _ => wild

end Call

end Certikos.FileSys
