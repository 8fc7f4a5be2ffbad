import Certikos.FileSys.Space

/-!
# Writing to a file alone

What `bmap` and `inode_write` do to what a process sees: which blocks they take, and what they write where. Both are
relations between views, as the free blocks decide which number a new block has.
-/

namespace Certikos.FileSys
open Lib Function
open Fs (nbuf Block rootdev logsize)

variable {p : Nat} {a a₁ a' : View} {sb : Superblock} {watch : Note → Bool} {E : Cut Stop Note → Prop} {W : Set Word}
  {ip : Slot} {q : Word} {bn : Nat}

def Inode.withAddrs (x : Inode) (addrs : Fin (ndirect + 1) → Word) : Inode := { x with addrs := addrs }

namespace View

def table (a : View) (ip : Slot) : Word := (a.inode ip).addrs (Fin.ofNat (ndirect + 1) ndirect)

def setAddr (a : View) (ip : Slot) (k : Fin (ndirect + 1)) (q : Word) : View :=
  a.setInode ip ((a.inode ip).withAddrs (update (a.inode ip).addrs k q))

@[simp]
theorem inode_setAddr {k : Fin (ndirect + 1)} :
    (a.setAddr ip k q).inode ip = (a.inode ip).withAddrs (update (a.inode ip).addrs k q) :=
  inode_setInode_self

theorem table_setAddr : (a.setAddr ip (Fin.ofNat (ndirect + 1) ndirect) q).table ip = q := by
  rw [table, inode_setAddr]
  exact update_self (Fin.ofNat (ndirect + 1) ndirect) q (a.inode ip).addrs

def setEntry (a : View) (t : Word) (j : Nat) (q : Word) : View :=
  a.write t (update (a.block t) (Fin.ofNat 128 j) q)

theorem Formatted.setInode {x : Inode} (format : a.Formatted sb) : (a.setInode ip x).Formatted sb :=
  ⟨format.proper, format.super, format.start, format.size⟩

structure Offers (a : View) (sb : Superblock) (W : Set Word) (q : Word) : Prop where
  lowest : a.Lowest sb q
  data : sb.IsData q
  mark : bblock q sb.ninodes ∈ W
  mine : q ∈ W

/-- `bmap` finds the block `q` for block `bn` of the file, taking free blocks for what is missing, and writes to `W` only. -/
inductive Bmaps (sb : Superblock) (W : Set Word) (ip : Slot) (bn : Nat) : View → Word → View → Prop
  | direct {a : View} (small : bn < ndirect) (data : sb.IsData ((a.inode ip).addrs (Fin.ofNat (ndirect + 1) bn))) :
      Bmaps sb W ip bn a ((a.inode ip).addrs (Fin.ofNat (ndirect + 1) bn)) a
  | newDirect {a : View} {q : Word} (small : bn < ndirect)
      (missing : (a.inode ip).addrs (Fin.ofNat (ndirect + 1) bn) = 0) (offers : a.Offers sb W q) :
      Bmaps sb W ip bn a q ((a.take sb q).setAddr ip (Fin.ofNat (ndirect + 1) bn) q)
  | entry {a : View} (large : ndirect ≤ bn) (range : bn < maxfile) (indirect : sb.IsData (a.table ip))
      (data : sb.IsData (a.block (a.table ip) (Fin.ofNat 128 (bn - ndirect)))) :
      Bmaps sb W ip bn a (a.block (a.table ip) (Fin.ofNat 128 (bn - ndirect))) a
  | newEntry {a : View} {q : Word} (large : ndirect ≤ bn) (range : bn < maxfile) (indirect : sb.IsData (a.table ip))
      (missing : a.block (a.table ip) (Fin.ofNat 128 (bn - ndirect)) = 0) (offers : a.Offers sb W q)
      (other : a.table ip ≠ q) (mine : a.table ip ∈ W) :
      Bmaps sb W ip bn a q ((a.take sb q).setEntry (a.table ip) (bn - ndirect) q)
  | newTable {a a' : View} {t q : Word} (large : ndirect ≤ bn) (missing : a.table ip = 0) (offers : a.Offers sb W t)
      (rest : Bmaps sb W ip bn ((a.take sb t).setAddr ip (Fin.ofNat (ndirect + 1) ndirect) t) q a') :
      Bmaps sb W ip bn a q a'

end View

open View (Bmaps)

theorem Superblock.IsData.one_lt (data : sb.IsData q) : 1 < q.toNat := by
  have above := data.1
  rw [dataStart_eq, mapStart_eq] at above
  omega

theorem Superblock.IsData.ne_zero (data : sb.IsData q) : q ≠ 0 := by
  rintro rfl
  exact absurd data.one_lt (by decide)

theorem Superblock.IsData.ne_one (data : sb.IsData q) : q ≠ 1 := by
  rintro rfl
  exact absurd data.one_lt (by decide)

namespace View.Bmaps

variable (maps : Bmaps sb W ip bn a q a')
include maps

theorem isData : sb.IsData q := by
  induction maps with
  | direct _ data => exact data
  | newDirect _ _ offers => exact offers.data
  | entry _ _ _ data => exact data
  | newEntry _ _ _ _ offers => exact offers.data
  | newTable _ _ _ _ ih => exact ih

theorem range : bn < maxfile := by
  induction maps with
  | direct small => exact lt_of_lt_of_le small (by decide)
  | newDirect small => exact lt_of_lt_of_le small (by decide)
  | entry _ range => exact range
  | newEntry _ range => exact range
  | newTable _ _ _ _ ih => exact ih

theorem logged : a.logged <+: a'.logged := by
  induction maps with
  | direct => exact List.prefix_refl _
  | newDirect => exact logged_take ..
  | entry => exact List.prefix_refl _
  | newEntry => exact (logged_take ..).trans (logged_write ..)
  | newTable _ _ _ _ ih => exact (logged_take _ _ _).trans ih

theorem inode : (∃ addrs, a'.inode ip = (a.inode ip).withAddrs addrs) ∧ ∀ jp, jp ≠ ip → a'.inode jp = a.inode jp := by
  induction maps with
  | direct => exact ⟨⟨_, rfl⟩, fun _ _ => rfl⟩
  | newDirect => exact ⟨⟨_, inode_setInode_self⟩, fun _ ne => inode_setInode_of_ne ne⟩
  | entry => exact ⟨⟨_, rfl⟩, fun _ _ => rfl⟩
  | newEntry => exact ⟨⟨_, rfl⟩, fun _ _ => rfl⟩
  | newTable _ _ _ _ ih =>
    obtain ⟨⟨addrs, same⟩, others⟩ := ih
    rw [inode_setAddr] at same
    exact ⟨⟨addrs, same⟩, fun jp ne => (others jp ne).trans (inode_setInode_of_ne ne)⟩

theorem rest : a'.trans = a.trans ∧ a'.size = a.size := by
  induction maps with
  | direct => exact ⟨rfl, rfl⟩
  | newDirect => exact ⟨rfl, rfl⟩
  | entry => exact ⟨rfl, rfl⟩
  | newEntry => exact ⟨rfl, rfl⟩
  | newTable _ _ _ _ ih => exact ih

theorem format (format : a.Formatted sb) : a'.Formatted sb := by
  induction maps with
  | direct => exact format
  | newDirect _ _ offers => exact (format.take format.proper offers.data.lt_size offers.data.1).setInode
  | entry => exact format
  | newEntry _ _ indirect _ offers =>
    exact (format.take format.proper offers.data.lt_size offers.data.1).write indirect.ne_one
  | newTable _ _ offers _ ih => exact ih (format.take format.proper offers.data.lt_size offers.data.1).setInode

end View.Bmaps

theorem Allows.before_bmaps (allows : Allows watch E W a') (maps : Bmaps sb W ip bn a q a') : Allows watch E W a :=
  allows.before maps.logged maps.rest.1.symm maps.rest.2.symm

/-! ## `bmap` -/

def bmapEntry (ip : Slot) (bn : Word) : KernM Word := do
  let s ← Code.get
  let bp ← bufcacheRead (s.inode ip).dev ((s.inode ip).addrs (Fin.ofNat (ndirect + 1) ndirect))
  let s ← Code.get
  if (s.buf bp).data (Fin.ofNat 128 (bn.toNat - ndirect)) = 0 then do
    Code.note (.hole ip bn)
    let addr ← blockAlloc (s.inode ip).dev
    modifyData bp (update · (Fin.ofNat 128 (bn.toNat - ndirect)) addr)
    logWrite bp
    bufcacheRelease bp
    pure addr
  else do
    bufcacheRelease bp
    pure ((s.buf bp).data (Fin.ofNat 128 (bn.toNat - ndirect)))

section Bmap

variable (terms : Terms watch E p) (format : a.Formatted sb) (dev : (a.inode ip).dev = rootdev) {bn : Word}

include terms format dev

theorem bmapEntry_sees (maps : Bmaps sb W ip bn.toNat a q a') (large : ndirect ≤ bn.toNat) (present : a.table ip ≠ 0)
    (allows : Allows watch E W a') :
    (bmapEntry ip bn).Acts watch E p (Sees p [] a) fun r t => r = q ∧ Sees p [] a' t := by
  have before := allows.before_bmaps maps
  refine learn_inodes fun t inodes => ?_
  rw [inodes, dev, show (a.inode ip).addrs (Fin.ofNat (ndirect + 1) ndirect) = a.table ip from rfl]
  cases maps with
  | direct small => exact absurd small (not_lt_of_ge large)
  | newDirect small => exact absurd small (not_lt_of_ge large)
  | newTable _ missing => exact absurd missing present
  | entry _ _ indirect data =>
    refine .bind (bufcacheRead_sees terms (format.home indirect.2) (by simp) (before.read (by simp))) fun bp => ?_
    refine .learn (C := fun s => (s.buf bp).data = a.block (a.table ip)) (fun s sees => sees.block_eq) fun t same => ?_
    rw [same, if_neg data.ne_zero]
    exact .seq (release_sees terms (by simp)) <| .pure fun _ sees => ⟨rfl, sees⟩
  | newEntry _ _ indirect missing offers other mine =>
    refine .bind (bufcacheRead_sees terms (format.home indirect.2) (by simp) (before.read (by simp))) fun bp => ?_
    refine .learn (C := fun s => (s.buf bp).data = a.block (a.table ip) ∧ s.inode = a.inode)
      (fun s sees => ⟨sees.block_eq, sees.inode_eq⟩) fun t both => ?_
    rw [both.1, both.2, if_pos missing, dev]
    have aside : Aside sb q [(bp, a.table ip)] := by
      refine ⟨Nat.le_refl 1, fun k member => ?_⟩
      rw [List.mem_singleton.mp member]
      exact ⟨indirect.1, other⟩
    have taken : Allows watch E W (a.take sb q) := allows.before (View.logged_write ..) rfl rfl
    exact .noted (allows.hole ip bn) fun _ => does_value (blockAlloc_sees terms format offers.lowest offers.data.2 aside
      (taken.before (View.logged_write ..) rfl rfl) offers.mark offers.mine) <|
      .seq (modifyData_sees (.head _)) <|
      .seq (logEdited_sees terms (by simp) taken mine) <| .seq (release_sees terms (by simp)) <|
      .pure fun _ sees => ⟨rfl, sees⟩

theorem bmap_maps (maps : Bmaps sb W ip bn.toNat a q a') (allows : Allows watch E W a') :
    (bmap ip bn).Acts watch E p (Sees p [] a) fun r t => r = q ∧ Sees p [] a' t := by
  have range := maps.range
  refine learn_inodes fun t inodes => ?_
  rw [inodes, dev]
  by_cases direct : bn.toNat < ndirect
  · rw [if_pos direct]
    cases maps with
    | direct _ data =>
      rw [if_neg data.ne_zero]
      exact .pure fun _ sees => ⟨rfl, sees⟩
    | newDirect _ missing offers =>
      have taken : Allows watch E W (a.take sb q) := allows.before (List.prefix_refl _) rfl rfl
      rw [if_pos missing]
      exact .noted (allows.hole ip bn) fun _ => does_value (blockAlloc_sees terms format offers.lowest offers.data.2
        aside_nil (taken.before (View.logged_write ..) rfl rfl) offers.mark offers.mine) <|
        .seq modifyInode_sees <| .pure fun _ sees => ⟨rfl, sees⟩
    | entry large => exact absurd direct (not_lt_of_ge large)
    | newEntry large => exact absurd direct (not_lt_of_ge large)
    | newTable large => exact absurd direct (not_lt_of_ge large)
  · have large := not_lt.mp direct
    have indirect : bn.toNat - ndirect < nindirect := by
      change bn.toNat < 12 + 128 at range
      show bn.toNat - 12 < 128
      omega
    rw [if_neg direct, if_pos indirect]
    dsimp only
    rw [show (a.inode ip).addrs (Fin.ofNat (ndirect + 1) ndirect) = a.table ip from rfl]
    by_cases missing : a.table ip = 0
    · rw [if_pos missing]
      cases maps with
      | direct small => exact absurd small direct
      | newDirect small => exact absurd small direct
      | entry _ _ indirect => exact absurd missing indirect.ne_zero
      | newEntry _ _ indirect => exact absurd missing indirect.ne_zero
      | @newTable _ _ t _ _ _ offers rest =>
        have format₁ : ((a.take sb t).setAddr ip (Fin.ofNat (ndirect + 1) ndirect) t).Formatted sb :=
          (format.take format.proper offers.data.lt_size offers.data.1).setInode
        have dev₁ : (((a.take sb t).setAddr ip (Fin.ofNat (ndirect + 1) ndirect) t).inode ip).dev = rootdev := by
          rw [View.inode_setAddr]
          exact dev
        have present : ((a.take sb t).setAddr ip (Fin.ofNat (ndirect + 1) ndirect) t).table ip ≠ 0 :=
          View.table_setAddr.trans_ne offers.data.ne_zero
        have taken : Allows watch E W (a.take sb t) :=
          (allows.before_bmaps rest).before (List.prefix_refl _) rfl rfl
        refine .seq (Q := fun _ => Sees p [] ((a.take sb t).setAddr ip (Fin.ofNat (ndirect + 1) ndirect) t)) ?_
          <| bmapEntry_sees terms format₁ dev₁ rest large present allows
        exact .noted (allows.hole ip bn) fun _ => does_value (blockAlloc_sees terms format offers.lowest offers.data.2
          aside_nil (taken.before (View.logged_write ..) rfl rfl) offers.mark offers.mine)
          modifyInode_sees
    · rw [if_neg missing]
      exact .seq (.same) <| bmapEntry_sees terms format dev maps large missing allows

end Bmap

end Certikos.FileSys
