import Certikos.FileSys.Arrays

/-!
# Running out of blocks

When no data block is free, `block_alloc` returns a block of the log, or ends without a return statement. As long as
there are enough free blocks, `inode_write` touches nothing but the blocks of its file and free ones.
-/

namespace Certikos.FileSys
open Lib
open Fs (nbuf Block rootdev logsize)
open View (Bmaps Changed Writes)

variable {p : Nat} {H : List (Fin nbuf × Word)} {a a₁ a' : View} {sb : Superblock} {watch : Note → Bool}
  {E : Cut Stop Note → Prop} {i : Fin ninode} {P : Finset Part} {q : Word} {src : List Byte}

/-- What must not be heard of: that a sector is logged or allocated which is neither the file's nor free, or that
`block_alloc` ends without a result. -/
def View.Strays (a : View) (sb : Superblock) (i : Fin ninode) : Note → Prop
  | .logWrite q => q ∉ a.Writable sb i
  | .blockAlloc (some q) => q ∉ a.Writable sb i
  | .blockAlloc none => True
  | _ => False

theorem View.Strays.rare {w : Note} (strays : a.Strays sb i w) : w.rare = true := by
  cases w with
  | logWrite => rfl
  | blockAlloc => rfl
  | _ => exact strays.elim

open Classical in
noncomputable def View.guard (a : View) (sb : Superblock) (i : Fin ninode) (w : Note) : Bool := a.Strays sb i w

theorem View.guard_eq_true {w : Note} : a.guard sb i w = true ↔ a.Strays sb i w :=
  @decide_eq_true_iff _ (Classical.propDecidable _)

def View.StoredIn (a a' : View) (sb : Superblock) (i : Fin ninode) (off : Nat) (src : List Byte) : Prop :=
  ∀ k, off ≤ k → k < off + src.length → a'.fileByte i k = src.getD (k - off) 0 ∧
    (a.own (some i) (.data (k / bsize)) ≠ 0 ∧
        a'.own (some i) (.data (k / bsize)) = a.own (some i) (.data (k / bsize)) ∨
      a.own (some i) (.data (k / bsize)) = 0 ∧ sb.IsData (a'.own (some i) (.data (k / bsize))) ∧
        a.marked sb (a'.own (some i) (.data (k / bsize))) = false)

def Contained (p : Nat) (s : State) (a : View) (sb : Superblock) (i : Fin ninode) (src : List Byte) (off : Word) : Prop :=
  match (inodeWrite (some i) src off).alone (watched (a.guard sb i)) p s with
  | .ok (r, t) => r = true → ∃ a', Sees p [] a' t ∧ a'.Owned sb ∧ a.StoredIn a' sb i off.toNat src
  | .error (.notes _) => False
  | .error _ => True

/-! ## With enough blocks -/

theorem View.Writes.storedIn {W : Set Word} {off : Nat} (writes : Writes sb W (some i) off src a a') (owned : a.Owned sb)
    (opened : a.Opened sb i) : a.StoredIn a' sb i off src := by
  have changed := writes.changed owned opened (Finset.Subset.refl _)
  intro k above below
  refine ⟨(writes.fileByte_eq owned opened).1 above below, ?_⟩
  have present := (writes.stores owned opened above below).1
  by_cases before : a.own (some i) (.data (k / bsize)) = 0
  · exact .inr ⟨before, changed.owned.own_data changed.opened present, (changed.fresh _ before present).2⟩
  · exact .inl ⟨before, changed.keeps _ before⟩

def Silent : Cut Stop Note → Prop
  | .notes _ => False
  | _ => True

theorem silent_terms : Terms (a.guard sb i) Silent p :=
  ⟨fun _ watched => (View.guard_eq_true.mp watched).rare, .inr trivial⟩

theorem silent_allows : Allows (a.guard sb i) Silent (a.Writable sb i) a' where
  inside := .inr trivial
  room := .inr trivial
  fits := .inr fun _ _ => trivial
  logged := fun _ mine watched => View.guard_eq_true.mp watched mine
  hole := fun _ _ watched => View.guard_eq_true.mp watched
  found := fun _ mine watched => View.guard_eq_true.mp watched mine

variable {off : Word} {s : State}

theorem Contained.of_gives
    (gives : ((inodeWrite (some i) src off) p s).Gives (watched (a.guard sb i)) Silent p fun r t =>
      r = true → ∃ a', Sees p [] a' t ∧ a'.Owned sb ∧ a.StoredIn a' sb i off.toNat src) :
    Contained p s a sb i src off := by
  unfold Contained
  unfold Turn.Gives at gives
  rw [Code.alone]
  cases result : (inodeWrite (some i) src off p s).alone (watched (a.guard sb i)) p with
  | ok r =>
    rw [result] at gives
    exact gives
  | error e =>
    rw [result] at gives
    cases e with
    | notes => exact gives
    | _ => trivial

def View.Suffices (a : View) (sb : Superblock) (i : Fin ninode) (off : Word) (n : Nat) : Prop :=
  (a.inode (some i)).type = tDev ∨ Refused (a.inode (some i)) off n ∨
    (a.missing i (View.parts off.toNat n)).card ≤ (a.freeBlocks sb).card

theorem View.Suffices.contained (suffices' : a.Suffices sb i off src.length)
    (sees : Sees p [] a s) (owned : a.Owned sb) (opened : a.Opened sb i) (short : src.length < 2 ^ 32) :
    Contained p s a sb i src off := by
  apply Contained.of_gives
  by_cases device : (a.inode (some i)).type = tDev
  · refine (inodeWrite_device device trivial s sees).mono (fun r t both yes => ?_) fun _ ended => ended
    exact absurd (both.1.symm.trans yes) Bool.false_ne_true
  by_cases refused : Refused (a.inode (some i)) off src.length
  · refine (inodeWrite_refuses device short refused s sees).mono (fun r t both yes => ?_) fun _ ended => ended
    exact absurd (both.1.symm.trans yes) Bool.false_ne_true
  have enough := (suffices'.resolve_left device).resolve_left refused
  have range : off.toNat + src.length ≤ maxfile * bsize := not_lt.mp fun beyond => refused (.inr (.inr beyond))
  obtain ⟨a', writes⟩ := View.exists_writes owned opened (Set.Subset.refl _) range (Finset.Subset.refl _) enough
  have changed := writes.changed owned opened (Finset.Subset.refl _)
  refine (inodeWrite_writes silent_terms writes owned.format opened changed device short refused silent_allows
    (.inr (.inl rfl)) s sees).mono (fun r t both _ => ?_) fun _ ended => ended
  refine ⟨_, both.2, View.owned_extend changed.owned changed.opened, fun k above below => ?_⟩
  rw [View.fileByte_extend changed.owned changed.opened, View.own_extend changed.owned changed.opened]
  exact writes.storedIn owned opened k above below

/-! ## Without -/

def Heard (a : View) (sb : Superblock) (i : Fin ninode) : Cut Stop Note → Prop
  | .notes w => a.Strays sb i w
  | _ => False

theorem View.Owned.not_writable (owned : a.Owned sb) (opened : a.Opened sb i) (free : a.marked sb q = false)
    (other : ¬sb.IsData q) : q ∉ a.Writable sb i := by
  have above : sb.dataStart ≤ q.toNat := by
    refine not_lt.mp fun low => ?_
    have taken := owned.metadata q low
    rw [free] at taken
    cases taken
  rintro (⟨-, map⟩ | rfl | ⟨u, rfl, present⟩ | ⟨data, -⟩)
  · omega
  · obtain ⟨-, -, below⟩ := View.iblock_bounds opened.range
    omega
  · exact other (owned.own_data opened present)
  · exact other data

section Exhausted

variable {a₀ : View} (terms : Terms (a₀.guard sb i) (Heard a₀ sb i) p) (owned₀ : a₀.Owned sb) (opened₀ : a₀.Opened sb i)
  (allows : ∀ a', Changed sb i P a₀ a' → Allows (a₀.guard sb i) (Heard a₀ sb i) (a₀.Writable sb i) a')

include terms owned₀ opened₀ allows

theorem blockAlloc_strays (changed : Changed sb i P a₀ a) (none : (a.freeBlocks sb).card = 0)
    (aside : H.length ≤ 1 ∧ ∀ k ∈ H, sb.IsData k.2) :
    (blockAlloc rootdev).Does (watched (a₀.guard sb i)) (Heard a₀ sb i) p (Sees p H a) fun _ _ => False := by
  have format := changed.owned.format
  have room := allows a changed
  by_cases full : a.Full sb
  · refine (blockAlloc_full terms format full (fun k member => (aside.2 k member).1) (fun _ => trivial)
      (room.read (by omega))).weaken fun r t ended => ?_
    have watched : a₀.guard sb i (.blockAlloc .none) = true := View.guard_eq_true.mpr trivial
    exact absurd (watched.symm.trans ended.1) (by decide)
  · simp only [View.Full, not_forall] at full
    obtain ⟨q, inside, clear⟩ := full
    obtain ⟨q, lowest, -⟩ := View.exists_lowest inside (by simpa using clear)
    have other : ¬sb.IsData q := by
      intro data
      have member := View.mem_freeBlocks.mpr ⟨data, lowest.free⟩
      rw [Finset.card_eq_zero.mp none] at member
      cases member
    have before : a₀.marked sb q = false := by
      cases marked : a₀.marked sb q with
      | false => rfl
      | true => exact absurd (changed.marks q lowest.inside marked) (by rw [lowest.free]; decide)
    have strays : a₀.Strays sb i (.blockAlloc (some q)) := owned₀.not_writable opened₀ before other
    refine blockAlloc_reaches terms format lowest ⟨aside.1, fun k member => ?_⟩ room
      (.inl (format.proper.bblock_bounds lowest.inside)) (fun _ => strays) fun unwatched => ?_
    · exact ⟨(aside.2 k member).1, fun same => other (same ▸ aside.2 k member)⟩
    · exact absurd (View.guard_eq_true.mpr strays) (by rw [unwatched]; decide)

theorem bmapEntry_strays (changed : Changed sb i P a₀ a) {bn : Word} (large : ndirect ≤ bn.toNat)
    (range : bn.toNat < maxfile) (present : a.table (some i) ≠ 0)
    (few : (a.freeBlocks sb).card < (a.missing i (View.blockParts bn.toNat)).card) :
    (bmapEntry (some i) bn).Does (watched (a₀.guard sb i)) (Heard a₀ sb i) p (Sees p [] a) fun _ _ => False := by
  have room := allows a changed
  have dev := changed.opened.dev
  have table : a.own (some i) .table ≠ 0 := present
  have indirect : sb.IsData (a.table (some i)) := changed.owned.own_data changed.opened table
  have part : View.blockParts bn.toNat = {.data bn.toNat, .table} := if_neg (not_lt_of_ge large)
  -- what is missing is the entry, and nothing is free
  have missing : a.own (some i) (.data bn.toNat) = 0 ∧ (a.freeBlocks sb).card = 0 := by
    rw [part, View.missing, Finset.filter_insert, Finset.filter_singleton, if_neg table] at few
    split at few
    next none =>
      refine ⟨none, ?_⟩
      simpa using few
    next => exact absurd few (by simp)
  have entry := missing.1
  rw [View.own_indirect large range present] at entry
  refine learn_inodes fun t inodes => ?_
  rw [inodes, dev, show (a.inode (some i)).addrs (Fin.ofNat (ndirect + 1) ndirect) = a.table (some i) from rfl]
  refine .bind (bufcacheRead_sees terms (changed.owned.format.home indirect.2) (by simp) (room.read (by simp)))
    fun bp => ?_
  refine .learn (C := fun s => (s.buf bp).data = a.block (a.table (some i)) ∧ s.inode = a.inode)
    (fun s sees => ⟨sees.block_eq, sees.inode_eq⟩) fun t both => ?_
  rw [both.1, both.2, if_pos entry, dev]
  refine .noted (room.hole (some i) bn) fun _ => .never (blockAlloc_strays terms owned₀ opened₀ allows changed missing.2
    ⟨Nat.le_refl 1, fun k member => ?_⟩)
  rw [List.mem_singleton.mp member]
  exact indirect

theorem bmap_strays (changed : Changed sb i P a₀ a) {bn : Word} (range : bn.toNat < maxfile)
    (inside : View.blockParts bn.toNat ⊆ P)
    (few : (a.freeBlocks sb).card < (a.missing i (View.blockParts bn.toNat)).card) :
    (bmap (some i) bn).Does (watched (a₀.guard sb i)) (Heard a₀ sb i) p (Sees p [] a) fun _ _ => False := by
  have room := allows a changed
  have dev := changed.opened.dev
  refine learn_inodes fun t inodes => ?_
  rw [inodes, dev]
  by_cases direct : bn.toNat < ndirect
  · have part : View.blockParts bn.toNat = {.data bn.toNat} := if_pos direct
    have missing : a.own (some i) (.data bn.toNat) = 0 ∧ (a.freeBlocks sb).card = 0 := by
      rw [part, View.missing, Finset.filter_singleton] at few
      split at few
      next none =>
        refine ⟨none, ?_⟩
        simpa using few
      next => exact absurd few (by simp)
    have none := missing.1
    rw [View.own_direct direct] at none
    rw [if_pos direct]
    rw [if_pos none]
    exact .noted (room.hole (some i) bn) fun _ => .never (blockAlloc_strays terms owned₀ opened₀ allows changed missing.2
      ⟨Nat.zero_le _, by simp⟩)
  · have large := not_lt.mp direct
    have indirect : bn.toNat - ndirect < nindirect := by
      change bn.toNat < 12 + 128 at range
      show bn.toNat - 12 < 128
      omega
    rw [if_neg direct, if_pos indirect]
    dsimp only
    rw [show (a.inode (some i)).addrs (Fin.ofNat (ndirect + 1) ndirect) = a.table (some i) from rfl]
    by_cases none : a.table (some i) = 0
    · rw [if_pos none]
      by_cases empty : (a.freeBlocks sb).card = 0
      · exact .never (.noted (room.hole (some i) bn) fun _ => .never (blockAlloc_strays terms owned₀ opened₀ allows changed
          empty ⟨Nat.zero_le _, by simp⟩))
      · obtain ⟨t, offers⟩ := changed.owned.offers (changed.writable (P := P)) (Nat.pos_of_ne_zero empty)
        have first : Changed sb i P a (a.give sb i t .table) := .give (u := .table) changed.owned changed.opened trivial none
          offers.data offers.lowest.free (inside (View.table_mem_blockParts large)) (by simp)
        have same : Changed sb i (View.blockParts bn.toNat) a (a.give sb i t .table) := .give (u := .table) changed.owned
          changed.opened trivial none offers.data offers.lowest.free (View.table_mem_blockParts large) (by simp)
        have space := same.space
        have taken : Allows (a₀.guard sb i) (Heard a₀ sb i) (a₀.Writable sb i) (a.take sb t) :=
          (allows _ (changed.trans first)).before (List.prefix_refl _) rfl rfl
        refine .seq (Q := fun _ => Sees p [] (a.give sb i t .table)) ?_ <| bmapEntry_strays terms owned₀ opened₀
          allows (changed.trans first) large range (View.table_setAddr.trans_ne offers.data.ne_zero) (by omega)
        exact .noted (room.hole (some i) bn) fun _ => does_value (blockAlloc_sees terms changed.owned.format offers.lowest
          offers.data.2 aside_nil (taken.before (View.logged_write ..) rfl rfl) offers.mark offers.mine) modifyInode_sees
    · rw [if_neg none]
      exact .seq (.same) <| bmapEntry_strays terms owned₀ opened₀ allows changed large range none few

omit terms owned₀ opened₀ allows in
theorem View.missing_copied {W : Set Word} {off : Nat} (maps : Bmaps sb W (some i) (off / bsize) a q a₁)
    (owned : a.Owned sb) (opened : a.Opened sb i) (src : List Byte) :
    (a₁.copied q off src).missing i (View.parts off src.length) ⊆ (a₁.copied q off src).missing i
      (View.parts (off + View.piece off src.length) (src.drop (View.piece off src.length)).length) := by
  obtain ⟨same, here⟩ := View.own_copied owned opened maps src
  have present : (a₁.copied q off src).own (some i) (.data (off / bsize)) ≠ 0 := by
    rw [same, here]
    exact maps.isData.ne_zero
  intro u member
  obtain ⟨part, none⟩ := Finset.mem_filter.mp member
  obtain ⟨k, ⟨above, below⟩, block⟩ := View.mem_parts.mp part
  refine Finset.mem_filter.mpr ⟨View.mem_parts.mpr ⟨k, ⟨?_, ?_⟩, block⟩, none⟩
  · refine not_lt.mp fun first => ?_
    rw [(View.piece_place above first).1] at block
    unfold View.blockParts at block
    split at block
    next =>
      rw [Finset.mem_singleton.mp block] at none
      exact present none
    next large =>
      rcases Finset.mem_insert.mp block with rfl | table
      · exact present none
      · rw [Finset.mem_singleton.mp table] at none
        exact (View.reaches_of_own present).2 (not_lt.mp large) none
  · rw [List.length_drop]
    omega

theorem inodeWriteLoop_strays {fuel : Nat} (changed : Changed sb i P a₀ a)
    (inside : View.parts off.toNat src.length ⊆ P) (range : off.toNat + src.length ≤ maxfile * bsize)
    (enough : src.length ≤ fuel)
    (few : (a.freeBlocks sb).card < (a.missing i (View.parts off.toNat src.length)).card) :
    (inodeWriteLoop (some i) fuel off src).Does (watched (a₀.guard sb i)) (Heard a₀ sb i) p (Sees p [] a)
      fun _ _ => False := by
  have more : src ≠ [] := by
    rintro rfl
    simp [View.parts, View.missing] at few
  induction fuel generalizing off src a with
  | zero => exact absurd (List.length_eq_zero_iff.mp (Nat.le_zero.mp enough)) more
  | succ fuel ih =>
    have positive := List.length_pos_iff.mpr more
    have index : (blockIndex off).toNat < maxfile := by
      change off.toNat + src.length ≤ 71680 at range
      show off.toNat / 512 < 140
      omega
    have first := View.blockParts_subset off.toNat positive
    by_cases room : (a.missing i (View.blockParts (blockIndex off).toNat)).card ≤ (a.freeBlocks sb).card
    · obtain ⟨q, a₁, maps⟩ := View.exists_bmaps changed.owned changed.opened changed.writable index room
      obtain ⟨after, here⟩ := maps.changed changed.owned changed.opened (Finset.Subset.refl _)
      have mine : q ∈ a₀.Writable sb i :=
        (after.writable.trans changed.writable) (.inr (.inr (.inl ⟨_, here, maps.isData.ne_zero⟩)))
      have stored := maps.changed_copied changed.owned changed.opened inside more
      have space := (maps.changed_copied changed.owned changed.opened (Finset.Subset.refl _) more).space
      have count := Finset.card_le_card (View.missing_copied maps changed.owned changed.opened src)
      have moved := toNat_add_piece (lt_of_le_of_lt range (by decide : maxfile * bsize < 2 ^ 32))
      have le := View.piece_le off.toNat src.length
      have advances := View.piece_pos off.toNat positive
      have left : (src.drop (View.piece off.toNat src.length)).length = src.length - View.piece off.toNat src.length :=
        List.length_drop
      rw [← moved] at count
      have few' := lt_of_lt_of_le (show ((a₁.copied q off.toNat src).freeBlocks sb).card < _ by omega) count
      refine inodeWriteLoop_piece terms maps mine more changed.owned.format changed.opened.dev
        (allows _ (changed.trans stored)) (ih (changed.trans stored) ?_ (by omega) (by omega) few' ?_)
      · rw [moved]
        exact View.parts_drop.trans inside
      · intro none
        rw [none] at few'
        simp [View.parts, View.missing] at few'
    · unfold inodeWriteLoop
      rw [if_neg more]
      exact .never (bmap_strays terms owned₀ opened₀ allows changed index (first.trans inside) (not_le.mp room))

omit owned₀ opened₀ in
theorem inodeWrite_strays (owned : a₀.Owned sb) (opened : a₀.Opened sb i)
    (inside : View.parts off.toNat src.length ⊆ P) (file : (a₀.inode (some i)).type ≠ tDev) (short : src.length < 2 ^ 32)
    (accepted : ¬Refused (a₀.inode (some i)) off src.length)
    (few : (a₀.freeBlocks sb).card < (a₀.missing i (View.parts off.toNat src.length)).card) :
    (inodeWrite (some i) src off).Does (watched (a₀.guard sb i)) (Heard a₀ sb i) p (Sees p [] a₀) fun _ _ => False := by
  have range : off.toNat + src.length ≤ maxfile * bsize :=
    not_lt.mp fun beyond => accepted (.inr (.inr beyond))
  rw [refused_iff short, not_or] at accepted
  refine learn_inodes fun t inodes => ?_
  rw [inodes, if_neg file, if_neg accepted.1, if_neg accepted.2]
  exact .never (inodeWriteLoop_strays terms owned opened allows (.refl owned opened) inside range le_rfl few)

end Exhausted

theorem View.Suffices.of_contained (low : 1 ≤ p) (high : p < numIds) (sees : Sees p [] a s)
    (owned : a.Owned sb) (opened : a.Opened sb i) (short : src.length < 2 ^ 32)
    (room : a.Room (View.sectorCount sb (View.parts off.toNat src.length) + 1))
    (contained : Contained p s a sb i src off) : a.Suffices sb i off src.length := by
  by_contra lacks
  obtain ⟨file, rest⟩ := not_or.mp lacks
  obtain ⟨accepted, few⟩ := not_or.mp rest
  have terms : Terms (a.guard sb i) (Heard a sb i) p :=
    ⟨fun _ watched => (View.guard_eq_true.mp watched).rare, .inl ⟨low, high⟩⟩
  obtain ⟨e, failed, heard⟩ := (inodeWrite_strays terms (fun a' changed => room.allows sees.nodup owned
    (fun _ watched => View.guard_eq_true.mp watched) changed) owned opened (Finset.Subset.refl _) file short accepted
    (not_le.mp few) s sees).fails
  unfold Contained at contained
  rw [Code.alone, failed] at contained
  cases e with
  | notes => exact contained
  | _ => exact heard

/-- `inode_write` keeps to the blocks of its file and to free ones if there are enough of these; and, in a transaction
with room in the log, only then. -/
theorem inodeWrite_contained_iff {p : Nat} (low : 1 ≤ p) (high : p < numIds) {a : View} {s : State} {sb : Superblock}
    {i : Fin ninode} (sees : Sees p [] a s) (owned : a.Owned sb) (opened : a.Opened sb i) (off : Word) (src : List Byte)
    (short : src.length < 2 ^ 32) :
    (a.Suffices sb i off src.length → Contained p s a sb i src off) ∧
      (a.Room (View.sectorCount sb (View.parts off.toNat src.length) + 1) →
        (Contained p s a sb i src off ↔ a.Suffices sb i off src.length)) := by
  have enough : a.Suffices sb i off src.length → Contained p s a sb i src off :=
    fun enough => enough.contained sees owned opened short
  exact ⟨enough, fun room => ⟨.of_contained low high sees owned opened short room, enough⟩⟩

namespace OneFile

theorem empty_contained : Contained 1 (empty.view true 0 fun _ => 0).state (empty.view true 0 fun _ => 0) empty.super 0
    [1, 2, 3] 0 := by
  refine (inodeWrite_contained_iff (p := 1) (by decide) (by decide) (sees 1) owned opened 0 [1, 2, 3] (by decide)).1
    (.inr (.inr ?_))
  rw [missing rfl, Finset.card_empty]
  · exact Nat.zero_le _
  · intro bn member
    obtain ⟨k, ⟨-, below⟩, rfl⟩ := View.data_mem_parts.mp member
    change k < 0 + 3 at below
    show k / 512 < 140
    omega

end OneFile

/-! ## What is recorded instead -/

theorem bmap_misled (terms : Terms (fun _ => false) (fun _ => False) p) (format : a.Formatted sb) (full : a.Full sb)
    (logged : a.logged = []) (opened : a.Opened sb i) (direct : (a.inode (some i)).addrs 0 = 0)
    (sees : Sees p [] a s) : ∃ t, (bmap (some i) 0).alone world p s = .ok (a.eax 0, t) ∧
      (t.inode (some i)).addrs 0 = a.eax 0 := by
  have gives : (bmap (some i) 0).Does world (fun _ => False) p (Sees p [] a) fun r t =>
      r = a.eax 0 ∧ (t.inode (some i)).addrs 0 = a.eax 0 := by
    refine learn_inodes fun t inodes => ?_
    rw [inodes, opened.dev, if_pos (by decide)]
    rw [show Fin.ofNat (ndirect + 1) (0 : Word).toNat = 0 from rfl, if_pos direct]
    refine .noted nofun fun _ => does_value ((blockAlloc_full terms format full (by simp) nofun (.inl ?_)).weaken
      fun r t ended => ended.2) (.seq modifyInode_sees <| .pure fun t sees => ⟨rfl, ?_⟩)
    · rw [logged]
      decide
    · rw [sees.inode_eq, View.inode_setInode_self]
      exact Function.update_self 0 (a.eax 0) (a.inode (some i)).addrs
  obtain ⟨_, t, returned, rfl, recorded⟩ := (gives s sees).returns
  exact ⟨t, returned, recorded⟩

namespace OneFile

def crammed : Volume := ⟨false, tFile, 0, fun _ => 0, tFile_ne_zero⟩

theorem crammed_full : (crammed.view true 0 fun _ => 1).Full crammed.super :=
  fun q inside => marked q (lt_trans inside (by decide))

theorem crammed_not_contained : Sees 1 [] (crammed.view true 0 fun _ => 1) (crammed.view true 0 fun _ => 1).state ∧
    (crammed.view true 0 fun _ => 1).Owned crammed.super ∧ (crammed.view true 0 fun _ => 1).Opened crammed.super 0 ∧
    ¬Contained 1 (crammed.view true 0 fun _ => 1).state (crammed.view true 0 fun _ => 1) crammed.super 0 [7] 0 ∧
    ∃ t, (bmap (some 0) 0).alone world 1 (crammed.view true 0 fun _ => 1).state = .ok (1, t) ∧
      (t.inode (some 0)).addrs 0 = 1 := by
  have recorded := bmap_misled (a := crammed.view true 0 fun _ => 1) (i := 0) ⟨nofun, .inl (by decide)⟩ formatted
    crammed_full rfl opened (by rw [inode_view]; rfl) (sees 1)
  refine ⟨sees 1, owned, opened, fun contained => ?_, recorded⟩
  have parts : View.parts 0 1 = {.data 0} := by decide
  have missing : (crammed.view true 0 fun _ => 1).missing 0 (View.parts 0 1) = {.data 0} := by
    rw [parts, View.missing, Finset.filter_singleton, if_pos]
    rw [own]
    rfl
  have free : (crammed.view true 0 fun _ => 1).freeBlocks crammed.super = ∅ :=
    Finset.filter_eq_empty_iff.mpr fun n below both => absurd both.1 (not_le_of_gt (Finset.mem_range.mp below))
  have room : (crammed.view true 0 fun _ => 1).Room
      (View.sectorCount crammed.super (View.parts (0 : Word).toNat [(7 : Byte)].length) + 1) := by
    refine ⟨rfl, ?_⟩
    show 0 + (View.sectorCount crammed.super (View.parts 0 1) + 1) < 9
    rw [parts]
    decide
  rcases View.Suffices.of_contained (by decide) (by decide) (sees 1) owned opened (by decide) room contained with
    device | refused | enough
  · rw [inode_view] at device
    exact absurd device (by decide)
  · rw [inode_view] at refused
    exact absurd refused (by decide)
  · rw [free, show View.parts (0 : Word).toNat [(7 : Byte)].length = View.parts 0 1 from rfl, missing] at enough
    exact absurd enough (by decide)

end OneFile

end Certikos.FileSys
