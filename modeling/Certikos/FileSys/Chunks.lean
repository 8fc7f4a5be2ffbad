import Certikos.FileSys.Arrays
import Certikos.FileSys.Coherence

/-!
# Writing in chunks

`file_write` splits its data so that every piece fits in a transaction of its own. Together the pieces do what one call
of `inode_write` would do, up to the first piece that is refused.
-/

namespace Certikos.FileSys
open Lib Function
open BitVec (ofNat)
open Fs (nbuf Block rootdev logsize)
open View (Agree Alike Changed Written)

variable {p : Nat} {a a₁ a' : View} {sb : Superblock} {watch : Note → Bool} {E : Cut Stop Note → Prop}
  {i : Fin ninode} {f : Fin nfile} {P : Finset Part} {src src' : List Byte} {α : Type}

/-! ## One transaction -/

def writeThen (f : Fin nfile) (chunk : List Byte) (next : Bool → KernM α) : KernM α := do
  beginTrans
  let s ← Code.get
  let ip := (s.file f).ip
  inodeLock ip
  let s ← Code.get
  let written ← inodeWrite ip chunk (s.file f).off
  (if written = true then
    modifyFile f fun x => { x with off := x.off + ofNat 32 chunk.length }
  else pure ⟨⟩)
  inodeUnlock ip
  commitTrans
  next written

variable {data : List Byte}

theorem fileWriteLoop_succ {fuel : Nat} : fileWriteLoop f (fuel + 1) data =
    if data = [] then pure true
    else writeThen f (data.take maxChunk) fun written =>
      if written = true then fileWriteLoop f fuel (data.drop maxChunk) else pure false := rfl

def wholeWrite (f : Fin nfile) (data : List Byte) : KernM Bool := writeThen f data pure

namespace View

def begun (a : View) (i : Fin ninode) : View := { a with trans := true }.setBusy i true

def ended (a : View) (f : Fin nfile) (i : Fin ninode) (n : Nat) : View :=
  { (a.setFile f { a.file f with off := (a.file f).off + ofNat 32 n }).setBusy i false with
    logged := [], trans := false }

structure Ready (a : View) (sb : Superblock) (f : Fin nfile) (i : Fin ninode) : Prop where
  idle : a.trans = false
  logged : a.logged = []
  owned : a.Owned sb
  whole : a.NoHoles sb
  opened : a.Opened sb i
  free : (a.inode (some i)).busy = false
  ip : (a.file f).ip = some i

theorem agree_begun : Agree a (a.begun i) :=
  have first : Agree a { a with trans := true } := ⟨rfl, rfl, rfl, rfl⟩
  first.trans agree_setBusy

theorem inode_begun : (a.begun i).inode (some i) = { a.inode (some i) with busy := true } := inode_setBusy

theorem agree_ended {n : Nat} : Agree a (a.ended f i n) :=
  have file : Agree a (a.setFile f { a.file f with off := (a.file f).off + ofNat 32 n }) := ⟨rfl, rfl, rfl, rfl⟩
  (file.trans agree_setBusy).trans ⟨rfl, rfl, rfl, rfl⟩

theorem inode_ended {n : Nat} : (a.ended f i n).inode (some i) = { a.inode (some i) with busy := false } := inode_setBusy

theorem file_ended {n : Nat} : (a.ended f i n).file f = { a.file f with off := (a.file f).off + ofNat 32 n } :=
  update_self ..

theorem Ready.ended_begun (ready : a.Ready sb f i) : (a.begun i).ended f i 0 = a := by
  have inode : update (a.begun i).inode (some i) { (a.begun i).inode (some i) with busy := false } = a.inode := by
    rw [inode_begun]
    show update (update a.inode (some i) _) (some i) _ = _
    rw [update_idem]
    exact (congrArg (update a.inode (some i)) (by rw [← ready.free])).trans (update_eq_self ..)
  have file : update a.file f { a.file f with off := (a.file f).off + ofNat 32 0 } = a.file :=
    (congrArg (update a.file f) (by simp)).trans (update_eq_self ..)
  calc (a.begun i).ended f i 0
      = { a with
          logged := [], trans := false
          inode := update (a.begun i).inode (some i) { (a.begun i).inode (some i) with busy := false }
          file := update a.file f { a.file f with off := (a.file f).off + ofNat 32 0 } } := rfl
    _ = a := by rw [inode, file, ← ready.logged, ← ready.idle]

structure Stored (sb : Superblock) (f : Fin nfile) (i : Fin ninode) (src : List Byte) (a a' : View) : Prop where
  ready : a'.Ready sb f i
  alike : ∃ size addrs, a'.inode (some i) = { a.inode (some i) with size := size, addrs := addrs }
  file : a'.file f = { a.file f with off := (a.file f).off + ofNat 32 src.length }
  content : a'.content (a.inode (some i)).inum =
    splice (a.content (a.inode (some i)).inum) (a.file f).off.toNat src
  others : ∀ inum, inum ≠ (a.inode (some i)).inum → a.InUse sb inum →
    a'.InUse sb inum ∧ a'.content inum = a.content inum
  space : ∀ P, parts (a.file f).off.toNat src.length ⊆ P →
    (a'.missing i P).card + (a.freeBlocks sb).card = (a.missing i P).card + (a'.freeBlocks sb).card

theorem Stored.refl (ready : a.Ready sb f i) : Stored sb f i [] a a where
  ready := ready
  alike := ⟨_, _, rfl⟩
  file := by simp
  content := by simp
  others := fun _ _ used => ⟨used, rfl⟩
  space := fun _ _ => rfl

theorem Ready.length_content (ready : a.Ready sb f i) :
    (a.content (a.inode (some i)).inum).length = (a.inode (some i)).size.toNat := by
  rw [View.length_content, ready.opened.seen_eq]

theorem Stored.inum (stored : Stored sb f i src a a') : (a'.inode (some i)).inum = (a.inode (some i)).inum := by
  obtain ⟨size, addrs, entry⟩ := stored.alike
  rw [entry]

theorem Stored.off (stored : Stored sb f i src a a') (small : (a.file f).off.toNat + src.length < 2 ^ 32) :
    (a'.file f).off.toNat = (a.file f).off.toNat + src.length := by
  rw [stored.file]
  show ((a.file f).off + ofNat 32 src.length).toNat = _
  rw [BitVec.toNat_add, BitVec.toNat_ofNat, Nat.mod_eq_of_lt (show src.length < 2 ^ 32 by omega),
    Nat.mod_eq_of_lt (by omega)]

theorem Stored.size (stored : Stored sb f i src a a')
    (start : (a.file f).off.toNat ≤ (a.content (a.inode (some i)).inum).length) : (a'.inode (some i)).size.toNat =
      max (a.content (a.inode (some i)).inum).length ((a.file f).off.toNat + src.length) := by
  rw [← stored.ready.length_content, stored.inum, stored.content, length_splice start]

theorem Stored.trans (first : Stored sb f i src a a₁) (second : Stored sb f i src' a₁ a')
    (start : (a.file f).off.toNat ≤ (a.content (a.inode (some i)).inum).length)
    (small : (a.file f).off.toNat + (src ++ src').length < 2 ^ 32) : Stored sb f i (src ++ src') a a' := by
  obtain ⟨size, addrs, entry⟩ := first.alike
  obtain ⟨size', addrs', entry'⟩ := second.alike
  have inum := first.inum
  rw [List.length_append] at small
  have moved := first.off (by omega)
  refine ⟨second.ready, ⟨size', addrs', by rw [entry', entry]⟩, ?_, ?_, fun j ne used => ?_, fun P sub => ?_⟩
  · rw [second.file, first.file, List.length_append, BitVec.ofNat_add, ← BitVec.add_assoc]
  · have later := second.content
    rw [inum, first.content, moved, splice_append start] at later
    exact later
  · obtain ⟨used', same⟩ := first.others j ne used
    obtain ⟨used'', same'⟩ := second.others j (inum ▸ ne) used'
    exact ⟨used'', same'.trans same⟩
  · rw [List.length_append] at sub
    have left := first.space P ((parts_subset le_rfl (by omega)).trans sub)
    have right := second.space P (Finset.Subset.trans (by rw [moved]; exact parts_subset (by omega) (by omega)) sub)
    omega

end View

open View (Stored)

section Transaction

variable (terms : Terms watch E p) (ready : a.Ready sb f i) {next : Bool → KernM α} {Q : α → State → Prop}

include terms ready

theorem writeThen_sees {R : Bool → View → Prop}
    (write : (inodeWrite (some i) src (a.file f).off).Acts watch E p (Sees p [] (a.begun i)) fun r t =>
      ∃ a', R r a' ∧ Sees p [] a' t)
    (kept : ∀ r a', R r a' → Alike i (a.begun i) a' ∧ (1 + a'.logged.length < nbuf ∨ E noBuffers))
    (rest : ∀ r a', R r a' →
      (next r).Acts watch E p (Sees p [] (a'.ended f i (if r = true then src.length else 0))) Q) :
    (writeThen f src next).Acts watch E p (Sees p [] a) Q := by
  have valid := ready.opened.valid
  have loaded : View.loaded { a with trans := true } (some i) = a.inode (some i) := if_pos valid
  have lock := inodeLock_fetches (a := { a with trans := true }) (i := i) terms ready.opened.ref ready.free
    (.inl (by rw [ready.logged]; decide)) fun invalid => absurd valid (by rw [invalid]; decide)
  rw [loaded] at lock
  refine .seq (beginTrans_sees terms ready.idle) <| .learn (C := fun s => s.file = a.file)
    (fun s sees => sees.file_eq) fun t files => ?_
  rw [files]
  rw [ready.ip]
  refine .seq (lock.weaken fun _ _ both => both.1) <| .learn (C := fun s => s.file = a.file)
    (fun s sees => sees.file_eq) fun t files => ?_
  rw [files]
  refine .bind write fun r => ?_
  rintro s ⟨a', here, sees⟩
  obtain ⟨alike, few⟩ := kept r a' here
  obtain ⟨size, addrs, entry⟩ := alike.entry
  rw [View.inode_begun] at entry
  refine Code.Does.bind (P := Sees p [] a') (Q := fun _ => Sees p [] (a'.setFile f
    { a'.file f with off := (a'.file f).off + ofNat 32 (if r = true then src.length else 0) })) ?_
    (fun _ => .seq (inodeUnlock_sees terms ?_ ?_) <| .seq (commitTrans_sees terms few) <| rest r a' here) s sees
  · refine .ite (fun yes => ?_) fun no => .pure fun s sees => ?_
    · rw [if_pos yes]
      exact modifyFile_sees
    · rw [if_neg no, View.setFile, BitVec.add_zero, update_eq_self]
      exact sees
  · show 1 ≤ (a'.inode (some i)).ref
    rw [entry]
    exact ready.opened.ref
  · show (a'.inode (some i)).busy = true
    rw [entry]

end Transaction

/-! ## The chunks -/

variable {n off : Nat}

theorem View.card_parts (off : Nat) (short : n ≤ maxChunk) : (View.parts off n).card ≤ 5 := by
  have sub : View.parts off n ⊆ insert .table ((Finset.Icc (off / bsize) (off / bsize + 3)).image Part.data) := by
    intro u member
    obtain ⟨k, ⟨above, below⟩, part⟩ := View.mem_parts.mp member
    change n ≤ 1536 at short
    have place : off / bsize ≤ k / bsize ∧ k / bsize ≤ off / bsize + 3 := by
      show off / 512 ≤ k / 512 ∧ k / 512 ≤ off / 512 + 3
      omega
    have here : u = .table ∨ u = .data (k / bsize) := by
      unfold View.blockParts at part
      split at part
      next => exact .inr (Finset.mem_singleton.mp part)
      next =>
        rcases Finset.mem_insert.mp part with data | table
        · exact .inr data
        · exact .inl (Finset.mem_singleton.mp table)
    rcases here with rfl | rfl
    · exact Finset.mem_insert_self ..
    · exact Finset.mem_insert_of_mem (Finset.mem_image_of_mem _ (Finset.mem_Icc.mpr place))
  refine (Finset.card_le_card sub).trans ((Finset.card_insert_le ..).trans ?_)
  have count := Finset.card_image_le (s := Finset.Icc (off / bsize) (off / bsize + 3)) (f := Part.data)
  rw [Nat.card_Icc] at count
  omega

theorem View.Written.length_le (written : Written sb i off src a a') (apart : a.logged.Nodup) :
    a'.logged.length ≤ a.logged.length + (View.sectorCount sb (View.parts off src.length) + 1) := by
  refine (written.logs.length_le apart (insert (iblock (a.inode (some i)).inum)
    (a'.sectors sb i (View.parts off src.length))) fun q here => ?_).trans (Nat.add_le_add_left ?_ _)
  · rcases here with sector | rfl
    · exact Finset.mem_insert_of_mem sector.mem_sectors
    · exact Finset.mem_insert_self ..
  · exact (Finset.card_insert_le ..).trans (Nat.add_le_add_right View.card_sectors 1)

namespace View

theorem Ready.begun (ready : a.Ready sb f i) : (a.begun i).Owned sb ∧ (a.begun i).NoHoles sb ∧ (a.begun i).Opened sb i :=
  have opened : Opened { a with trans := true } sb i := ⟨ready.opened.cached, ready.opened.valid, ready.opened.range,
    ready.opened.typed⟩
  ⟨agree_begun.owned ready.owned, agree_begun.noHoles ready.whole, opened.setBusy true⟩

theorem Ready.missing_begun (ready : a.Ready sb f i) : (a.begun i).missing i P = a.missing i P :=
  agree_begun.missing_eq ready.opened ready.begun.2.2 (by rw [inode_begun])

theorem Ready.stored (ready : a.Ready sb f i) (written : Written sb i (a.file f).off.toNat src (a.begun i) a') :
    Stored sb f i src a (a'.ended f i src.length) := by
  obtain ⟨size, addrs, entry⟩ := written.spares.alike.entry
  rw [inode_begun] at entry
  have agree : Agree a' (a'.ended f i src.length) := agree_ended
  have file : a'.file = a.file := by
    rw [written.frame]
    rfl
  have opened : (a'.ended f i src.length).Opened sb i := by
    have here : (a'.setFile f { a'.file f with off := (a'.file f).off + ofNat 32 src.length }).Opened sb i :=
      ⟨written.opened.cached, written.opened.valid, written.opened.range, written.opened.typed⟩
    have later := here.setBusy false
    exact ⟨later.cached, later.valid, later.range, later.typed⟩
  have inode : (a'.ended f i src.length).inode (some i) = { a.inode (some i) with size := size, addrs := addrs } := by
    rw [inode_ended, entry]
    exact congrArg (fun busy => { a.inode (some i) with size := size, addrs := addrs, busy := busy }) ready.free.symm
  have inum : ((a.begun i).inode (some i)).inum = (a.inode (some i)).inum := by rw [inode_begun]
  refine ⟨⟨rfl, rfl, agree.owned written.owned, agree.noHoles written.noHoles, opened, ?_, ?_⟩, ⟨size, addrs, inode⟩, ?_,
    ?_, fun j ne used => ?_, fun P sub => ?_⟩
  · rw [inode]
    exact ready.free
  · rw [file_ended, file]
    exact ready.ip
  · rw [file_ended, file]
  · rw [agree.content_eq, ← inum, written.content, agree_begun.content_eq]
  · rw [agree.inUse_iff, agree.content_eq]
    rw [← inum] at ne
    have used' : (a.begun i).InUse sb j := agree_begun.inUse_iff.mpr used
    refine ⟨(written.spares.inUse_iff ne).mpr used', ?_⟩
    rw [written.spares.content_eq ready.begun.2.1 ne used', agree_begun.content_eq]
  · have space := written.space P sub
    rw [ready.missing_begun, agree_begun.freeBlocks_eq ready.owned.format.proper] at space
    rw [agree.missing_eq written.opened opened (by rw [inode_ended]), agree.freeBlocks_eq ready.owned.format.proper]
    exact space

end View

section Write

variable (ready : a.Ready sb f i) (file : (a.inode (some i)).type ≠ tDev) (short : src.length < 2 ^ 32)
  {next : Bool → KernM α} {Q : α → State → Prop}

include ready file short

theorem writeThen_stores (terms : Terms watch E p) (accepted : ¬Refused (a.inode (some i)) (a.file f).off src.length)
    (enough : (a.missing i (View.parts (a.file f).off.toNat src.length)).card ≤ (a.freeBlocks sb).card)
    (allows : ∀ a', Changed sb i (View.parts (a.file f).off.toNat src.length) (a.begun i) a' →
      Allows watch E ((a.begun i).Writable sb i) a')
    (room : ∀ a', Written sb i (a.file f).off.toNat src (a.begun i) a' → 1 + a'.logged.length < nbuf ∨ E noBuffers)
    (rest : ∀ a', Stored sb f i src a a' → (next true).Acts watch E p (Sees p [] a') Q) :
    (writeThen f src next).Acts watch E p (Sees p [] a) Q := by
  obtain ⟨owned, whole, opened⟩ := ready.begun
  have type : ((a.begun i).inode (some i)).type ≠ tDev := by
    rw [View.inode_begun]
    exact file
  have goes : ¬Refused ((a.begun i).inode (some i)) (a.file f).off src.length := by
    rw [View.inode_begun]
    exact accepted
  have blocks : ((a.begun i).missing i (View.parts (a.file f).off.toNat src.length)).card ≤
      ((a.begun i).freeBlocks sb).card := by
    rw [ready.missing_begun, View.agree_begun.freeBlocks_eq owned.format.proper]
    exact enough
  refine writeThen_sees (R := fun r a' => r = true ∧ Written sb i (a.file f).off.toNat src (a.begun i) a') terms ready
    ((inodeWrite_sees terms owned opened whole type short goes blocks allows).weaken ?_) ?_ ?_
  · rintro r t ⟨rfl, a', written, sees⟩
    exact ⟨a', ⟨rfl, written⟩, sees⟩
  · rintro r a' ⟨-, written⟩
    exact ⟨written.spares.alike, room a' written⟩
  · rintro r a' ⟨rfl, written⟩
    exact rest _ (ready.stored written)

omit file short in
theorem writeThen_refuses (terms : Terms watch E p)
    (write : (inodeWrite (some i) src (a.file f).off).Acts watch E p (Sees p [] (a.begun i)) fun r t =>
      r = false ∧ Sees p [] (a.begun i) t)
    (rest : (next false).Acts watch E p (Sees p [] a) Q) :
    (writeThen f src next).Acts watch E p (Sees p [] a) Q := by
  refine writeThen_sees (R := fun r a' => r = false ∧ a' = a.begun i) terms ready (write.weaken ?_) ?_ ?_
  · rintro r t ⟨rfl, sees⟩
    exact ⟨_, ⟨rfl, rfl⟩, sees⟩
  · rintro r a' ⟨-, rfl⟩
    refine ⟨.of_eq rfl, .inl ?_⟩
    show 1 + a.logged.length < 10
    rw [ready.logged]
    decide
  · rintro r a' ⟨rfl, rfl⟩
    rw [if_neg Bool.false_ne_true, ready.ended_begun]
    exact rest

omit ready in
theorem inodeWrite_refuses_begun (refused : Refused (a.inode (some i)) (a.file f).off src.length) :
    (inodeWrite (some i) src (a.file f).off).Acts watch E p (Sees p [] (a.begun i)) fun r t =>
      r = false ∧ Sees p [] (a.begun i) t := by
  have type : ((a.begun i).inode (some i)).type ≠ tDev := by
    rw [View.inode_begun]
    exact file
  have stays : Refused ((a.begun i).inode (some i)) (a.file f).off src.length := by
    rw [View.inode_begun]
    exact refused
  exact inodeWrite_refuses type short stays

end Write

/-- How many of `n` bytes are stored: the chunks that end within what a file can have. -/
def storedCount (off n : Nat) : Nat :=
  if off + n ≤ maxfile * bsize then n else (maxfile * bsize - off) / maxChunk * maxChunk

theorem storedCount_within (start : off ≤ maxfile * bsize) : off + storedCount off n ≤ maxfile * bsize := by
  change off ≤ 71680 at start
  unfold storedCount
  show off + (if off + n ≤ 71680 then n else (71680 - off) / 1536 * 1536) ≤ 71680
  split <;> omega

theorem take_append_take {m : Nat} :
    data.take m ++ (data.drop m).take n = data.take ((data.take m).length + n) := by
  rw [List.length_take]
  rcases Nat.le_total m data.length with le | ge
  · rw [Nat.min_eq_left le, List.take_add]
  · rw [List.drop_eq_nil_of_le ge, Nat.min_eq_right ge, List.take_of_length_le ge, List.take_nil, List.append_nil,
      List.take_of_length_le (Nat.le_add_right ..)]

theorem storedCount_add (positive : 0 < data.length) (fits : off + (data.take maxChunk).length ≤ maxfile * bsize) :
    storedCount off data.length =
      (data.take maxChunk).length + storedCount (off + (data.take maxChunk).length) (data.drop maxChunk).length := by
  rw [List.length_take] at *
  rw [List.length_drop]
  change off + min 1536 data.length ≤ 71680 at fits
  unfold storedCount
  show (if off + data.length ≤ 71680 then data.length else (71680 - off) / 1536 * 1536) = min 1536 data.length +
    if off + min 1536 data.length + (data.length - 1536) ≤ 71680 then data.length - 1536
    else (71680 - (off + min 1536 data.length)) / 1536 * 1536
  split <;> split <;> omega

theorem storedCount_eq_zero (positive : 0 < data.length)
    (beyond : ¬off + (data.take maxChunk).length ≤ maxfile * bsize) : storedCount off data.length = 0 := by
  rw [List.length_take] at beyond
  change ¬off + min 1536 data.length ≤ 71680 at beyond
  unfold storedCount
  show (if off + data.length ≤ 71680 then data.length else (71680 - off) / 1536 * 1536) = 0
  rw [if_neg (by omega)]
  omega

section Loop

variable (low : 1 ≤ p) (high : p < numIds) (bitmaps : sb.size.toNat < 2 * bpb)

include low high bitmaps

theorem writeChunk_stores (ready : a.Ready sb f i) (file : (a.inode (some i)).type ≠ tDev)
    (accepted : ¬Refused (a.inode (some i)) (a.file f).off src.length) (short : src.length ≤ maxChunk)
    (enough : (a.missing i (View.parts (a.file f).off.toNat src.length)).card ≤ (a.freeBlocks sb).card)
    {next : Bool → KernM α} {Q : α → State → Prop}
    (rest : ∀ a', Stored sb f i src a a' → (next true).Does (watched fun _ => false) (fun _ => False) p (Sees p [] a') Q) :
    (writeThen f src next).Does (watched fun _ => false) (fun _ => False) p (Sees p [] a) Q := by
  have empty : (a.begun i).logged = [] := ready.logged
  have apart : (a.begun i).logged.Nodup := by
    rw [empty]
    exact List.nodup_nil
  have count : View.sectorCount sb (View.parts (a.file f).off.toNat src.length) + 1 ≤ 8 := by
    have card := View.card_parts (a.file f).off.toNat short
    change sb.size.toNat < 2 * 4096 at bitmaps
    show sb.size.toNat / 4096 + 1 + (View.parts (a.file f).off.toNat src.length).card + 1 ≤ 8
    omega
  have room : (a.begun i).Room (View.sectorCount sb (View.parts (a.file f).off.toNat src.length) + 1) := by
    refine ⟨rfl, ?_⟩
    rw [empty]
    exact (Nat.zero_add _).symm ▸ Nat.lt_succ_of_le count
  refine writeThen_stores ready file (lt_of_le_of_lt short (by decide)) ⟨nofun, .inl ⟨low, high⟩⟩ accepted enough
    (fun a' changed => room.allows apart ready.begun.1 nofun changed) (fun a' written => .inl ?_) rest
  have logged := written.length_le apart
  rw [empty] at logged
  show 1 + a'.logged.length < 10
  have zero : ([] : List Word).length = 0 := rfl
  omega

theorem fileWriteLoop_stores (fuel : Nat) {data : List Byte} (ready : a.Ready sb f i)
    (file : (a.inode (some i)).type ≠ tDev) (start : (a.file f).off.toNat ≤ (a.inode (some i)).size.toNat)
    (small : (a.file f).off.toNat + data.length < 2 ^ 32) (fueled : data.length ≤ fuel)
    (inside : View.parts (a.file f).off.toNat (storedCount (a.file f).off.toNat data.length) ⊆ P)
    (enough : (a.missing i P).card ≤ (a.freeBlocks sb).card) :
    (fileWriteLoop f fuel data).Does (watched fun _ => false) (fun _ => False) p (Sees p [] a) fun r t =>
      (r = true ↔ (a.file f).off.toNat + data.length ≤ maxfile * bsize) ∧
        ∃ a', Stored sb f i (data.take (storedCount (a.file f).off.toNat data.length)) a a' ∧ Sees p [] a' t := by
  have limit : (a.file f).off.toNat ≤ maxfile * bsize := start.trans (ready.whole.own ready.opened).1
  induction fuel generalizing data a with
  | zero =>
    obtain rfl := List.length_eq_zero_iff.mp (Nat.le_zero.mp fueled)
    exact .pure fun _ sees => ⟨iff_of_true rfl limit, a, by simpa using Stored.refl ready, sees⟩
  | succ fuel ih =>
    rw [fileWriteLoop_succ]
    refine .ite (fun done => .pure fun _ sees => ?_) fun more => ?_
    · subst done
      exact ⟨iff_of_true rfl limit, a, by simpa using Stored.refl ready, sees⟩
    have positive := List.length_pos_iff.mpr more
    have length : (data.take maxChunk).length = min 1536 data.length := List.length_take
    have left : (data.drop maxChunk).length = data.length - 1536 := List.length_drop
    generalize offset : (a.file f).off.toNat = off at *
    by_cases fits : off + (data.take maxChunk).length ≤ maxfile * bsize
    · have split := storedCount_add positive fits
      have part : View.parts (a.file f).off.toNat (data.take maxChunk).length ⊆ P := by
        rw [offset]
        exact (View.parts_subset le_rfl (by omega)).trans inside
      refine writeChunk_stores low high bitmaps ready file ?_ (by show _ ≤ 1536; omega)
        ((Finset.card_le_card (View.missing_mono part)).trans enough) fun a₁ stored => ?_
      · rw [Refused, offset]
        omega
      have begin : (a.file f).off.toNat ≤ (a.content (a.inode (some i)).inum).length := by
        rw [ready.length_content, offset]
        exact start
      have moved := stored.off (by omega)
      have size := stored.size begin
      have space := stored.space P part
      obtain ⟨size', addrs, entry⟩ := stored.alike
      rw [offset] at moved size
      rw [if_pos rfl]
      refine (ih stored.ready (by rw [entry]; exact file) (by omega) (by omega) (by omega) ?_ (by omega)
        (by omega)).weaken ?_
      · rw [moved]
        exact (View.parts_subset (by omega) (by omega)).trans inside
      · rintro r t ⟨result, a', stored', sees⟩
        rw [moved] at result stored'
        refine ⟨result.trans (by omega), a', ?_, sees⟩
        have both := stored.trans stored' begin (by rw [List.length_append, List.length_take (l := data.drop _)]; omega)
        rw [split]
        rw [take_append_take] at both
        exact both
    · have none := storedCount_eq_zero positive fits
      have refused : Refused (a.inode (some i)) (a.file f).off (data.take maxChunk).length := by
        rw [Refused, offset]
        omega
      refine writeThen_refuses ready ⟨nofun, .inl ⟨low, high⟩⟩ (inodeWrite_refuses_begun file (by omega) refused)
        (.pure fun _ sees => ⟨?_, a, ?_, sees⟩)
      · refine iff_of_false Bool.false_ne_true fun all => fits (le_trans ?_ all)
        omega
      · rw [none]
        exact Stored.refl ready

theorem fileWrite_stores (data : List Byte) (ready : a.Ready sb f i) (file : (a.inode (some i)).type ≠ tDev)
    (kind : (a.file f).type = .inode) (writable : (a.file f).writable = true)
    (start : (a.file f).off.toNat ≤ (a.inode (some i)).size.toNat) (short : data.length < 2 ^ 31)
    (enough : (a.missing i (View.parts (a.file f).off.toNat (storedCount (a.file f).off.toNat data.length))).card ≤
      (a.freeBlocks sb).card) :
    (fileWrite f data).Does (watched fun _ => false) (fun _ => False) p (Sees p [] a) fun r t =>
      (r = true ↔ (a.file f).off.toNat + data.length ≤ maxfile * bsize) ∧
        ∃ a', Stored sb f i (data.take (storedCount (a.file f).off.toNat data.length)) a a' ∧ Sees p [] a' t := by
  have limit : (a.file f).off.toNat ≤ 71680 := start.trans (ready.whole.own ready.opened).1
  refine .learn (C := fun s => s.file = a.file) (fun s sees => sees.file_eq) fun t files => ?_
  rw [files, if_neg (by rw [writable]; decide), if_pos kind]
  exact fileWriteLoop_stores low high bitmaps data.length ready file start (by omega) le_rfl
    (Finset.Subset.refl _) enough

end Loop

theorem fileWrite_refuses (ready : a.Ready sb f i) (more : data ≠ []) (short : data.length < 2 ^ 32)
    (refused : (a.file f).writable = true → (a.file f).type = .inode → (a.inode (some i)).type ≠ tDev →
      Refused (a.inode (some i)) (a.file f).off (data.take maxChunk).length) :
    (fileWrite f data).Does world (fun _ => True) p (Sees p [] a) fun r t => r = false ∧ Sees p [] a t := by
  refine .learn (C := fun s => s.file = a.file) (fun s sees => sees.file_eq) fun t files => ?_
  rw [files]
  refine .ite (fun _ => .pure fun _ sees => ⟨rfl, sees⟩) fun writable => .ite (fun kind => ?_) fun _ => .stop fun _ _ => trivial
  obtain ⟨n, length⟩ := Nat.exists_eq_succ_of_ne_zero (ne_of_gt (List.length_pos_iff.mpr more))
  rw [length, fileWriteLoop_succ, if_neg more]
  refine writeThen_refuses ready ⟨nofun, .inr trivial⟩ ?_ (.pure fun _ sees => ⟨rfl, sees⟩)
  by_cases device : (a.inode (some i)).type = tDev
  · refine inodeWrite_device ?_ trivial
    rw [View.inode_begun]
    exact device
  · exact inodeWrite_refuses_begun device (by rw [List.length_take]; omega) (refused (by simpa using writable) kind device)

theorem fileWrite_nil : (fileWrite f []).Does world (fun _ => True) p (Sees p [] a) fun _ t => Sees p [] a t := by
  refine .get fun t => .both .same <| .both .same <|
    .stop fun _ _ => trivial

def TellsTruth (p : Nat) (s : State) (a : View) (f : Fin nfile) (i : Fin ninode) (data : List Byte) : Prop :=
  ∀ r t, (fileWrite f data).alone world p s = .ok (r, t) → ∃ a', Sees p [] a' t ∧
    (r = false → a'.content (a.inode (some i)).inum = a.content (a.inode (some i)).inum ∧
      (a'.inode (some i)).size = (a.inode (some i)).size ∧ (a'.file f).off = (a.file f).off) ∧
    (r = true →
      a'.content (a.inode (some i)).inum = splice (a.content (a.inode (some i)).inum) (a.file f).off.toNat data ∧
        (a'.file f).off = (a.file f).off + ofNat 32 data.length)

def Overruns (a : View) (f : Fin nfile) (i : Fin ninode) (n : Nat) : Prop :=
  ((a.file f).writable = true ∧ (a.file f).type = .inode ∧ (a.inode (some i)).type ≠ tDev) ∧
    (a.file f).off.toNat ≤ (a.inode (some i)).size.toNat ∧ (a.file f).off.toNat + maxChunk ≤ maxfile * bsize ∧
      maxfile * bsize < (a.file f).off.toNat + n

section Truth

variable (low : 1 ≤ p) (high : p < numIds) {s : State} (sees : Sees p [] a s) (ready : a.Ready sb f i)
  (bitmaps : sb.size.toNat < 2 * bpb) {data : List Byte} (short : data.length ≤ 10000)
  (enough : (a.missing i (View.parts (a.file f).off.toNat (storedCount (a.file f).off.toNat data.length))).card ≤
    (a.freeBlocks sb).card)

include low high sees ready bitmaps short enough

theorem Overruns.lies (overruns : Overruns a f i data.length) :
    ∃ t, (fileWrite f data).alone world p s = .ok (false, t) ∧ (t.file f).off ≠ (s.file f).off := by
  obtain ⟨⟨writable, kind, file⟩, start, first, beyond⟩ := overruns
  obtain ⟨r, t, returned, result, a', stored, after⟩ := (fileWrite_stores low high bitmaps data ready file kind
    writable start (by omega) enough s sees).returns
  have refused : r = false := by
    cases r with
    | false => rfl
    | true => exact absurd (result.mp rfl) (not_le_of_gt beyond)
  subst refused
  refine ⟨t, returned, fun same => ?_⟩
  have count : storedCount (a.file f).off.toNat data.length = (71680 - (a.file f).off.toNat) / 1536 * 1536 :=
    if_neg (not_le_of_gt beyond)
  change _ + 1536 ≤ 71680 at first
  change 71680 < _ at beyond
  have length : (data.take (storedCount (a.file f).off.toNat data.length)).length =
      (71680 - (a.file f).off.toNat) / 1536 * 1536 := by
    rw [List.length_take, count]
    omega
  have moved := stored.off (by omega)
  rw [after.file_eq, sees.file_eq] at same
  rw [same, length] at moved
  omega

theorem tellsTruth_of_not_overruns (apart : ¬Overruns a f i data.length) : TellsTruth p s a f i data := by
  intro r t returned
  by_cases none : data = []
  · subst none
    refine ⟨a, (fileWrite_nil s sees).of_ok returned, fun _ => ⟨rfl, rfl, rfl⟩, fun _ => ⟨?_, ?_⟩⟩
    · rw [splice_nil]
    · simp
  by_cases refused : (a.file f).writable = true → (a.file f).type = .inode → (a.inode (some i)).type ≠ tDev →
      Refused (a.inode (some i)) (a.file f).off (data.take maxChunk).length
  · obtain ⟨rfl, after⟩ := (fileWrite_refuses ready none (by omega) refused s sees).of_ok returned
    exact ⟨a, after, fun _ => ⟨rfl, rfl, rfl⟩, nofun⟩
  · simp only [not_forall] at refused
    obtain ⟨writable, kind, file, accepted⟩ := refused
    have start : (a.file f).off.toNat ≤ (a.inode (some i)).size.toNat :=
      not_lt.mp fun beyond => accepted (.inl beyond)
    have first : (a.file f).off.toNat + (data.take maxChunk).length ≤ 71680 :=
      not_lt.mp fun beyond => accepted (.inr (.inr beyond))
    rw [List.length_take] at first
    change _ + min 1536 _ ≤ _ at first
    have range : (a.file f).off.toNat + data.length ≤ maxfile * bsize := by
      refine not_lt.mp fun beyond => apart ⟨⟨writable, kind, file⟩, start, ?_, beyond⟩
      change 71680 < _ at beyond
      show _ + 1536 ≤ 71680
      omega
    have all : storedCount (a.file f).off.toNat data.length = data.length := if_pos range
    obtain ⟨result, a', stored, after⟩ := (fileWrite_stores low high bitmaps data ready file kind writable start
      (by omega) enough s sees).of_ok returned
    rw [all, List.take_length] at stored
    refine ⟨a', after, fun failed => ?_, fun _ => ⟨stored.content, by rw [stored.file]⟩⟩
    exact absurd (failed.symm.trans (result.mpr range)) (by decide)

end Truth

namespace OneFile

variable {v : Volume} {off : Word}

theorem ready (full : v.full = true) (small : v.size.toNat ≤ maxfile * bsize) (f : Fin nfile) :
    (v.view false off fun _ => 0).Ready v.super f 0 where
  idle := rfl
  logged := rfl
  owned := owned
  whole := noHoles full small
  opened := opened
  free := by rw [inode_view]; rfl
  ip := rfl

theorem bitmaps : v.super.size.toNat < 2 * bpb := by
  unfold Volume.super
  cases v.full <;> decide

theorem enough (full : v.full = true) {o n : Nat} (small : o + n ≤ maxfile * bsize) :
    ((v.view false off fun _ => 0).missing 0 (View.parts o n)).card ≤
      ((v.view false off fun _ => 0).freeBlocks v.super).card := by
  rw [missing full, Finset.card_empty]
  · exact Nat.zero_le _
  · intro bn member
    obtain ⟨k, ⟨-, below⟩, rfl⟩ := View.data_mem_parts.mp member
    change _ ≤ 71680 at small
    show k / 512 < 140
    omega

def long : Volume := ⟨true, tFile, 70144, fun _ => 0, tFile_ne_zero⟩

end OneFile

end Certikos.FileSys
