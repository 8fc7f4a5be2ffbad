import Certikos.FileSys.Content

/-!
# The files behind the inode cache

Taking, locking, unlocking and giving back an inode changes the cache, and not the files.
-/

namespace Certikos.FileSys
open Lib
open Fs (nbuf Block rootdev logsize)

variable {p : Nat} {a a' a'' : View} {sb : Superblock} {i : Fin ninode} {q : Word} {P : Finset Part}

namespace View

structure Agree (a a' : View) : Prop where
  block : a'.block = a.block
  start : a'.start = a.start
  size : a'.size = a.size
  seen : a'.seen = a.seen

namespace Agree

theorem trans (first : Agree a a') (second : Agree a' a'') : Agree a a'' :=
  ⟨second.block.trans first.block, second.start.trans first.start, second.size.trans first.size,
    second.seen.trans first.seen⟩

theorem of_inode (block : a'.block = a.block) (start : a'.start = a.start) (size : a'.size = a.size)
    (same : ∀ k : Fin ninode, (a'.inode (some k)).ref = (a.inode (some k)).ref ∧
      (a'.inode (some k)).dev = (a.inode (some k)).dev ∧ (a'.inode (some k)).inum = (a.inode (some k)).inum)
    (loaded : ∀ k : Fin ninode, (a'.loaded (some k)).toDinode = (a.loaded (some k)).toDinode) : Agree a a' := by
  refine ⟨block, start, size, funext fun inum => ?_⟩
  unfold View.seen
  rw [cachedIn_congr same, block]
  cases cachedIn a.inode rootdev inum with
  | none => rfl
  | some k => exact loaded k

variable (agree : Agree a a')

include agree

theorem number_eq : a'.number = a.number := by
  funext addrs
  exact number_congr fun _ => congrFun agree.block _

theorem inUse_iff {inum : Word} : a'.InUse sb inum ↔ a.InUse sb inum := by
  rw [InUse, InUse, agree.seen]

theorem holds_eq : a'.holds sb = a.holds sb := by
  funext u
  unfold holds
  rw [agree.number_eq, agree.seen]
  simp only [agree.inUse_iff]

theorem marked_eq : a'.marked sb = a.marked sb := by
  funext q
  rw [marked, marked, agree.block]

theorem formatted (format : a.Formatted sb) : a'.Formatted sb := by
  obtain ⟨proper, super, start, size⟩ := format
  refine ⟨proper, ?_, ?_, ?_⟩
  · rw [agree.block]
    exact super
  · rw [agree.start]
    exact start
  · rw [agree.size]
    exact size

theorem owned (owned : a.Owned sb) : a'.Owned sb := by
  obtain ⟨format, data, apart, marks, metadata⟩ := owned
  refine ⟨agree.formatted format, ?_, ?_, ?_, ?_⟩
  · rw [agree.holds_eq]
    exact data
  · rw [agree.holds_eq]
    exact apart
  · rw [agree.holds_eq, agree.marked_eq]
    exact marks
  · rw [agree.marked_eq]
    exact metadata

theorem noHoles (whole : a.NoHoles sb) : a'.NoHoles sb := by
  intro inum used
  rw [agree.number_eq, agree.seen]
  exact whole inum (agree.inUse_iff.mp used)

theorem content_eq : a'.content = a.content := by
  funext inum
  rw [content, content, agree.seen]
  apply List.map_congr_left
  intro k _
  rw [stored, stored, agree.number_eq, agree.block]

theorem freeBlocks_eq (proper : sb.Proper) : a'.freeBlocks sb = a.freeBlocks sb :=
  freeBlocks_congr proper fun _ _ => by rw [agree.marked_eq]

theorem missing_eq (opened : a.Opened sb i) (opened' : a'.Opened sb i)
    (inum : (a'.inode (some i)).inum = (a.inode (some i)).inum) : a'.missing i P = a.missing i P := by
  have own : a'.own (some i) = a.own (some i) := by
    funext u
    rw [← opened'.number_eq, ← opened.number_eq, inum, agree.number_eq, agree.seen]
  rw [missing, missing, own]

end Agree

/-! ## Locking -/

def setBusy (a : View) (i : Fin ninode) (busy : Bool) : View :=
  a.setInode (some i) { a.inode (some i) with busy := busy }

@[simp] theorem inode_setBusy {busy : Bool} : (a.setBusy i busy).inode (some i) = { a.inode (some i) with busy := busy } :=
  inode_setInode_self

theorem agree_setBusy {busy : Bool} : Agree a (a.setBusy i busy) := by
  refine .of_inode rfl rfl rfl (fun k => ?_) fun k => ?_
  · by_cases same : k = i
    · rw [same, inode_setBusy]
      exact ⟨rfl, rfl, rfl⟩
    · rw [setBusy, inode_setInode_of_ne (by simpa using same)]
      exact ⟨rfl, rfl, rfl⟩
  · unfold loaded
    by_cases same : k = i
    · rw [same, inode_setBusy]
      by_cases valid : (a.inode (some i)).valid = true
      · simp only [valid, if_true]
      · rw [if_neg valid, if_neg valid]
        rfl
    · rw [setBusy, inode_setInode_of_ne (by simpa using same)]
      rfl

theorem Opened.setBusy (opened : a.Opened sb i) (busy : Bool) : (a.setBusy i busy).Opened sb i := by
  refine ⟨?_, ?_, ?_, ?_⟩
  · rw [inode_setBusy]
    refine Eq.trans (cachedIn_congr (fun k => ?_) ..) opened.cached
    by_cases same : k = i
    · rw [same, inode_setBusy]
      exact ⟨rfl, rfl, rfl⟩
    · rw [View.setBusy, inode_setInode_of_ne (by simpa using same)]
      exact ⟨rfl, rfl, rfl⟩
  · rw [inode_setBusy]
    exact opened.valid
  · rw [inode_setBusy]
    exact opened.range
  · rw [inode_setBusy]
    exact opened.typed

/-! ## Open files -/

def setFile (a : View) (f : Fin nfile) (x : File) : View := { a with file := Function.update a.file f x }

end View

variable {H : List (Fin nbuf × Word)}

theorem Sees.file_eq {s : State} (sees : Sees p H a s) : s.file = a.file :=
  congrArg Rest.file sees.rest_eq

theorem Sees.setFile {s : State} {f : Fin nfile} {x : File} (sees : Sees p H a s) :
    Sees p H (a.setFile f x) (s.setFile f x) := by
  have files := sees.file_eq
  obtain ⟨homes, c, r, lone, is⟩ := sees
  refine ⟨homes, c, { r with file := Function.update a.file f x }, { lone with rest := ?_ }, { is with rest := ?_ }⟩
  · rw [← lone.rest, ← files]
    rfl
  · rw [is.rest]
    rfl

theorem modifyFile_sees {watch : Note → Bool} {E : Cut Stop Note → Prop} {f : Fin nfile}
    {g : File → File} : (modifyFile f g).Acts watch E p (Sees p H a) fun _ =>
      Sees p H (a.setFile f (g (a.file f))) := by
  refine .modify fun s sees => ?_
  rw [← sees.file_eq]
  exact sees.setFile

end Certikos.FileSys
