import Certikos.Shell.Program
import Mathlib.Data.Fin.Basic

/-!
# The files the shell is promised

What `open`, `read`, `write`, `close`, `unlink` and `mkdir` are documented to do, over an arbitrary set of directory
entries.
-/

namespace Certikos.Shell
open Lib Function

inductive Node
  | file (bytes : List Byte)
  | dir
  deriving DecidableEq

structure OpenFile where
  ino : Nat
  off : Nat
  readable : Bool
  writable : Bool

abbrev descriptors : Nat := 16

abbrev maxBytes : Nat := 140 * 512

@[ext]
structure Store (N : Type) where
  entry : N → Option Nat
  node : Nat → Node
  fds : Fin descriptors → Option OpenFile
  next : Nat
  named : ∀ n i, entry n = some i → i < next
  opened : ∀ fd o, fds fd = some o → o.ino < next

namespace Store

variable {N : Type} (s : Store N)

def done (value : Nat) (bytes : List Byte) : Answer := ⟨0, BitVec.ofNat 32 value, bytes⟩

def refused : Answer := ⟨1, 0, []⟩

def freeFd : Option (Fin descriptors) := (List.finRange descriptors).find? fun fd => (s.fds fd).isNone

def setFd (fd : Fin descriptors) (o : Option OpenFile) (known : ∀ f, o = some f → f.ino < s.next) : Store N where
  entry := s.entry
  node := s.node
  fds := update s.fds fd o
  next := s.next
  named := s.named
  opened := by
    intro fd' f here
    by_cases same : fd' = fd
    · rw [same, update_self] at here
      exact known f here
    · rw [update_of_ne same] at here
      exact s.opened fd' f here

def setNode (i : Nat) (node : Node) : Store N := { s with node := update s.node i node }

def create [DecidableEq N] (n : N) (node : Node) : Store N where
  entry := update s.entry n (some s.next)
  node := update s.node s.next node
  fds := s.fds
  next := s.next + 1
  named := by
    intro n' i here
    by_cases same : n' = n
    · rw [same, update_self] at here
      cases here
      exact Nat.lt_succ_self s.next
    · rw [update_of_ne same] at here
      exact Nat.lt_succ_of_lt (s.named n' i here)
  opened := fun fd o here => Nat.lt_succ_of_lt (s.opened fd o here)

def remove [DecidableEq N] (n : N) : Store N where
  entry := update s.entry n none
  node := s.node
  fds := s.fds
  next := s.next
  named := by
    intro n' i here
    by_cases same : n' = n
    · rw [same, update_self] at here
      cases here
    · rw [update_of_ne same] at here
      exact s.named n' i here
  opened := s.opened

def openFile (i : Nat) (known : i < s.next) (omode : Word) : Answer × Store N :=
  match s.freeFd with
  | some fd =>
    let o : OpenFile := ⟨i, 0, omode &&& 1#32 = 0, omode &&& 3#32 ≠ 0⟩
    (done fd [], s.setFd fd (some o) fun f same => by cases same; exact known)
  | none => (refused, s)

def lookup (fd : Int) : Option (Fin descriptors × OpenFile) :=
  if range : 0 ≤ fd ∧ fd < descriptors then
    (s.fds ⟨fd.toNat, by omega⟩).map fun o => (⟨fd.toNat, by omega⟩, o)
  else none

def seek (fd : Fin descriptors) (off : Nat) : Store N :=
  s.setFd fd ((s.fds fd).map fun o => { o with off }) fun f moved => by
    obtain ⟨o, here, same⟩ := Option.map_eq_some_iff.mp moved
    subst same
    exact s.opened fd o here

def readFile (fd : Int) (n : Nat) : Answer × Store N :=
  match s.lookup fd with
  | some (fd, o) =>
    match s.node o.ino, o.readable with
    | .file bytes, true =>
      let read := (bytes.drop o.off).take n
      (done read.length read, s.seek fd (o.off + read.length))
    | _, _ => (refused, s)
  | none => (refused, s)

def overwrite (bytes : List Byte) (off : Nat) (new : List Byte) : List Byte :=
  let new := new.take (maxBytes - off)
  bytes.take off ++ new ++ bytes.drop (off + new.length)

def writeFile (fd : Int) (new : List Byte) : Answer × Store N :=
  match s.lookup fd with
  | some (fd, o) =>
    match s.node o.ino, o.writable with
    | .file bytes, true =>
      let count := (new.take (maxBytes - o.off)).length
      (done count [], (s.setNode o.ino (.file (overwrite bytes o.off new))).seek fd (o.off + count))
    | _, _ => (refused, s)
  | none => (refused, s)

def closeFile (fd : Int) : Answer × Store N :=
  match s.lookup fd with
  | some (fd, _) => (done 0 [], s.setFd fd none fun _ same => nomatch same)
  | none => (refused, s)

def isDirFile (fd : Int) : Answer × Store N :=
  match s.lookup fd with
  | some (_, o) =>
    match s.node o.ino with
    | .file _ => (done 0 [], s)
    | .dir => (done 1 [], s)
  | none => (refused, s)

section Descriptors

variable {s} {fd : Fin descriptors} {o : OpenFile}

theorem done_value {value : Nat} {bytes : List Byte} (small : value < 2 ^ 31) : (done value bytes).value = value := by
  have same : (BitVec.ofNat 32 value).toNat = value := by
    rw [BitVec.toNat_ofNat, Nat.mod_eq_of_lt (by omega)]
  have signed : (BitVec.ofNat 32 value).toInt = value := by
    rw [BitVec.toInt_eq_toNat_of_lt (by omega), same]
  simp [done, Answer.value, Answer.status, signed]

theorem refused_value : refused.value = -1 := rfl

theorem done_fd : (done fd []).value = fd :=
  done_value (lt_trans fd.isLt (by decide))

theorem fds_of_freeFd (free : s.freeFd = some fd) : s.fds fd = none :=
  Option.isNone_iff_eq_none.mp (List.find?_some (p := fun fd => (s.fds fd).isNone) free)

theorem exists_freeFd (room : ∃ fd, s.fds fd = none) : ∃ fd, s.freeFd = some fd := by
  obtain ⟨fd, free⟩ := room
  apply Option.isSome_iff_exists.mp
  apply List.find?_isSome.mpr
  exact ⟨fd, List.mem_finRange fd, Option.isNone_iff_eq_none.mpr free⟩

theorem openFile_free {i : Nat} (known : i < s.next) (omode : Word) (free : s.freeFd = some fd) :
    ∃ known', s.openFile i known omode =
      (done fd [], s.setFd fd (some ⟨i, 0, omode &&& 1#32 = 0, omode &&& 3#32 ≠ 0⟩) known') := by
  unfold openFile
  split
  · rename_i fd' found
    cases free.symm.trans found
    exact ⟨fun f same => by cases same; exact known, rfl⟩
  · rename_i none
    cases free.symm.trans none

variable {known : ∀ f, some o = some f → f.ino < s.next}

theorem lookup_setFd :
    (s.setFd fd (some o) known).lookup fd = some (fd, o) := by
  have range : 0 ≤ (fd : Int) ∧ (fd : Int) < descriptors := by omega
  have same : (⟨(fd : Int).toNat, by omega⟩ : Fin descriptors) = fd := Fin.ext (Int.toNat_natCast fd)
  rw [lookup, dif_pos range, same]
  simp only [setFd, update_self, Option.map_some]

theorem setFd_none (free : s.fds fd = none) {known' : ∀ f : OpenFile, none = some f → f.ino < s.next} :
    (s.setFd fd (some o) known).setFd fd none known' = s := by
  ext1
  · rfl
  · rfl
  · simp only [setFd, update_idem]
    rw [← free, update_eq_self]
  · rfl

theorem closeFile_setFd (free : s.fds fd = none) :
    (s.setFd fd (some o) known).closeFile fd = (done 0 [], s) := by
  rw [closeFile, lookup_setFd]
  exact congrArg (Prod.mk (done 0 [])) (setFd_none free)

theorem seek_setFd {off : Nat} :
    (s.setFd fd (some o) known).seek fd off = s.setFd fd (some { o with off }) fun f same => by
      cases same
      exact known o rfl := by
  ext1
  · rfl
  · rfl
  · simp only [seek, setFd, update_self, update_idem, Option.map_some]
  · rfl

variable {i : Nat} {bytes new : List Byte}

theorem readFile_setFd (fd : Fin descriptors) (n : Nat) (file : s.node i = .file bytes) {writable : Bool}
    (known : ∀ f, some ⟨i, 0, true, writable⟩ = some f → OpenFile.ino f < s.next) :
    ∃ known', (s.setFd fd (some ⟨i, 0, true, writable⟩) known).readFile fd n =
      (done (bytes.take n).length (bytes.take n),
        s.setFd fd (some ⟨i, (bytes.take n).length, true, writable⟩) known') := by
  have here : (s.setFd fd (some ⟨i, 0, true, writable⟩) known).node i = .file bytes := file
  have small : i < s.next := known _ rfl
  refine ⟨fun f same => by cases same; exact small, ?_⟩
  rw [readFile, lookup_setFd]
  simp only [here, List.drop_zero, seek_setFd, Nat.zero_add]

theorem writeFile_setFd (fd : Fin descriptors) (new : List Byte) (file : s.node i = .file bytes) {readable : Bool}
    (known : ∀ f, some ⟨i, 0, readable, true⟩ = some f → OpenFile.ino f < s.next) :
    ∃ known', (s.setFd fd (some ⟨i, 0, readable, true⟩) known).writeFile fd new =
      (done (new.take maxBytes).length [],
        (s.setNode i (.file (overwrite bytes 0 new))).setFd fd
          (some ⟨i, (new.take maxBytes).length, readable, true⟩) known') := by
  have here : (s.setFd fd (some ⟨i, 0, readable, true⟩) known).node i = .file bytes := file
  have commute : (s.setFd fd (some ⟨i, 0, readable, true⟩) known).setNode i (.file (overwrite bytes 0 new)) =
      (s.setNode i (.file (overwrite bytes 0 new))).setFd fd (some ⟨i, 0, readable, true⟩) known := rfl
  have small : i < s.next := known _ rfl
  refine ⟨fun f same => by cases same; exact small, ?_⟩
  rw [writeFile, lookup_setFd]
  simp only [here, Nat.sub_zero, Nat.zero_add, commute]
  exact congrArg (Prod.mk _) seek_setFd

end Descriptors

variable (resolve : CString → Option N) (memory : List Byte)

def number (path : CString) : Option Nat := (resolve path).bind s.entry

def contents (path : CString) : Option (List Byte) :=
  match s.number resolve path with
  | some i =>
    match s.node i with
    | .file bytes => some bytes
    | .dir => none
  | none => none

section Contents

variable {s resolve} {path : CString} {i : Nat} {bytes : List Byte}

theorem contents_of_file (here : s.number resolve path = some i) (file : s.node i = .file bytes) :
    s.contents resolve path = some bytes := by
  unfold contents
  simp only [here, file]

theorem number_of_contents (held : s.contents resolve path = some bytes) :
    ∃ i, s.number resolve path = some i ∧ s.node i = .file bytes := by
  unfold contents at held
  split at held
  · rename_i i here
    split at held
    · rename_i bytes' file
      cases held
      exact ⟨i, here, file⟩
    · cases held
  · cases held

end Contents

variable [DecidableEq N]

def openPath (path : CString) (omode : Word) : Answer × Store N :=
  match resolve path with
  | none => (refused, s)
  | some n =>
    match here : s.entry n with
    | some i =>
      if s.node i = .dir ∧ omode ≠ oRdonly then (refused, s)
      else s.openFile i (s.named n i here) omode
    | none =>
      if omode &&& oCreate = 0 then (refused, s)
      else (s.create n (.file [])).openFile s.next (Nat.lt_succ_self _) omode

def unlinkPath (path : CString) : Answer × Store N :=
  match resolve path with
  | none => (refused, s)
  | some n =>
    match (s.entry n).map s.node with
    | some (.file _) => (done 0 [], s.remove n)
    | _ => (refused, s)

def mkdirPath (path : CString) : Answer × Store N :=
  match resolve path with
  | none => (refused, s)
  | some n => if (s.entry n).isSome then (refused, s) else (done 0 [], s.create n .dir)

def serve (s : Store N) : Request → Answer × Store N
  | .open path omode => s.openPath resolve path omode
  | .close fd => s.closeFile fd
  | .read fd n => s.readFile fd n
  | .write fd bytes => s.writeFile fd bytes
  | .unlink path => s.unlinkPath resolve path
  | .mkdir path => s.mkdirPath resolve path
  | .isDir fd => s.isDirFile fd
  | .memory => (⟨0, 0, memory⟩, s)
  | _ => (done 0 [], s)

section Calls

variable {s resolve memory} {path : CString} {i : Nat} {fd : Fin descriptors} {Q : Int → Store N → Prop}

theorem openPath_number (omode : Word) (here : s.number resolve path = some i) (free : s.freeFd = some fd)
    (may : s.node i ≠ .dir ∨ omode = oRdonly) :
    ∃ known, s.openPath resolve path omode =
      (done fd [], s.setFd fd (some ⟨i, 0, omode &&& 1#32 = 0, omode &&& 3#32 ≠ 0⟩) known) := by
  obtain ⟨n, resolved, entry⟩ := Option.bind_eq_some_iff.mp here
  have allowed : ¬(s.node i = .dir ∧ omode ≠ oRdonly) := by
    rintro ⟨dir, mode⟩
    cases may with
    | inl file => exact file dir
    | inr same => exact mode same
  unfold openPath
  simp only [resolved]
  split
  · rename_i j entered
    cases entry.symm.trans entered
    rw [if_neg allowed]
    exact openFile_free _ omode free
  · rename_i missing
    cases entry.symm.trans missing

theorem isFileExist_there (here : s.number resolve path = some i) (free : s.freeFd = some fd) :
    (isFileExist path).Ends (serve resolve memory) s Q ↔ Q 1 s := by
  obtain ⟨known, opened⟩ := openPath_number oRdonly here free (.inr rfl)
  have nonneg : (fd : Int) ≠ -1 := by omega
  simp only [isFileExist, sysOpen, sysValue, sysClose, sysStatus, ask, Interact.ends_bind, Interact.ends_call, serve,
    opened, Interact.ends_pure, done_fd, if_neg nonneg, closeFile_setFd (fds_of_freeFd free)]

theorem isFileExist_missing (missing : s.number resolve path = none) :
    (isFileExist path).Ends (serve resolve memory) s Q ↔ Q 0 s := by
  have refusal : s.openPath resolve path oRdonly = (refused, s) := by
    unfold openPath
    split
    · rfl
    · rename_i n resolved
      split
      · rename_i i entry
        rw [number, resolved] at missing
        cases entry.symm.trans missing
      · rfl
  simp only [isFileExist, sysOpen, sysValue, ask, Interact.ends_bind, Interact.ends_call, serve, refusal,
    Interact.ends_pure, refused_value, if_true]

theorem isDir_file {bytes : List Byte} (here : s.number resolve path = some i) (file : s.node i = .file bytes)
    (free : s.freeFd = some fd) : (isDir path).Ends (serve resolve memory) s Q ↔ Q 0 s := by
  obtain ⟨known, opened⟩ := openPath_number oRdonly here free (.inr rfl)
  have regular : (s.setFd fd _ known).isDirFile fd = (done 0 [], s.setFd fd _ known) := by
    rw [isDirFile, lookup_setFd]
    have same : (s.setFd fd (some ⟨i, 0, _, _⟩) known).node i = .file bytes := file
    simp only [same]
  unfold isDir
  rw [Interact.ends_bind, isFileExist_there here free]
  simp only [sysOpen, sysValue, sysIsDir, sysClose, sysStatus, ask, Interact.ends_bind, Interact.ends_call, serve,
    opened, Interact.ends_pure, done_fd, regular, closeFile_setFd (fds_of_freeFd free), ne_eq, one_ne_zero,
    not_false_eq_true, if_true]
  exact Iff.rfl

end Calls

end Store

end Certikos.Shell
