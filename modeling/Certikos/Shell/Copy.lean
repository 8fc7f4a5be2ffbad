import Certikos.Shell.Store
import Mathlib.Data.List.Infix

/-!
# What `cp` and `mv` leave behind

`cp_file` reads at most 1000 bytes, into a buffer whose other bytes are what lay on the stack, and writes the string
that starts there over the old bytes of the destination.
-/

namespace Certikos.Shell
open Lib Store Function
open FileSys (cstring)

variable {N : Type} [DecidableEq N]

def written (memory source : List Byte) : List Byte :=
  cstring (source.take 1000 ++ memory.drop (source.take 1000).length)

def Store.put (s : Store N) (resolve : CString → Option N) (path : CString) (bytes : List Byte) : Store N :=
  match resolve path with
  | none => s
  | some n =>
    match s.entry n with
    | some i => s.setNode i (.file (overwrite ((s.contents resolve path).getD []) 0 bytes))
    | none => (s.create n (.file [])).setNode s.next (.file (overwrite [] 0 bytes))

def Store.Regular (s : Store N) (resolve : CString → Option N) (path : CString) : Prop :=
  ∀ i, s.number resolve path = some i → ∃ bytes, s.node i = .file bytes

variable {s : Store N} {resolve : CString → Option N} {memory : List Byte} {path src dest : CString} {i : Nat}
  {fd : Fin descriptors} {bytes new : List Byte} {Q : Int → Store N → Prop}

def writeOut (dest : CString) (bytes : List Byte) : ShellM Int := do
  let fd ← sysOpen dest (oCreate ||| oRdwr)
  let _ ← sysWrite fd bytes
  let _ ← sysClose fd
  pure 0

theorem writeOut_of_open {t : Store N} (free : t.freeFd = some fd) (file : t.node i = .file bytes)
    {known : ∀ f, some (⟨i, 0, true, true⟩ : OpenFile) = some f → f.ino < t.next}
    (opened : s.openPath resolve dest (oCreate ||| oRdwr) = (done fd [], t.setFd fd (some ⟨i, 0, true, true⟩) known)) :
    (writeOut dest new).Ends (serve resolve memory) s Q ↔ Q 0 (t.setNode i (.file (overwrite bytes 0 new))) := by
  obtain ⟨known', wrote⟩ := writeFile_setFd fd new file known
  have closed := fds_of_freeFd free
  simp only [writeOut, sysOpen, sysWrite, sysValue, sysClose, sysStatus, ask, Interact.ends_bind, Interact.ends_call,
    Interact.ends_pure, serve, opened, done_fd, wrote]
  rw [closeFile_setFd (s := t.setNode i (.file (overwrite bytes 0 new))) closed]

theorem writeOut_put (regular : s.Regular resolve dest) (free : s.freeFd = some fd) :
    (writeOut dest new).Ends (serve resolve memory) s Q ↔ Q 0 (s.put resolve dest new) := by
  cases resolved : resolve dest with
  | none =>
    have refusal : s.openPath resolve dest (oCreate ||| oRdwr) = (refused, s) := by
      unfold openPath
      simp only [resolved]
    have write : s.writeFile (-1) new = (refused, s) := rfl
    have close : s.closeFile (-1) = (refused, s) := rfl
    simp only [writeOut, sysOpen, sysWrite, sysValue, sysClose, sysStatus, ask, Interact.ends_bind,
      Interact.ends_call, Interact.ends_pure, serve, refusal, refused_value, write, close, Store.put, resolved]
  | some n =>
    cases entry : s.entry n with
    | some i =>
      have here : s.number resolve dest = some i := by rw [number, resolved]; exact entry
      obtain ⟨bytes, file⟩ := regular i here
      obtain ⟨known, opened⟩ := openPath_number (oCreate ||| oRdwr) here free (.inl fun dir => by
        rw [file] at dir
        cases dir)
      have old : (s.contents resolve dest).getD [] = bytes := by
        unfold contents
        simp only [here, file, Option.getD_some]
      rw [writeOut_of_open free file opened]
      unfold Store.put
      simp only [resolved, entry, old]
    | none =>
      have made : (s.create n (.file [])).node s.next = .file [] := update_self ..
      obtain ⟨known, opened⟩ := openFile_free (s := s.create n (.file [])) (Nat.lt_succ_self s.next)
        (oCreate ||| oRdwr) free
      have create : s.openPath resolve dest (oCreate ||| oRdwr) =
          (s.create n (.file [])).openFile s.next (Nat.lt_succ_self _) (oCreate ||| oRdwr) := by
        unfold openPath
        simp only [resolved]
        split
        · rename_i i found
          cases entry.symm.trans found
        · rfl
      rw [writeOut_of_open (t := s.create n (.file [])) free made (create.trans opened)]
      unfold Store.put
      simp only [resolved, entry]

/-! ## The store after a copy -/

theorem number_put (dest : CString) (new : List Byte) (here : s.number resolve path = some i) :
    (s.put resolve dest new).number resolve path = some i := by
  obtain ⟨n, resolved, entry⟩ := Option.bind_eq_some_iff.mp here
  rw [number, resolved]
  unfold Store.put
  split
  · exact entry
  · rename_i m target
    split
    · exact entry
    · rename_i missing
      have other : n ≠ m := by
        rintro rfl
        cases entry.symm.trans missing
      show update s.entry m _ n = some i
      rw [update_of_ne other]
      exact entry

theorem file_put (resolve : CString → Option N) (dest : CString) (new : List Byte)
    (file : s.node i = .file bytes) (below : i < s.next) : ∃ bytes', (s.put resolve dest new).node i = .file bytes' := by
  unfold Store.put
  split
  · exact ⟨bytes, file⟩
  · split
    · rename_i j entry
      by_cases same : i = j
      · subst same
        exact ⟨_, update_self ..⟩
      · exact ⟨bytes, (update_of_ne same ..).trans file⟩
    · have other : i ≠ s.next := ne_of_lt below
      refine ⟨bytes, ?_⟩
      show update (update s.node s.next _) s.next _ i = _
      rw [update_of_ne other, update_of_ne other]
      exact file

theorem contents_put {n : N} (resolved : resolve dest = some n) : (s.put resolve dest new).contents resolve dest =
      some (overwrite ((s.contents resolve dest).getD []) 0 new) := by
  unfold Store.put
  simp only [resolved]
  cases entry : s.entry n with
  | some i =>
    have here : s.number resolve dest = some i := by rw [number, resolved]; exact entry
    exact contents_of_file (s := s.setNode i _) here (update_self ..)
  | none =>
    have missing : s.contents resolve dest = none := by
      unfold contents number
      simp only [resolved, Option.bind_some, entry]
    rw [missing]
    have here : (s.create n (.file [])).number resolve dest = some s.next := by
      rw [number, resolved]
      exact update_self ..
    exact contents_of_file (s := (s.create n (.file [])).setNode s.next _) here (update_self ..)

theorem contents_put_none (resolved : resolve dest = none) : (s.put resolve dest new).contents resolve dest = none := by
  unfold contents number
  simp only [resolved, Option.bind_none]

theorem contents_remove {n : N} (resolved : resolve path = some n) {m : N} :
    (s.remove m).contents resolve path = if n = m then none else s.contents resolve path := by
  unfold contents number
  simp only [resolved, Option.bind_some]
  by_cases same : n = m
  · have gone : (s.remove m).entry n = none := by
      rw [same]
      exact update_self ..
    simp only [gone, if_pos same]
  · have kept : (s.remove m).entry n = s.entry n := update_of_ne same ..
    simp only [kept, if_neg same]
    rfl

/-! ## The commands -/

theorem cpFile_put (here : s.number resolve src = some i) (file : s.node i = .file bytes)
    (regular : s.Regular resolve dest) (free : s.freeFd = some fd) :
    (cpFile dest src).Ends (serve resolve memory) s Q ↔ Q 0 (s.put resolve dest (written memory bytes)) := by
  obtain ⟨known, opened⟩ : ∃ known, s.openPath resolve src oRdonly =
    (done fd [], s.setFd fd (some ⟨i, 0, true, false⟩) known) := openPath_number oRdonly here free (.inr rfl)
  obtain ⟨known', read⟩ := readFile_setFd fd 1000 file known
  unfold cpFile
  rw [Interact.ends_bind, isDir_file here file free, if_neg (not_not.mpr rfl)]
  show Interact.Ends _ (do
    let fd ← sysOpen src oRdonly
    let read ← sysRead fd 1000
    let _ ← sysClose fd
    writeOut dest (cstring read.2)) s Q ↔ _
  simp only [Interact.ends_bind, sysOpen, sysValue, sysRead, sysClose, sysStatus, ask, Interact.ends_call,
    Interact.ends_pure, serve, opened, done_fd, read, closeFile_setFd (fds_of_freeFd free)]
  have all : ((bytes.take 1000).take 1000) = bytes.take 1000 := by rw [List.take_take, min_self]
  simp only [done, all]
  exact writeOut_put regular free

theorem isDirThere_regular (regular : s.Regular resolve dest) (free : s.freeFd = some fd) :
    (isDirThere dest).Ends (serve resolve memory) s Q ↔ Q 0 s := by
  unfold isDirThere
  rw [Interact.ends_bind]
  cases there : s.number resolve dest with
  | none =>
    rw [isFileExist_missing there, if_neg (not_not.mpr rfl)]
    exact Interact.ends_pure
  | some i =>
    obtain ⟨bytes, file⟩ := regular i there
    rw [isFileExist_there there free, if_pos one_ne_zero]
    exact isDir_file there file free

variable {fuel : Nat}

section

variable (here : s.number resolve src = some i) (file : s.node i = .file bytes) (regular : s.Regular resolve dest)
  (free : s.freeFd = some fd)
include here file regular free

theorem shellCpPath_put : (shellCpPath (fuel + 1) dest src false).Ends (serve resolve memory) s Q ↔
      Q 0 (s.put resolve dest (written memory bytes)) := by
  unfold shellCpPath
  rw [Interact.ends_bind, isFileExist_there here free, if_neg one_ne_zero, Interact.ends_bind,
    isDir_file here file free, if_neg Bool.false_ne_true, if_neg (not_not.mpr rfl), Interact.ends_bind,
    isDirThere_regular regular free, if_neg (not_not.mpr rfl), Interact.ends_bind, cpFile_put here file regular free]
  exact Interact.ends_pure

theorem shellCpPath_put_recursive : (shellCpPath (fuel + 2) dest src true).Ends (serve resolve memory) s Q ↔
      Q 0 (s.put resolve dest (written memory bytes)) := by
  unfold shellCpPath
  rw [Interact.ends_bind, isFileExist_there here free, if_neg one_ne_zero, Interact.ends_bind,
    isDir_file here file free, if_pos rfl, if_neg (not_not.mpr rfl), Interact.ends_bind,
    shellCpPath_put here file regular free]
  exact Interact.ends_pure

end

theorem freeFd_put : (s.put resolve dest new).freeFd = s.freeFd := by
  unfold Store.put
  split
  · rfl
  · split
    · rfl
    · rfl

theorem shellRmPath_file {n : N} (resolved : resolve src = some n) (entry : s.entry n = some i)
    (file : s.node i = .file bytes) (free : s.freeFd = some fd) :
    (shellRmPath (fuel + 1) src false).Ends (serve resolve memory) s Q ↔ Q 0 (s.remove n) := by
  have here : s.number resolve src = some i := by rw [number, resolved]; exact entry
  have unlinked : s.unlinkPath resolve src = (done 0 [], s.remove n) := by
    unfold unlinkPath
    simp only [resolved, entry, Option.map_some, file]
  unfold shellRmPath
  rw [Interact.ends_bind, isDir_file here file free, if_neg Bool.false_ne_true, if_neg (not_not.mpr rfl)]
  simp only [rmFile, sysUnlink, sysStatus, ask, Interact.ends_bind, Interact.ends_call, Interact.ends_pure, serve,
    unlinked]
  exact Iff.rfl

theorem shellMv_put {n : N} (resolved : resolve src = some n) (entry : s.entry n = some i)
    (file : s.node i = .file bytes) (regular : s.Regular resolve dest) (free : s.freeFd = some fd) :
    (shellMv (fuel + 2) [src, dest]).Ends (serve resolve memory) s Q ↔
      Q 0 ((s.put resolve dest (written memory bytes)).remove n) := by
  have here : s.number resolve src = some i := by rw [number, resolved]; exact entry
  have still : (s.put resolve dest (written memory bytes)).entry n = some i := by
    have after := number_put dest (written memory bytes) here
    rw [number, resolved] at after
    exact after
  obtain ⟨bytes', file'⟩ := file_put resolve dest (written memory bytes) file
    (s.named n i entry)
  unfold shellMv shellMvPath
  rw [Interact.ends_bind, isFileExist_there here free, if_neg one_ne_zero, Interact.ends_bind,
    isDir_file here file free, if_neg (not_not.mpr rfl), Interact.ends_bind,
    shellCpPath_put_recursive here file regular free, Interact.ends_bind,
    shellRmPath_file resolved still file' (freeFd_put.trans free)]
  exact Interact.ends_pure

/-! ## When the bytes are kept -/

theorem overwrite_eq_iff {old source : List Byte} : overwrite old 0 new = source ↔ new.take maxBytes <+: source ∧
        old.drop (new.take maxBytes).length = source.drop (new.take maxBytes).length := by
  have start : overwrite old 0 new = new.take maxBytes ++ old.drop (new.take maxBytes).length := by
    unfold overwrite
    simp only [List.take_zero, List.nil_append, Nat.sub_zero, Nat.zero_add]
  rw [start]
  generalize new.take maxBytes = w
  constructor
  · rintro rfl
    exact ⟨List.prefix_append w _, (List.drop_left).symm⟩
  · rintro ⟨⟨rest, rfl⟩, same⟩
    rw [same, List.drop_left]

structure Copies (s : Store N) (resolve : CString → Option N) (memory : List Byte) (dest : CString)
    (source : List Byte) : Prop where
  placed : (resolve dest).isSome
  start : (written memory source).take maxBytes <+: source
  rest : ((s.contents resolve dest).getD []).drop ((written memory source).take maxBytes).length =
    source.drop ((written memory source).take maxBytes).length

theorem contents_put_iff {source : List Byte} :
    (s.put resolve dest (written memory source)).contents resolve dest = some source ↔
      Copies s resolve memory dest source := by
  cases resolved : resolve dest with
  | none =>
    rw [contents_put_none resolved]
    apply iff_of_false
    · intro held
      cases held
    · intro copies
      have placed := copies.placed
      rw [resolved] at placed
      cases placed
  | some n =>
    rw [contents_put resolved, Option.some.injEq, overwrite_eq_iff]
    constructor
    · rintro ⟨start, rest⟩
      exact ⟨by rw [resolved]; rfl, start, rest⟩
    · intro copies
      exact ⟨copies.start, copies.rest⟩

/-- After `mv` the destination holds the source exactly if it was copied and is another entry; the source is removed in
every case. -/
theorem cp_mv_preserve_iff (s : Store N) (resolve : CString → Option N) (memory : List Byte) (src dest : CString)
    (source : List Byte) (room : ∃ fd, s.fds fd = none) (held : s.contents resolve src = some source)
    (regular : s.Regular resolve dest) :
    ((cpFile dest src).Ends (serve resolve memory) s fun _ after =>
      after.contents resolve dest = some source ↔ Copies s resolve memory dest source) ∧
    ∃ fuel, (shellMv fuel [src, dest]).Ends (serve resolve memory) s fun _ after =>
      after.contents resolve src = none ∧
        (after.contents resolve dest = some source ↔
          Copies s resolve memory dest source ∧ resolve dest ≠ resolve src) := by
  obtain ⟨fd, free⟩ := exists_freeFd room
  obtain ⟨i, here, file⟩ := number_of_contents held
  obtain ⟨n, resolved, entry⟩ := Option.bind_eq_some_iff.mp here
  refine ⟨(cpFile_put here file regular free).mpr contents_put_iff, 2,
    (shellMv_put resolved entry file regular free).mpr ⟨?_, ?_⟩⟩
  · rw [contents_remove resolved, if_pos rfl]
  · rw [← contents_put_iff]
    cases target : resolve dest with
    | none =>
      have nothing : ((s.put resolve dest (written memory source)).remove n).contents resolve dest = none := by
        unfold contents number
        simp only [target, Option.bind_none]
      rw [nothing, contents_put_none target]
      constructor
      · intro held
        cases held
      · rintro ⟨held, -⟩
        cases held
    | some m =>
      rw [contents_remove target, resolved, ne_eq, Option.some.injEq]
      by_cases same : m = n
      · rw [if_pos same]
        constructor
        · intro held
          cases held
        · rintro ⟨-, other⟩
          exact absurd same other
      · rw [if_neg same]
        constructor
        · intro held
          exact ⟨held, same⟩
        · rintro ⟨held, -⟩
          exact held

def twoEntries (bytes : List Byte) : Store Bool where
  entry a := if a then some 0 else none
  node _ := .file bytes
  fds _ := none
  next := 1
  named := by decide
  opened := fun _ _ absurdly => nomatch absurdly

def isA (path : CString) : Option Bool := some (path = ascii "a")

theorem cp_mv_preserve_iff_short :
    Copies (twoEntries [65]) isA [] (ascii "b") [65] ∧
      (cpFile (ascii "b") (ascii "a")).Ends (serve isA []) (twoEntries [65]) fun _ after =>
        after.contents isA (ascii "b") = some [65] := by
  have copies : Copies (twoEntries [65]) isA [] (ascii "b") [65] := ⟨rfl, by decide, by decide⟩
  have missing : (twoEntries [65]).number isA (ascii "b") = none := by decide
  have kept := (cp_mv_preserve_iff (twoEntries [65]) isA [] (ascii "a") (ascii "b") [65] ⟨0, rfl⟩ (by decide)
    fun i here => by cases missing.symm.trans here).1
  exact ⟨copies, kept.mono fun _ after same => same.2 copies⟩

theorem mv_loses :
    ((shellMv 2 [ascii "a", ascii "b"]).exec (serve isA []) (twoEntries [0, 65])).toOption.map
      (fun r => (r.2.contents isA (ascii "a"), r.2.contents isA (ascii "b"))) = some (none, some []) ∧
    ((cpFile (ascii "b") (ascii "a")).exec (serve isA []) (twoEntries [0, 65])).toOption.map
      (fun r => (r.2.contents isA (ascii "a"), r.2.contents isA (ascii "b"))) = some (some [0, 65], some []) := by
  decide +kernel

/-! ## `append` -/

def appended (memory source text : List Byte) : List Byte :=
  let n := (source.take 1000).length
  let memory := source.take 1000 ++ memory.drop n
  let memory := if n = 0 then memory.set 0 0 else memory
  cstring (memory.take n ++ text ++ memory.drop (n + text.length))

def Appends (memory source text : List Byte) : Prop :=
  if text = [] then source = [] ∨ (written memory source).take maxBytes <+: source
  else source.length + text.length ≤ 1000 ∧ 0#8 ∉ source ∧ cstring (memory.drop (source.length + text.length)) = []

theorem shellAppend_ends {text : CString} (here : s.number resolve path = some i) (file : s.node i = .file bytes)
    (free : s.freeFd = some fd) : (shellAppend [text, path]).Ends (serve resolve memory) s Q ↔
      (bytes.take 1000).length + text.length ≤ 1000 ∧
        Q 0 (s.setNode i (.file (overwrite bytes 0 (appended memory bytes text)))) := by
  have regular : s.node i ≠ .dir := by
    intro dir
    cases file.symm.trans dir
  obtain ⟨known, opened⟩ : ∃ known, s.openPath resolve path oRdonly =
    (done fd [], s.setFd fd (some ⟨i, 0, true, false⟩) known) := openPath_number oRdonly here free (.inr rfl)
  obtain ⟨known', read⟩ := readFile_setFd fd 1000 file known
  obtain ⟨known'', reopened⟩ : ∃ known, s.openPath resolve path (oCreate ||| oRdwr) =
    (done fd [], s.setFd fd (some ⟨i, 0, true, true⟩) known) := 
    openPath_number (oCreate ||| oRdwr) here free (.inl regular)
  obtain ⟨_, wrote⟩ := writeFile_setFd fd (appended memory bytes text) file known''
  have closed := fds_of_freeFd free
  have nonneg : ¬(fd : Int) < 0 := by omega
  have small : (bytes.take 1000).length < 2 ^ 31 := by
    rw [List.length_take]
    omega
  have all : ((bytes.take 1000).take 1000) = bytes.take 1000 := by rw [List.take_take, min_self]
  have bytesDone : (done (bytes.take 1000).length (bytes.take 1000)).bytes = bytes.take 1000 := rfl
  have sum : ((bytes.take 1000).length : Int) + text.length ≤ 1000 ↔
      (bytes.take 1000).length + text.length ≤ 1000 := by omega
  simp only [shellAppend, List.getElem?_cons_zero, deref, sysOpen, sysWrite, sysValue, sysRead, sysClose, sysStatus,
    ask, Interact.ends_bind, Interact.ends_call, Interact.ends_pure, serve, opened, done_fd, read,
    closeFile_setFd closed, if_neg nonneg, reopened, Int.natCast_nonneg, if_true, done_value small, bytesDone, all,
    appendText, true_and, sum, Int.toNat_natCast, Int.natCast_eq_zero]
  by_cases fits : (bytes.take 1000).length + text.length ≤ 1000
  · rw [if_pos fits, Interact.ends_pure]
    show Q 0 ((Store.writeFile _ fd (appended memory bytes text)).2.closeFile fd).2 ↔ _
    rw [wrote, closeFile_setFd (s := s.setNode i _) closed, and_iff_right fits]
  · rw [if_neg fits]
    exact iff_of_false Interact.ends_stop fun both => fits both.1

theorem appended_nil : appended memory bytes [] = if bytes = [] then [] else written memory bytes := by
  unfold appended written
  cases bytes with
  | nil =>
    cases memory with
    | nil => rfl
    | cons c memory => rfl
  | cons c bytes => simp

theorem overwrite_append_iff {text : List Byte} (nonempty : text ≠ []) (fits : bytes.length + text.length ≤ 1000) :
    overwrite bytes 0 new = bytes ++ text ↔ new = bytes ++ text := by
  rw [overwrite_eq_iff]
  have := List.length_pos_iff.mpr nonempty
  constructor
  · rintro ⟨start, rest⟩
    have lengths := congrArg List.length rest
    simp only [List.length_drop, List.length_append] at lengths
    have whole : new.take maxBytes = bytes ++ text := by
      refine start.eq_of_length_le ?_
      rw [List.length_append]
      omega
    rw [← whole]
    refine (List.take_of_length_le ?_).symm
    have size := congrArg List.length whole
    rw [List.length_take, List.length_append] at size
    simp only [maxBytes] at size ⊢
    omega
  · rintro rfl
    have short : (bytes ++ text).length ≤ maxBytes := by
      simp only [List.length_append, maxBytes]
      omega
    rw [List.take_of_length_le short, List.drop_length, List.drop_of_length_le]
    · exact ⟨List.prefix_rfl, rfl⟩
    · rw [List.length_append]
      omega

theorem cstring_append_iff : cstring (bytes ++ new) = bytes ↔ 0#8 ∉ bytes ∧ cstring new = [] := by
  by_cases plain : 0#8 ∉ bytes
  · have all : ∀ c ∈ bytes, decide (c ≠ 0) := by
      intro c member
      refine decide_eq_true ?_
      rintro rfl
      exact plain member
    rw [and_iff_right plain, cstring, List.takeWhile_append_of_pos all, List.append_right_eq_self]
    rfl
  · refine iff_of_false (fun same => plain fun zero => ?_) fun both => plain both.1
    rw [← same] at zero
    have kept := List.all_eq_true.mp (List.all_takeWhile (p := fun c => decide (c ≠ 0#8))) 0#8 zero
    simp at kept

theorem appended_eq_iff {text : CString} (string : 0#8 ∉ text) (nonempty : text ≠ [])
    (fits : bytes.length + text.length ≤ 1000) : appended memory bytes text = bytes ++ text ↔
      0#8 ∉ bytes ∧ cstring (memory.drop (bytes.length + text.length)) = [] := by
  have := List.length_pos_iff.mpr nonempty
  have whole : bytes.take 1000 = bytes := List.take_of_length_le (by omega)
  have same : appended memory bytes text = cstring (bytes ++ text ++ memory.drop (bytes.length + text.length)) := by
    unfold appended
    rw [whole]
    cases bytes with
    | nil => simp [List.drop_set_of_lt this]
    | cons c bytes =>
      simp only [if_neg (show (c :: bytes).length ≠ 0 from Nat.succ_ne_zero _), List.take_left]
      rw [List.drop_append, List.drop_of_length_le (Nat.le_add_right ..), List.drop_drop, Nat.add_sub_cancel_left]
      rfl
  rw [same, cstring_append_iff, List.mem_append, not_or, and_iff_left string]

theorem append_iff (s : Store N) (resolve : CString → Option N) (memory : List Byte) (path text : CString)
    (source : List Byte) (room : ∃ fd, s.fds fd = none) (held : s.contents resolve path = some source)
    (string : 0#8 ∉ text) :
    ((shellAppend [text, path]).Ends (serve resolve memory) s fun _ after =>
      after.contents resolve path = some (source ++ text)) ↔ Appends memory source text := by
  obtain ⟨fd, free⟩ := exists_freeFd room
  obtain ⟨i, here, file⟩ := number_of_contents held
  have after : (s.setNode i (.file (overwrite source 0 (appended memory source text)))).contents resolve path =
      some (overwrite source 0 (appended memory source text)) :=
    contents_of_file (s := s.setNode i _) here (update_self ..)
  rw [shellAppend_ends here file free, after, Option.some.injEq, Appends]
  by_cases empty : text = []
  · subst empty
    have fits : (source.take 1000).length + ([] : CString).length ≤ 1000 := by
      rw [List.length_take]
      exact Nat.min_le_left ..
    rw [if_pos rfl, List.append_nil, overwrite_eq_iff, appended_nil, and_iff_right fits, and_iff_left rfl]
    by_cases none : source = []
    · rw [if_pos none]
      exact iff_of_true (List.nil_prefix) (.inl none)
    · rw [if_neg none, or_iff_right none]
  · have := List.length_pos_iff.mpr empty
    have fits : (source.take 1000).length + text.length ≤ 1000 ↔ source.length + text.length ≤ 1000 := by
      rw [List.length_take]
      omega
    rw [if_neg empty, fits]
    refine and_congr_right fun fits => ?_
    rw [overwrite_append_iff empty fits, appended_eq_iff string empty fits]

theorem append_iff_short :
    Appends [] [65] (ascii "b") ∧
      (shellAppend [ascii "b", ascii "a"]).Ends (serve isA []) (twoEntries [65]) fun _ after =>
        after.contents isA (ascii "a") = some [65, 98] := by
  have appends : Appends [] [65] (ascii "b") := ⟨by decide, by decide, rfl⟩
  exact ⟨appends, (append_iff (twoEntries [65]) isA [] (ascii "a") (ascii "b") [65] ⟨0, rfl⟩ (by decide)
    (by decide)).mpr appends⟩

theorem append_spills :
    ((shellAppend [ascii "b", ascii "a"]).exec (serve isA [0, 0, 67]) (twoEntries [65])).toOption.map
      (fun r => r.2.contents isA (ascii "a")) = some (some [65, 98, 67]) ∧
    ((shellAppend [ascii "b", ascii "a"]).exec (serve isA []) (twoEntries [65, 0])).toOption.map
      (fun r => r.2.contents isA (ascii "a")) = some (some [65, 0]) := by
  decide +kernel

end Certikos.Shell
