import Certikos.FileSys.Replies
import Certikos.Ipc.System
import Certikos.Trap.System

/-!
# The system call convention

`syscall_dispatch`, with every handler as far as the trap frame and the writes to kernel memory at computed addresses
go.
-/

namespace Certikos
open Lib

def SyscallNr.all : List SyscallNr :=
  [.puts, .spawn, .yield, .produce, .consume, .open, .close, .read, .write, .mkdir, .chdir, .link, .unlink, .stat,
    .syncSend, .syncRecv, .isDir, .ls, .mv, .rm, .pwd, .cp, .cat, .touch, .readline, .sigaction, .kill, .pause,
    .sigreturn]

def SyscallNr.ofCode (nr : Word) : Option SyscallNr := SyscallNr.all.find? fun n => n.code = nr

/-! ## Where the user copies write -/

section Touched

variable (pid : Nat)

def elfPageTouched (perm : Nat) (ph zva : Word) (s : VmState) (va fa : Word) : List Touch :=
  let s := (allocPage s pid va perm).1
  if va < rounddown zva 4096#32 then (ptCopyout s fa pid va 4096#32).touched
  else if va < zva ∧ readWord s.mem (ph + 16#32) ≠ 0#32 then
    (ptMemset s pid va 0 4096#32).touched ++ (ptCopyout (ptMemset s pid va 0 4096#32).vm fa pid va (zva - va)).touched
  else (ptMemset s pid va 0 4096#32).touched

def elfPagesTouched (perm : Nat) (ph zva : Word) : Nat → VmState → (va fa : Word) → List Touch
  | 0, _, _, _ => []
  | n + 1, s, va, fa =>
    elfPageTouched pid perm ph zva s va fa ++
      elfPagesTouched perm ph zva n (elfLoadPage pid perm ph zva s va fa) (va + 4096#32) (fa + 4096#32)

def elfSegmentTouched (exe : Word) (s : VmState) (ph : Word) : List Touch :=
  if readWord s.mem ph ≠ elfProgLoad then []
  else
    let pVa := readWord s.mem (ph + 8#32)
    let fa := exe + rounddown (readWord s.mem (ph + 4#32)) 4096#32
    let va := rounddown pVa 4096#32
    let zva := pVa + readWord s.mem (ph + 16#32)
    let eva := roundup (pVa + readWord s.mem (ph + 20#32)) 4096#32
    let write := if readWord s.mem (ph + 24#32) &&& elfProgFlagWrite ≠ 0#32 then pteW else 0
    elfPagesTouched pid (pteU + pteP + write) ph zva ((eva.toNat - va.toNat) / pageSize) s va fa

def elfSegmentsTouched (exe : Word) : Nat → VmState → (ph : Word) → List Touch
  | 0, _, _ => []
  | n + 1, s, ph =>
    elfSegmentTouched pid exe s ph ++ elfSegmentsTouched exe n (elfLoadSegment exe pid s ph) (ph + 32#32)

def elfTouched (s : VmState) (exe : Word) : List Touch :=
  let ph := exe + readWord s.mem (exe + 28#32)
  let eph := ph + 32#32 * readHalf s.mem (exe + 44#32)
  elfSegmentsTouched pid exe ((eph.toNat - ph.toNat) / 32) s ph

def ipcTouched (L : IpcLayout) (sourcePid : Nat) :
    (fuel : Nat) → VmState → (destUserAddr sourceUserAddr length : Word) → List Touch
  | 0, _, _, _, _ => []
  | fuel + 1, s, destUserAddr, sourceUserAddr, length =>
    if length.toInt > 0 then
      let len := if length.toInt < msgBufSize then length else BitVec.ofNat 32 msgBufSize
      let s := (ptCopyin s sourcePid sourceUserAddr L.msgBuf len).vm
      let out := ptCopyout s L.msgBuf pid destUserAddr len
      out.touched ++ ipcTouched L sourcePid fuel out.vm (destUserAddr + len) (sourceUserAddr + len) (length - len)
    else []

end Touched

/-! ## Calls -/

/-- What a system call meets, with what happens to lie in uninitialised variables. `sysBuf` is the address of
`sys_buf[cur_pid]`. -/
structure Call where
  images : Nat → Word
  k : KState
  junk : Nat
  buf : LocalBuf
  line : Option (Word × Word)
  sysBuf : Word
  kernBuf : Word
  ipc : IpcLayout
  messages : Messages
  path : List Byte
  newPath : List Byte
  data : List Byte
  stack : List Byte
  reply : FileSys.Reply
  names : List Byte

def FileSys.Reply.frame (r : FileSys.Reply) (tf : TrapFrame) : TrapFrame :=
  let tf := match r.errno with
    | some e => syscallSetErrno tf e
    | none => tf
  match r.retval with
  | some v => syscallSetRetval1 tf v
  | none => tf

def putsBytes (remain : Word) : Word :=
  if remain.toNat < pageSize - 1 then remain else BitVec.ofNat 32 (pageSize - 1)

/-- The loop of `sys_puts`: the error number, and how many bytes each round has put into `sys_buf`. -/
def putsLoop (sysBuf : Word) (pid : Nat) : Nat → VmState → (remain curPos : Word) → ErrorNr × List Word
  | 0, _, _, _ => (.succ, [])
  | fuel + 1, vm, remain, curPos =>
    if remain = 0#32 then (.succ, [])
    else
      let nbytes := putsBytes remain
      let r := ptCopyin vm pid curPos sysBuf nbytes
      if r.copied ≠ nbytes then (.mem, [])
      else
        let vm := { r.vm with mem := writeBytes r.vm.mem (sysBuf + nbytes) [0] }
        let rest := putsLoop sysBuf pid fuel vm (remain - nbytes) (curPos + nbytes)
        (rest.1, nbytes :: rest.2)

def sysPuts (sysBuf : Word) (vm : VmState) (pid : Nat) (tf : TrapFrame) : ErrorNr × List Word :=
  let strUva := syscallGetArg2 tf
  let strLen := syscallGetArg3 tf
  if ¬(BitVec.ofNat 32 vmUserlo ≤ strUva ∧ strUva + strLen ≤ BitVec.ofNat 32 vmUserhi) then (.invalAddr, [])
  else putsLoop sysBuf pid strLen.toNat vm strLen strUva

def rmLength (tf : TrapFrame) : Int :=
  let length := (syscallGetArg3 tf).toInt
  if length < pageSize - 1 then length else pageSize - 1

namespace Call

variable (c : Call) (tf : TrapFrame)

def curPid : Nat := getCurid c.k.thread

def fileTrap : SyscallNr → Option FileSys.Trap
  | .open => some (.open c.path (syscallGetArg3 tf))
  | .close => some (.close (syscallGetArg2 tf))
  | .read => some (.read (syscallGetArg2 tf) (syscallGetArg3 tf) (syscallGetArg4 tf))
  | .write => some (.write (syscallGetArg2 tf) (syscallGetArg3 tf) (syscallGetArg4 tf) c.data)
  | .mkdir => some (.mkdir c.path)
  | .chdir => some (.chdir c.path)
  | .link => some (.link c.path c.newPath)
  | .unlink => some (.unlink c.path)
  | .stat => some (.fstat (syscallGetArg2 tf) (syscallGetArg3 tf))
  | .isDir => some (.isDir (syscallGetArg2 tf))
  | .ls => some (.ls (syscallGetArg3 tf) c.stack)
  | .pwd => some (.pwd c.stack)
  | _ => none

def Possible : SyscallNr → Prop
  | .ls => ∃ dp, (FileSys.lsLoop dp c.stack FileSys.direntFuel 0).Yields c.names ∧
      c.reply = FileSys.lsReply (syscallGetArg3 tf) c.names
  | n => ∀ t, c.fileTrap tf n = some t → (FileSys.trap t).Yields c.reply

def copyLength : Word :=
  let sendLength := (c.messages.msgBlock (syscallGetArg2 tf).toNat).length
  if sendLength < syscallGetArg4 tf then sendLength else syscallGetArg4 tf

def handle : SyscallNr → Option TrapFrame
  | .puts => some (syscallSetErrno tf (sysPuts c.sysBuf c.k.vm c.curPid tf).1)
  | .spawn => (sysSpawn c.images c.k tf c.junk).toOption.map Prod.snd
  | .yield => (threadYield c.k.thread).toOption.map fun _ => syscallSetErrno tf .succ
  | .produce | .consume | .syncSend => some (syscallSetErrno tf .succ)
  | .syncRecv => some (syscallSetRetval1 (syscallSetErrno tf .succ) (c.copyLength tf))
  | .open | .close | .read | .write | .mkdir | .chdir | .link | .unlink | .stat | .isDir | .ls | .pwd =>
    some (c.reply.frame tf)
  | .mv | .rm | .cp | .cat | .touch => some tf
  | .readline => (sysReadline c.buf c.k tf c.line).toOption.map Prod.snd
  | .sigaction => some (sysSigaction c.buf c.k tf).2
  | .kill => some (sysKill c.k.thread tf).2
  | .pause => (sysPause c.k.thread tf).toOption.map Prod.snd
  | .sigreturn => some (sysSigreturn c.buf c.k tf).2

def spawnTouched : Nat × List Touch :=
  let elfId := syscallGetArg2 tf
  let quota := syscallGetArg3 tf
  let (vm, pid) := containerSplit c.k.vm c.curPid quota
  if containerCanConsume c.k.vm c.junk quota = false ∨ numIds < c.curPid * maxChildren + 1 + maxChildren ∨
      containerGetNchildren c.k.vm c.junk = BitVec.ofNat 32 maxChildren ∨ ¬(1 ≤ elfId.toNat ∧ elfId.toNat ≤ 8) ∨
      numIds ≤ pid then (pid, [])
  else (pid, elfTouched pid vm (c.images elfId.toNat))

def copyTouched : SyscallNr → List Touch
  | .read =>
    if c.reply.out = [] then []
    else
      (ptCopyout c.k.vm c.kernBuf c.curPid (syscallGetArg3 tf) (BitVec.ofNat 32 c.reply.out.length)).touched
  | .ls => (ptCopyout c.k.vm c.sysBuf c.curPid (syscallGetArg2 tf) (c.reply.retval.getD 0)).touched
  | .pwd =>
    (ptCopyout c.k.vm c.buf.addr c.curPid (syscallGetArg1 tf) (BitVec.ofNat 32 c.reply.out.length)).touched
  | .syncRecv =>
    let sendPid := (syscallGetArg2 tf).toNat
    ipcTouched c.curPid c.ipc sendPid (c.copyLength tf).toNat c.k.vm (syscallGetArg3 tf)
      (c.messages.msgBlock sendPid).bufferAddr (c.copyLength tf)
  | .readline =>
    match c.line with
    | none =>
      let vm := { c.k.vm with mem := writeBytes c.k.vm.mem c.buf.addr [0] }
      (ptCopyout vm c.buf.addr c.curPid (syscallGetArg2 tf) 1#32).touched
    | some (kernbuf, nLen) => (ptCopyout c.k.vm kernbuf c.curPid (syscallGetArg2 tf) nLen).touched
  | .sigaction =>
    let signum := (syscallGetArg2 tf).toInt
    if signum < 1 ∨ signum ≥ nsig ∨ syscallGetArg4 tf = 0#32 then []
    else
      match tcbGetSigaction c.k.thread c.curPid signum with
      | none => []
      | some act =>
        let vm := { c.k.vm with mem := writeSigaction c.k.vm.mem c.buf.addr act }
        (ptCopyout vm c.buf.addr c.curPid (syscallGetArg4 tf) 20#32).touched
  | _ => []

/-- Cells of `sys_buf[cur_pid]` that are written: from the first up to the second index. -/
def cells : SyscallNr → List (Int × Int)
  | .puts => (sysPuts c.sysBuf c.k.vm c.curPid tf).2.map fun nbytes => (0, nbytes.toNat + 1)
  | .rm => [(0, rmLength tf), (rmLength tf, rmLength tf + 1)]
  | .ls => [(0, c.names.length), ((c.names.length : Int) - 1, c.names.length)]
  | _ => []

end Call

inductive KernelWrite
  | word (addr : Word)
  | sysBuf (start stop : Int)
  | user (pid : Nat) (t : Touch)

def KernelWrite.Proper : KernelWrite → Prop
  | .word _ => False
  | .sysBuf start stop => 0 ≤ start ∧ stop ≤ pageSize
  | .user pid t => userVa t.uva ∧ t.Mapped pid

structure Outcome where
  ran : List SyscallNr
  frame : TrapFrame
  writes : List KernelWrite

namespace Call

variable (c : Call) (tf : TrapFrame)

def writes (n : SyscallNr) : List KernelWrite :=
  (c.cells tf n).map (fun range => .sysBuf range.1 range.2) ++ (c.copyTouched tf n).map (.user c.curPid) ++
    if n = .spawn then (c.spawnTouched tf).2.map (.user (c.spawnTouched tf).1) else []

/-- The `switch` of `syscall_dispatch`. In the default case the number of the error is taken for the frame, and a word
from the stack for the error: the word goes to `regs.eax`, 28 bytes on. -/
def serve : Option SyscallNr → Option Outcome
  | none => some ⟨[], tf, [.word (ErrorNr.invalCallnr.code + 28#32)]⟩
  | some .touch =>
    -- there is no `break`
    match c.handle tf .touch with
    | none => none
    | some tf' =>
      (c.handle tf' .readline).map fun tf'' =>
        ⟨[.touch, .readline], tf'', c.writes tf .touch ++ c.writes tf' .readline⟩
  | some n => (c.handle tf n).map fun tf' => ⟨[n], tf', c.writes tf n⟩

def dispatch : Option Outcome := c.serve tf (SyscallNr.ofCode (syscallGetArg1 tf))

end Call

structure Call.Conforms (c : Call) (tf : TrapFrame) (o : Outcome) : Prop where
  handler : o.ran = (SyscallNr.ofCode (syscallGetArg1 tf)).toList
  errno : ∃ e : ErrorNr, (SyscallNr.ofCode (syscallGetArg1 tf) = none → e = .invalCallnr) ∧
    ∀ eax o', c.serve { tf with regs.eax := eax } (SyscallNr.ofCode (syscallGetArg1 tf)) = some o' →
      o'.frame.regs.eax = e.code
  writes : ∀ w ∈ o.writes, w.Proper

def bareCalls : List SyscallNr := [.touch, .pwd, .cp, .mv, .rm, .cat]

structure Call.Sound (c : Call) (tf : TrapFrame) (n : SyscallNr) : Prop where
  sets : n ∉ bareCalls
  listing : n = .ls → 1 ≤ c.names.length ∧ c.names.length ≤ pageSize
  copies : ∀ pid t, .user pid t ∈ c.writes tf n → userVa t.uva ∧ Supplied t.before pid t.uva

/-! ## The numbers -/

theorem SyscallNr.ofCode_code (n : SyscallNr) : SyscallNr.ofCode n.code = some n := by
  cases n <;> decide

theorem SyscallNr.code_of_ofCode {nr : Word} {n : SyscallNr} (found : SyscallNr.ofCode nr = some n) : nr = n.code := by
  have matches_ := List.find?_some found
  exact (of_decide_eq_true matches_).symm

theorem SyscallNr.ofCode_eq_some {nr : Word} {n : SyscallNr} : SyscallNr.ofCode nr = some n ↔ nr = n.code := by
  constructor
  · exact SyscallNr.code_of_ofCode
  · rintro rfl
    exact n.ofCode_code

/-! ## Writes -/

section Shape

variable {pid : Nat}

structure CopyTouches (pid : Nat) (ts : List Touch) : Prop where
  shape : ∀ t ∈ ts, ∃ l, t = touchAt t.before pid t.uva l

theorem CopyTouches.nil : CopyTouches pid [] := ⟨nofun⟩

theorem CopyTouches.append {ts us : List Touch} (left : CopyTouches pid ts) (right : CopyTouches pid us) :
    CopyTouches pid (ts ++ us) := by
  refine ⟨fun t member => ?_⟩
  rcases List.mem_append.1 member with member | member
  · exact left.shape t member
  · exact right.shape t member

theorem copyTouches_copyout (s : VmState) (kva uva len : Word) : CopyTouches pid (ptCopyout s kva pid uva len).touched :=
  ⟨exec_touches s pid uva len (.copyout kva)⟩

theorem copyTouches_memset (s : VmState) (va len : Word) (c : Byte) : CopyTouches pid (ptMemset s pid va c len).touched :=
  ⟨exec_touches s pid va len (.memset c)⟩

theorem copyTouches_elfPage (perm : Nat) (ph zva : Word) (s : VmState) (va fa : Word) :
    CopyTouches pid (elfPageTouched pid perm ph zva s va fa) := by
  unfold elfPageTouched
  dsimp only
  split
  · exact copyTouches_copyout ..
  · split
    · exact (copyTouches_memset ..).append (copyTouches_copyout ..)
    · exact copyTouches_memset ..

theorem copyTouches_elfPages (perm : Nat) (ph zva : Word) (n : Nat) (s : VmState) (va fa : Word) :
    CopyTouches pid (elfPagesTouched pid perm ph zva n s va fa) := by
  induction n generalizing s va fa with
  | zero => exact .nil
  | succ n ih => exact (copyTouches_elfPage ..).append (ih ..)

theorem copyTouches_elfSegment (exe : Word) (s : VmState) (ph : Word) :
    CopyTouches pid (elfSegmentTouched pid exe s ph) := by
  unfold elfSegmentTouched
  split
  · exact .nil
  · exact copyTouches_elfPages ..

theorem copyTouches_elf (s : VmState) (exe : Word) : CopyTouches pid (elfTouched pid s exe) := by
  have segments (n : Nat) (s : VmState) (ph : Word) : CopyTouches pid (elfSegmentsTouched pid exe n s ph) := by
    induction n generalizing s ph with
    | zero => exact .nil
    | succ n ih => exact (copyTouches_elfSegment ..).append (ih ..)
  exact segments ..

theorem copyTouches_ipc (L : IpcLayout) (sourcePid fuel : Nat) (s : VmState) (dest source length : Word) :
    CopyTouches pid (ipcTouched pid L sourcePid fuel s dest source length) := by
  induction fuel generalizing s dest source length with
  | zero => exact .nil
  | succ fuel ih =>
    unfold ipcTouched
    split
    · exact (copyTouches_copyout ..).append (ih ..)
    · exact .nil

end Shape

section Calls

variable {c : Call} {tf : TrapFrame} {n : SyscallNr}

theorem copyTouches_call (c : Call) (tf : TrapFrame) (n : SyscallNr) : CopyTouches c.curPid (c.copyTouched tf n) := by
  unfold Call.copyTouched
  split
  · split
    · exact .nil
    · exact copyTouches_copyout ..
  · exact copyTouches_copyout ..
  · exact copyTouches_copyout ..
  · exact copyTouches_ipc ..
  · split
    · exact copyTouches_copyout ..
    · exact copyTouches_copyout ..
  · dsimp only
    split
    · exact .nil
    · split
      · exact .nil
      · exact copyTouches_copyout ..
  · exact .nil

theorem copyTouches_spawn (c : Call) (tf : TrapFrame) : CopyTouches (c.spawnTouched tf).1 (c.spawnTouched tf).2 := by
  unfold Call.spawnTouched
  dsimp only
  split
  · exact .nil
  · exact copyTouches_elf ..

variable {t : Touch} {k k' : KState} {tf' : TrapFrame} {r : FileSys.Reply}

theorem user_mem_writes {pid : Nat} (member : .user pid t ∈ c.writes tf n) :
    ∃ l, t = touchAt t.before pid t.uva l := by
  simp only [Call.writes, List.mem_append, List.mem_map] at member
  rcases member with (⟨range, -, wrong⟩ | ⟨u, inside, same⟩) | spawned
  · cases wrong
  · cases same
    exact (copyTouches_call c tf n).shape t inside
  · split at spawned
    · obtain ⟨u, inside, same⟩ := List.mem_map.1 spawned
      cases same
      exact (copyTouches_spawn c tf).shape t inside
    · cases spawned

theorem proper_user_iff {pid : Nat} (shape : ∃ l, t = touchAt t.before pid t.uva l) :
    KernelWrite.Proper (.user pid t) ↔ userVa t.uva ∧ Supplied t.before pid t.uva :=
  and_congr_right fun _ => Touch.mapped_iff shape

theorem cell_mem_writes {start stop : Int} : .sysBuf start stop ∈ c.writes tf n ↔ (start, stop) ∈ c.cells tf n := by
  simp only [Call.writes, List.mem_append, List.mem_map]
  constructor
  · rintro ((⟨range, inside, same⟩ | ⟨u, -, wrong⟩) | spawned)
    · cases same
      exact inside
    · cases wrong
    · split at spawned
      · obtain ⟨u, -, wrong⟩ := List.mem_map.1 spawned
        cases wrong
      · cases spawned
  · intro inside
    exact .inl (.inl ⟨_, inside, rfl⟩)

theorem word_not_mem_writes {addr : Word} : .word addr ∉ c.writes tf n := by
  simp only [Call.writes, List.mem_append, List.mem_map]
  rintro ((⟨range, -, wrong⟩ | ⟨u, -, wrong⟩) | spawned)
  · cases wrong
  · cases wrong
  · split at spawned
    · obtain ⟨u, -, wrong⟩ := List.mem_map.1 spawned
      cases wrong
    · cases spawned

theorem putsBytes_fits (remain : Word) : (putsBytes remain).toNat + 1 ≤ pageSize := by
  unfold putsBytes
  split
  · rename_i short
    simp only [pageSize] at *
    omega
  · decide

theorem putsLoop_fits (sysBuf : Word) (pid fuel : Nat) (vm : VmState) (remain curPos : Word) :
    ∀ nbytes ∈ (putsLoop sysBuf pid fuel vm remain curPos).2, nbytes.toNat + 1 ≤ pageSize := by
  induction fuel generalizing vm remain curPos with
  | zero => nofun
  | succ fuel ih =>
    intro nbytes member
    unfold putsLoop at member
    dsimp only at member
    split at member
    · cases member
    · split at member
      · cases member
      · rcases List.mem_cons.1 member with rfl | later
        · exact putsBytes_fits remain
        · exact ih _ _ _ nbytes later

theorem sysPuts_fits (sysBuf : Word) (vm : VmState) (pid : Nat) (tf : TrapFrame) :
    ∀ nbytes ∈ (sysPuts sysBuf vm pid tf).2, nbytes.toNat + 1 ≤ pageSize := by
  unfold sysPuts
  dsimp only
  split
  · nofun
  · exact putsLoop_fits _ _ _ _ _ _

theorem cells_proper_iff (sets : n ∉ bareCalls) :
    (∀ start stop, (start, stop) ∈ c.cells tf n → KernelWrite.Proper (.sysBuf start stop)) ↔
      (n = .ls → 1 ≤ c.names.length ∧ c.names.length ≤ pageSize) := by
  cases n
  case puts =>
    refine iff_of_true (fun start stop member => ?_) (by simp)
    obtain ⟨nbytes, inside, same⟩ := List.mem_map.1 member
    have fits := sysPuts_fits _ _ _ _ nbytes inside
    cases same
    exact ⟨le_rfl, by exact_mod_cast fits⟩
  case ls =>
    simp only [Call.cells, List.mem_cons, List.not_mem_nil, or_false, Prod.mk.injEq, forall_const, KernelWrite.Proper]
    constructor
    · intro proper
      have last := proper _ _ (.inr ⟨rfl, rfl⟩)
      omega
    · rintro ⟨some, fits⟩ start stop (⟨rfl, rfl⟩ | ⟨rfl, rfl⟩)
      · omega
      · omega
  case rm => exact absurd sets (by decide)
  all_goals exact iff_of_true nofun (by simp)

theorem writes_proper_iff (sets : n ∉ bareCalls) : (∀ w ∈ c.writes tf n, w.Proper) ↔ c.Sound tf n := by
  constructor
  · intro proper
    refine ⟨sets, ?_, fun pid t member => (proper_user_iff (user_mem_writes member)).1 (proper _ member)⟩
    exact (cells_proper_iff sets).1 fun start stop member => proper _ (cell_mem_writes.2 member)
  · intro sound w member
    cases w with
    | word addr => exact absurd member word_not_mem_writes
    | sysBuf start stop => exact (cells_proper_iff sets).2 sound.listing start stop (cell_mem_writes.1 member)
    | user pid t => exact (proper_user_iff (user_mem_writes member)).2 (sound.copies pid t member)

/-! ## Error numbers -/

def HoldsErrno (tf : TrapFrame) : Prop := ∃ e : ErrorNr, tf.regs.eax = e.code

theorem sysSpawn_holds {images : Nat → Word} {tf : TrapFrame} {junk : Nat}
    (done : sysSpawn images k tf junk = .ok (k', tf')) : HoldsErrno tf' := by
  unfold sysSpawn at done
  dsimp only at done
  split at done
  · cases done
    exact ⟨_, rfl⟩
  split at done
  · cases done
    exact ⟨_, rfl⟩
  split at done
  · cases done
    exact ⟨_, rfl⟩
  split at done
  · split at done
    · cases done
    · split at done
      · cases done
        exact ⟨_, rfl⟩
      · cases done
        exact ⟨_, rfl⟩
  · cases done
    exact ⟨_, rfl⟩

theorem sysReadline_holds {buf : LocalBuf} {tf : TrapFrame} {line : Option (Word × Word)}
    (done : sysReadline buf k tf line = .ok (k', tf')) : HoldsErrno tf' := by
  unfold sysReadline at done
  dsimp only at done
  split at done
  · cases done
    exact ⟨_, rfl⟩
  · split at done
    · cases done
    · cases done
      exact ⟨_, rfl⟩

theorem sysSigaction_holds (buf : LocalBuf) (k : KState) (tf : TrapFrame) : HoldsErrno (sysSigaction buf k tf).2 := by
  unfold sysSigaction
  dsimp only
  split
  · exact ⟨_, rfl⟩
  · split
    · exact ⟨_, rfl⟩
    · exact ⟨_, rfl⟩

theorem sysKill_holds (s : ThreadState) (tf : TrapFrame) : HoldsErrno (sysKill s tf).2 := by
  unfold sysKill
  dsimp only
  split
  · exact ⟨_, rfl⟩
  split
  · exact ⟨_, rfl⟩
  split
  · exact ⟨_, rfl⟩
  · exact ⟨_, rfl⟩

theorem sysPause_holds {s s' : ThreadState} {tf : TrapFrame} (done : sysPause s tf = .ok (s', tf')) :
    HoldsErrno tf' := by
  unfold sysPause at done
  dsimp only at done
  split at done
  · cases done
    exact ⟨_, rfl⟩
  · split at done
    · cases done
      exact ⟨_, rfl⟩
    · cases done

theorem sysSigreturn_holds (buf : LocalBuf) (k : KState) (tf : TrapFrame) : HoldsErrno (sysSigreturn buf k tf).2 := by
  unfold sysSigreturn
  dsimp only
  split
  · exact ⟨_, rfl⟩
  split
  · exact ⟨_, rfl⟩
  split
  · exact ⟨_, rfl⟩
  · exact ⟨_, rfl⟩

theorem reply_holds (has : r.HasErrno) (tf : TrapFrame) : HoldsErrno (r.frame tf) := by
  obtain ⟨e, errno⟩ := has
  refine ⟨e, ?_⟩
  unfold FileSys.Reply.frame
  rw [errno]
  dsimp only
  split
  · rfl
  · rfl

theorem reply_eax (has : r.HasErrno) (tf : TrapFrame) (eax : Word) :
    r.frame { tf with regs.eax := eax } = r.frame tf := by
  obtain ⟨e, errno⟩ := has
  unfold FileSys.Reply.frame
  rw [errno]
  rfl

theorem hasErrno_of_possible {t : FileSys.Trap} (possible : c.Possible tf n) (file : c.fileTrap tf n = some t)
    (sets : n ∉ bareCalls) : c.reply.HasErrno := by
  cases n
  case ls =>
    obtain ⟨dp, -, reply⟩ := possible
    exact ⟨_, by rw [reply]; rfl⟩
  case pwd => exact absurd sets (by decide)
  case «open» => exact FileSys.sysOpen_errno _ (possible _ rfl)
  case close => exact FileSys.sysClose_errno _ (possible _ rfl)
  case read => exact FileSys.sysRead_errno _ (possible _ rfl)
  case write => exact FileSys.sysWrite_errno _ (possible _ rfl)
  case mkdir => exact FileSys.sysMkdir_errno _ (possible _ rfl)
  case chdir => exact FileSys.sysChdir_errno _ (possible _ rfl)
  case link => exact FileSys.sysLink_errno _ (possible _ rfl)
  case unlink => exact FileSys.sysUnlink_errno _ (possible _ rfl)
  case stat => exact FileSys.sysFstat_errno _ (possible _ rfl)
  case isDir => exact FileSys.sysIsDir_errno _ (possible _ rfl)
  all_goals cases file

theorem handle_eax (possible : c.Possible tf n) (sets : n ∉ bareCalls) (eax : Word) :
    c.handle { tf with regs.eax := eax } n = c.handle tf n := by
  cases file : c.fileTrap tf n with
  | some t =>
    have has := hasErrno_of_possible possible file sets
    cases n
    case pwd => exact absurd sets (by decide)
    all_goals first | cases file; done | exact congrArg some (reply_eax has tf eax)
  | none =>
    cases n
    case cp | mv | rm | cat | touch => exact absurd sets (by decide)
    all_goals first | cases file; done | rfl

theorem toOption_map_ok {σ η α : Type} {r : Except η (σ × α)} {a : α} (some_ : r.toOption.map Prod.snd = some a) :
    ∃ s, r = .ok (s, a) := by
  cases r with
  | error halt => cases some_
  | ok pair =>
    cases some_
    exact ⟨pair.1, rfl⟩

theorem handle_holds (possible : c.Possible tf n) (sets : n ∉ bareCalls) (done : c.handle tf n = some tf') :
    HoldsErrno tf' := by
  cases file : c.fileTrap tf n with
  | some t =>
    have has := hasErrno_of_possible possible file sets
    have answered : c.handle tf n = some (c.reply.frame tf) := by
      cases n <;> first | cases file; done | rfl
    cases answered.symm.trans done
    exact reply_holds has tf
  | none =>
    cases n
    case cp | mv | rm | cat | touch => exact absurd sets (by decide)
    case spawn =>
      obtain ⟨k', spawned⟩ := toOption_map_ok done
      exact sysSpawn_holds spawned
    case readline =>
      obtain ⟨k', read⟩ := toOption_map_ok done
      exact sysReadline_holds read
    case pause =>
      obtain ⟨s', paused⟩ := toOption_map_ok done
      exact sysPause_holds paused
    case yield =>
      obtain ⟨s', -, rfl⟩ := Option.map_eq_some_iff.1 done
      exact ⟨_, rfl⟩
    case sigaction =>
      cases done
      exact sysSigaction_holds ..
    case kill =>
      cases done
      exact sysKill_holds ..
    case sigreturn =>
      cases done
      exact sysSigreturn_holds ..
    case puts | produce | consume | syncSend | syncRecv =>
      cases done
      exact ⟨_, rfl⟩
    all_goals cases file

theorem code_add_one_ne (e : ErrorNr) : e.code + 1#32 ≠ e.code := by
  bv_omega

theorem serve_bare {nr : Option SyscallNr} (possible : ∀ n, nr = some n → c.Possible tf n)
    (bare : nr = none ∨ ∃ n, nr = some n ∧ n ∈ bareCalls ∧ n ≠ .touch) (eax : Word) :
    ∃ o, c.serve { tf with regs.eax := eax } nr = some o ∧ o.frame.regs.eax = eax := by
  rcases bare with rfl | ⟨n, rfl, member, other⟩
  · exact ⟨_, rfl, rfl⟩
  · simp only [bareCalls, List.mem_cons, List.not_mem_nil, or_false] at member
    rcases member with rfl | rfl | rfl | rfl | rfl | rfl
    · exact absurd rfl other
    · have silent : c.reply.errno = none := FileSys.sysPwd_errno _ (possible _ rfl _ rfl)
      refine ⟨_, rfl, ?_⟩
      dsimp only [FileSys.Reply.frame]
      rw [silent]
      split
      · rfl
      · rfl
    all_goals exact ⟨_, rfl, rfl⟩

theorem serve_eq (other : n ≠ .touch) :
    c.serve tf (some n) = (c.handle tf n).map fun tf' => ⟨[n], tf', c.writes tf n⟩ := by
  cases n
  case touch => exact absurd rfl other
  all_goals rfl

end Calls

def idleCall : Call where
  images _ := 0
  k := ⟨setCurid idleThreads 1, blankVm⟩
  junk := 0
  buf := stackBuf
  line := none
  sysBuf := 0x00310000
  kernBuf := 0x00320000
  ipc := ⟨0x330000, 0x340000, 0x350000, by decide, by decide⟩
  messages := ipcInit
  path := []
  newPath := []
  data := []
  stack := []
  reply := ⟨none, none, []⟩
  names := []

end Certikos
