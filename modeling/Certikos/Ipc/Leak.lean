import Certikos.Ipc.Lock
import Certikos.Memory.Quota
import Certikos.Memory.Tidy

/-!
# What a receiver can learn

Two runs of one receive, from states that differ in what earlier messages left in `msg_buf`. A chunk that
`pt_copyin` refuses to read leaves the buffer as it is, and `pt_copyout` then writes the old bytes.
-/

namespace Certikos
open Lib
open BitVec (lt_def ofNat sub_self)

structure Placed (L : Layout) (B : IpcLayout) : Prop where
  idptbl : pageSize ≤ L.idptbl.toNat
  msgBuf : pageSize ≤ B.msgBuf.toNat
  apart : B.msgBuf.toNat + msgBufSize ≤ L.idptbl.toNat ∨ L.idptbl.toNat + 1024 * pageSize ≤ B.msgBuf.toNat

def InMsgBuf (B : IpcLayout) (x : Word) : Prop := x - B.msgBuf < ofNat 32 msgBufSize

structure Differ (D : Word → Prop) (s s' : VmState) : Prop where
  rest : s' = { s with mem := s'.mem }
  mem : ∀ x, s'.mem x ≠ s.mem x → D x

section Differ

variable {D : Word → Prop} {s s' : VmState}

theorem Differ.mono (h : Differ D s s') {D' : Word → Prop} (le : ∀ x, D x → D' x) : Differ D' s s' :=
  ⟨h.rest, fun x changed => le x (h.mem x changed)⟩

theorem Differ.eq (h : Differ D s s') (none : ∀ x, ¬D x) : s' = s := by
  have mem : s'.mem = s.mem := by
    funext x
    by_contra changed
    exact none x (h.mem x changed)
  rw [h.rest, mem]

theorem Differ.same_mem (h : Differ D s s') {x : Word} (out : ¬D x) : s'.mem x = s.mem x := by
  by_contra changed
  exact out (h.mem x changed)

/-! ## Allocation does not look at memory -/

theorem pallocScan_mem (s : VmState) (m : Mem) (fuel i : Nat) :
    pallocScan { s with mem := m } fuel i = pallocScan s fuel i := by
  induction fuel generalizing i with
  | zero => rfl
  | succ fuel ih =>
    rw [pallocScan, pallocScan, ih]
    rfl

theorem containerAlloc_mem (s : VmState) (m : Mem) (id : Nat) :
    containerAlloc { s with mem := m } id = ({ (containerAlloc s id).1 with mem := m }, (containerAlloc s id).2) := by
  unfold containerAlloc
  by_cases full : (s.container id).usage = (s.container id).quota
  · rw [if_pos full, if_pos full]
  · rw [if_neg full, if_neg full]
    unfold palloc
    have scan (n i : Nat) := pallocScan_mem (modifyContainer s id fun c => { c with usage := (s.container id).usage + 1 }) m n i
    unfold modifyContainer at scan ⊢
    dsimp only at scan ⊢
    rw [scan]
    unfold getNps
    split
    · rfl
    · rfl

variable (h : Differ D s s')
include h

theorem Differ.alloc (id : Nat) :
    Differ D (containerAlloc s id).1 (containerAlloc s' id).1 ∧ (containerAlloc s' id).2 = (containerAlloc s id).2 := by
  have alloc := containerAlloc_mem s s'.mem id
  rw [← h.rest] at alloc
  rw [alloc]
  refine ⟨⟨rfl, fun x changed => h.mem x ?_⟩, rfl⟩
  rwa [(containerAlloc_frame s id).2] at changed

theorem Differ.writeWord (a w : Word) : Differ D { s with mem := writeWord s.mem a w }
    { s' with mem := writeWord s'.mem a w } := by
  refine ⟨by rw [h.rest], fun x changed => h.mem x fun same => changed ?_⟩
  unfold Lib.writeWord
  dsimp only
  rw [same]

theorem Differ.pdirPool : s'.pdirPool = s.pdirPool := by rw [h.rest]

theorem Differ.modifyPtbl (pid i k : Nat) (w : Word) :
    Differ D (modifyPtbl s pid i k w) (modifyPtbl s' pid i k w) := by
  have addr : ptblAddr (s'.pdirPool pid i) k = ptblAddr (s.pdirPool pid i) k := by rw [h.pdirPool]
  unfold Certikos.modifyPtbl
  rw [addr]
  exact h.writeWord _ _

theorem Differ.modifyPdir (pid i : Nat) (w : Word) : Differ D (modifyPdir s pid i w) (modifyPdir s' pid i w) := by
  refine ⟨?_, h.mem⟩
  unfold Certikos.modifyPdir
  rw [h.pdirPool, h.rest]

theorem Differ.install (pid i f : Nat) : Differ D (installTable s pid i f) (installTable s' pid i f) :=
  loop_related (Differ D) (h.modifyPdir pid i _) fun _ _ _ _ related => related.modifyPtbl pid i _ _

theorem Differ.mapPage (pid : Nat) (va : Word) (page perm : Nat) :
    Differ D (mapPage s pid va page perm).1 (mapPage s' pid va page perm).1 := by
  have dir : getPdirEntryByVa s' pid va = getPdirEntryByVa s pid va := by
    rw [getPdirEntryByVa, getPdirEntry, h.pdirPool]
    rfl
  obtain ⟨alloc, given⟩ := h.alloc pid
  rcases mapPage_cases s pid va page perm with ⟨there, result⟩ | ⟨missing, ⟨none, result⟩ | ⟨found, result⟩⟩
  · rcases mapPage_cases s' pid va page perm with ⟨-, result'⟩ | ⟨missing', -⟩
    · rw [result, result']
      exact h.modifyPtbl ..
    · exact absurd (dir.symm.trans missing') there
  · rcases mapPage_cases s' pid va page perm with ⟨there', -⟩ | ⟨-, ⟨-, result'⟩ | ⟨found', -⟩⟩
    · exact absurd (dir.trans missing) there'
    · rw [result, result']
      exact alloc
    · exact absurd (given.trans none) found'
  · rcases mapPage_cases s' pid va page perm with ⟨there', -⟩ | ⟨-, ⟨none', -⟩ | ⟨-, result'⟩⟩
    · exact absurd (dir.trans missing) there'
    · exact absurd (given.symm.trans none') found
    · rw [result, result', given]
      exact (alloc.install pid _ _).modifyPtbl ..

theorem Differ.allocPage (pid : Nat) (va : Word) (perm : Nat) :
    Differ D (allocPage s pid va perm).1 (allocPage s' pid va perm).1 := by
  obtain ⟨alloc, given⟩ := h.alloc pid
  unfold Certikos.allocPage
  dsimp only
  rw [given]
  split
  · exact alloc
  · exact alloc.mapPage ..

end Differ

/-! ## One access in two runs -/

section Access

variable {L : Layout} {B : IpcLayout} {D : Word → Prop} {s s' : VmState} {pid : Nat} {uva kva len : Word}

theorem Placed.buffer (placed : Placed L B) {x : Word} (inside : InMsgBuf B x) :
    Writable L s x ∧ ¬(x.toNat < pageSize ∨ vmUserlo ≤ x.toNat) := by
  have below := B.msgBuf_below
  obtain ⟨-, low, apart⟩ := placed
  unfold InMsgBuf at inside
  rw [lt_def, BitVec.toNat_sub] at inside
  simp only [Writable, vmUserlo, pageSize, msgBufSize, BitVec.toNat_ofNat] at *
  omega

section

variable (h : Differ D s s') (tidy : Tidy L s) (placed : Placed L B) (dirty : ∀ x, D x → InMsgBuf B x)
  (hp : UserPid pid)
include h tidy placed dirty hp

theorem Differ.entry (va : Word) : getPtblEntryByVa s' pid va = getPtblEntryByVa s pid va := by
  rw [h.rest]
  exact tidy.isolated.entryByVa_data (fun x changed => (placed.buffer (dirty x (h.mem x changed))).1) hp va

theorem Differ.touch (reach : CopyVa uva) (len : Word) :
    Differ D (touchAt s pid uva len).vm (touchAt s' pid uva len).vm ∧
      (touchAt s' pid uva len).pa = (touchAt s pid uva len).pa ∧
      (touchAt s' pid uva len).size = (touchAt s pid uva len).size := by
  have entry := h.entry tidy placed dirty hp uva
  have vm : Differ D (touchAt s pid uva len).vm (touchAt s' pid uva len).vm := by
    rw [touch_vm, touch_vm, entry]
    split
    · exact h
    · exact h.allocPage ..
  refine ⟨vm, ?_, BitVec.eq_of_toNat_eq ?_⟩
  · rw [touch_pa, touch_pa, userPa, userPa, vm.entry (tidy.touch hp reach len) placed dirty hp uva]
  · rw [toNat_touch_size, toNat_touch_size]

end

variable (tidy : Tidy L s) (placed : Placed L B) (hp : UserPid pid) (reach : CopyVa uva)
include tidy placed hp reach

theorem Tidy.accesses {x : Word} (access : (touchAt s pid uva len).Accesses x) :
    Writable L (touchAt s pid uva len).vm x ∧ ¬InMsgBuf B x := by
  obtain ⟨data, where_⟩ := (tidy.touch hp reach len).behind placed.idptbl hp reach (touch_accesses s pid uva len access)
  exact ⟨data, fun inside => (placed.buffer (s := s) inside).2 where_⟩

section

variable (kind : CopyKind) (buffer : ∀ x, x - kva < (touchAt s pid uva len).size → InMsgBuf B x)
include buffer

theorem Tidy.move_data (x : Word)
    (changed : kind.move (touchAt s pid uva len).vm.mem (touchAt s pid uva len).pa kva (touchAt s pid uva len).size x ≠
      (touchAt s pid uva len).vm.mem x) : Writable L (touchAt s pid uva len).vm x := by
  have access (inside : ¬¬(touchAt s pid uva len).Accesses x) : Writable L (touchAt s pid uva len).vm x :=
    (tidy.accesses placed hp reach (not_not.1 inside)).1
  cases kind with
  | copyin =>
    by_cases inside : x - kva < (touchAt s pid uva len).size
    · exact (placed.buffer (buffer x inside)).1
    · exact absurd (memmove_outside inside) changed
  | copyout => exact access fun outside => changed (memmove_outside outside)
  | memset c => exact access fun outside => changed (memset_outside outside)

theorem Tidy.moved : Tidy L ((touchAt s pid uva len).moved kind kva) :=
  (tidy.touch hp reach len).write (tidy.move_data placed hp reach kind buffer)

end

theorem Differ.moved (h : Differ D s s') (dirty : ∀ x, D x → InMsgBuf B x) {kind : CopyKind} (kva len : Word)
    (clean : kind = .copyin ∨ kind = .copyout ∧ ∀ x, D x → ¬x - kva < (touchAt s pid uva len).size) :
    Differ (fun x => D x ∧ ¬x - kva < (touchAt s pid uva len).size)
      ((touchAt s pid uva len).moved kind kva) ((touchAt s' pid uva len).moved kind kva) := by
  obtain ⟨vm, pa, size⟩ := h.touch tidy placed dirty hp reach len
  refine ⟨?_, fun x changed => ?_⟩
  · unfold Touch.moved
    rw [vm.rest]
  rcases clean with rfl | ⟨rfl, clean⟩
  · simp only [Touch.moved, CopyKind.move, pa, size] at changed
    unfold memmove at changed
    split at changed
    · rename_i inside
      have access : (touchAt s pid uva len).Accesses ((touchAt s pid uva len).pa + (x - kva)) := by
        rw [Touch.Accesses, BitVec.add_comm, BitVec.add_sub_cancel]
        exact inside
      refine absurd (vm.same_mem fun stale => ?_) changed
      exact (tidy.accesses placed hp reach access).2 (dirty _ stale)
    · rename_i outside
      exact ⟨vm.mem x changed, outside⟩
  · simp only [Touch.moved, CopyKind.move, pa, size] at changed
    unfold memmove at changed
    split at changed
    · rename_i inside
      refine absurd ?_ (clean _ (vm.mem _ changed))
      rwa [BitVec.add_comm, BitVec.add_sub_cancel]
    · exact ⟨vm.mem x changed, clean x (vm.mem x changed)⟩

end Access

/-! ## Whole copies -/

section Copies

variable {L : Layout} {B : IpcLayout} {D : Word → Prop} {s s' : VmState} {pid : Nat} {uva kva len copied : Word}

theorem range_split {x n : Word} (le : n.toNat ≤ len.toNat) :
    x - kva < len ↔ x - kva < n ∨ x - (kva + n) < len - n := by
  have shift : x - (kva + n) = x - kva - n := by bv_omega
  have rest := sub_toNat_of_le le
  rw [shift]
  generalize x - kva = d
  simp only [lt_def, rest, BitVec.toNat_sub d n]
  omega

theorem copyLoop_step (kind : CopyKind) (fuel : Nat) (nonzero : len ≠ 0#32) :
    (copyLoop kind pid (fuel + 1) s uva kva len copied).vm =
      (copyLoop kind pid fuel ((touchAt s pid uva len).moved kind kva) (uva + (touchAt s pid uva len).size)
        (kva + (touchAt s pid uva len).size) (len - (touchAt s pid uva len).size)
        (copied + (touchAt s pid uva len).size)).vm := by
  rw [copyLoop, if_neg nonzero]

theorem copyLoop_zero (kind : CopyKind) (fuel : Nat) : (copyLoop kind pid fuel s uva kva 0#32 copied).vm = s := by
  cases fuel with
  | zero => rfl
  | succ fuel => rw [copyLoop, if_pos rfl]

variable (placed : Placed L B) (hp : UserPid pid)
include placed hp

variable (fuel : Nat) (tidy : Tidy L s) (h : Differ D s s') (dirty : ∀ x, D x → InMsgBuf B x)
  (enough : len.toNat ≤ fuel) (reach : ∀ i, i < len → CopyVa (uva + i)) (buffer : ∀ x, x - kva < len → InMsgBuf B x)
include tidy h dirty enough reach buffer

theorem Differ.copyLoop {kind : CopyKind} (clean : kind = .copyin ∨ kind = .copyout ∧ ∀ x, D x → ¬x - kva < len) :
    Tidy L (copyLoop kind pid fuel s uva kva len copied).vm ∧
      Differ (fun x => D x ∧ ¬x - kva < len) (copyLoop kind pid fuel s uva kva len copied).vm
        (copyLoop kind pid fuel s' uva kva len copied).vm := by
  induction fuel generalizing s s' uva kva len copied D with
  | zero =>
    have zero : len = 0#32 := BitVec.eq_of_toNat_eq (by simpa using enough)
    subst zero
    exact ⟨tidy, h.mono fun x stale => ⟨stale, BitVec.not_lt_zero⟩⟩
  | succ fuel ih =>
    by_cases zero : len = 0#32
    · subst zero
      rw [copyLoop_zero, copyLoop_zero]
      exact ⟨tidy, h.mono fun x stale => ⟨stale, BitVec.not_lt_zero⟩⟩
    · have first := reach_first zero reach
      obtain ⟨-, -, size⟩ := h.touch tidy placed dirty hp first len
      have le := touch_size_le s pid uva len
      have pos := touch_size_pos s pid uva zero
      have rest := sub_toNat_of_le le
      have moved := h.moved tidy placed hp first dirty kva len
        (clean.imp_right fun ⟨out, clean⟩ => ⟨out, fun x stale lt => clean x stale ((range_split le).2 (.inl lt))⟩)
      have tidy' := tidy.moved placed hp first kind fun x lt => buffer x ((range_split le).2 (.inl lt))
      rw [copyLoop_step _ _ zero, copyLoop_step _ _ zero, size]
      generalize (touchAt s pid uva len).size = n at *
      obtain ⟨tidy'', differ⟩ := ih tidy' moved (fun x stale => dirty x stale.1) (by omega) (reach_rest le reach)
        (fun x lt => buffer x ((range_split le).2 (.inr lt)))
        (clean.imp_right fun ⟨out, clean⟩ => ⟨out, fun x stale lt => clean x stale.1 ((range_split le).2 (.inr lt))⟩)
      refine ⟨tidy'', differ.mono fun x ⟨⟨stale, notFirst⟩, notRest⟩ => ⟨stale, fun inside => ?_⟩⟩
      rcases (range_split le).1 inside with lt | lt
      · exact notFirst lt
      · exact notRest lt

end Copies

/-! ## What the receiver sees -/

def userView (s : VmState) (pid : Nat) (va : Word) : Option Byte :=
  if present (getPtblEntryByVa s pid va) then some (s.mem (userPa s pid va)) else none

def SameView (B : IpcLayout) (pid : Nat) (s s' : VmState) : Prop :=
  ∀ va, ¬InMsgBuf B va → userView s pid va = userView s' pid va

def chunkLen (length : Word) : Word :=
  if length.toInt < msgBufSize then length else ofNat 32 msgBufSize

def ReadsFirst (B : IpcLayout) : (fuel : Nat) → (destUserAddr sourceUserAddr length : Word) → Prop
  | 0, _, _, _ => True
  | fuel + 1, destUserAddr, sourceUserAddr, length =>
    length.toInt > 0 →
      copyChecks sourceUserAddr B.msgBuf (chunkLen length) = true ∨
      copyChecks destUserAddr B.msgBuf (chunkLen length) = false ∧
        ReadsFirst B fuel (destUserAddr + chunkLen length) (sourceUserAddr + chunkLen length) (length - chunkLen length)

instance decidableReadsFirst (B : IpcLayout) : (fuel : Nat) → (destUserAddr sourceUserAddr length : Word) →
    Decidable (ReadsFirst B fuel destUserAddr sourceUserAddr length)
  | 0, _, _, _ => .isTrue trivial
  | fuel + 1, destUserAddr, sourceUserAddr, length =>
    haveI := decidableReadsFirst B fuel (destUserAddr + chunkLen length) (sourceUserAddr + chunkLen length)
      (length - chunkLen length)
    inferInstanceAs (Decidable (_ → _ ∨ _ ∧ _))

section Chunks

variable {L : Layout} {B : IpcLayout} {s s' : VmState} {dest source : Nat} {length uva kva len : Word}

theorem chunkLen_spec (more : length.toInt > 0) :
    0 < (chunkLen length).toNat ∧ (chunkLen length).toNat ≤ msgBufSize ∧ (chunkLen length).toNat ≤ length.toNat ∧
      (chunkLen length = ofNat 32 msgBufSize ∨ chunkLen length = length) := by
  have value : length.toInt = length.toNat := by
    rw [BitVec.toInt_eq_toNat_cond] at more ⊢
    split at more
    · rename_i positive
      rw [if_pos positive]
    · omega
  unfold chunkLen
  by_cases short : length.toInt < msgBufSize
  · rw [if_pos short]
    rw [value] at more short
    exact ⟨by omega, by omega, le_rfl, .inr rfl⟩
  · rw [if_neg short]
    rw [value] at short
    exact ⟨by decide, by decide, by rw [BitVec.toNat_ofNat]; omega, .inl rfl⟩

theorem inMsgBuf_of_chunk (short : len.toNat ≤ msgBufSize) (x : Word) (inside : x - B.msgBuf < len) : InMsgBuf B x := by
  unfold InMsgBuf
  rw [lt_def, BitVec.toNat_ofNat] at *
  simp only [msgBufSize] at *
  omega

theorem copyChecks_reach (short : len.toNat ≤ msgBufSize) (accepted : copyChecks uva kva len = true) (i : Word)
    (lt : i < len) : CopyVa (uva + i) := by
  obtain ⟨lo, hi, -⟩ := copyChecks_iff.1 accepted
  rw [lt_def] at lt
  rw [BitVec.toNat_add] at hi
  unfold CopyVa userVa edgeVa
  rw [BitVec.toNat_add]
  simp only [vmUserlo, vmUserhi, pageSize, msgBufSize] at *
  omega

theorem ipcCopyLoop_step (B : IpcLayout) (dest source fuel : Nat) (s : VmState) (dst src : Word)
    (more : length.toInt > 0) : ipcCopyLoop B dest source (fuel + 1) s dst src length = ipcCopyLoop B dest source fuel
        (ptCopyout (ptCopyin s source src B.msgBuf (chunkLen length)).vm B.msgBuf dest dst (chunkLen length)).vm
        (dst + chunkLen length) (src + chunkLen length) (length - chunkLen length) :=
  if_pos more

theorem ipcCopyLoop_done (B : IpcLayout) (dest source fuel : Nat) (s : VmState) (dst src : Word)
    (done : ¬length.toInt > 0) : ipcCopyLoop B dest source fuel s dst src length = s := by
  cases fuel with
  | zero => rfl
  | succ fuel => exact if_neg done

theorem ptCopyin_refused (refused : ¬copyChecks uva kva len = true) : (ptCopyin s source uva kva len).vm = s := by
  rw [ptCopyin, if_neg refused]

theorem ptCopyout_refused (refused : ¬copyChecks uva kva len = true) : (ptCopyout s kva dest uva len).vm = s := by
  rw [ptCopyout, if_neg refused]

theorem Differ.sameView (h : Differ (InMsgBuf B) s s') (tidy : Tidy L s) (placed : Placed L B)
    (hd : UserPid dest) : SameView B dest s s' := by
  intro va out
  have entry := h.entry tidy placed (fun _ inside => inside) hd va
  have pa : userPa s' dest va = userPa s dest va := by rw [userPa, entry, userPa]
  unfold userView
  rw [entry, pa]
  split
  · rename_i mapped
    congr 1
    refine (h.same_mem fun inside => ?_).symm
    rcases userVa_or_kernel va with user | kernel
    · have range := tidy.isolated.frame_range (frameOf_va hd user mapped)
      refine (placed.buffer (s := s) inside).2 (.inr ?_)
      rw [toNat_userPa]
      simp only [vmUserloPi, vmUserlo, pageSize] at range ⊢
      omega
    · rw [tidy.isolated.userPa_kernel hd.2 kernel] at inside
      exact out inside
  · rfl

theorem Differ.ptCopyin (h : Differ (InMsgBuf B) s s') (tidy : Tidy L s) (placed : Placed L B)
    (hs : UserPid source) (short : len.toNat ≤ msgBufSize) (accepted : copyChecks uva B.msgBuf len = true) :
    Tidy L (ptCopyin s source uva B.msgBuf len).vm ∧
      Differ (fun x => InMsgBuf B x ∧ ¬x - B.msgBuf < len) (ptCopyin s source uva B.msgBuf len).vm
        (ptCopyin s' source uva B.msgBuf len).vm := by
  rw [Certikos.ptCopyin, Certikos.ptCopyin, if_pos accepted, if_pos accepted]
  exact h.copyLoop placed hs len.toNat tidy (fun _ inside => inside) le_rfl (copyChecks_reach short accepted)
    (inMsgBuf_of_chunk short) (.inl rfl)

theorem Differ.ptCopyout (h : Differ (fun x => InMsgBuf B x ∧ ¬x - B.msgBuf < len) s s') (tidy : Tidy L s)
    (placed : Placed L B) (hd : UserPid dest) (short : len.toNat ≤ msgBufSize) (uva : Word) :
    SameView B dest (ptCopyout s B.msgBuf dest uva len).vm (ptCopyout s' B.msgBuf dest uva len).vm := by
  by_cases accepted : copyChecks uva B.msgBuf len = true
  · rw [Certikos.ptCopyout, Certikos.ptCopyout, if_pos accepted, if_pos accepted]
    obtain ⟨tidy', differ⟩ := h.copyLoop placed hd len.toNat tidy (fun _ stale => stale.1) le_rfl
      (copyChecks_reach short accepted) (inMsgBuf_of_chunk short) (.inr ⟨rfl, fun _ stale => stale.2⟩)
    exact (differ.mono fun _ stale => stale.1.1).sameView tidy' placed hd
  · rw [ptCopyout_refused accepted, ptCopyout_refused accepted]
    exact (h.mono fun _ stale => stale.1).sameView tidy placed hd

theorem Differ.ipcCopyLoop (placed : Placed L B) (hd : UserPid dest) (hs : UserPid source)
    (fuel : Nat) (tidy : Tidy L s) (h : Differ (InMsgBuf B) s s') {dst src : Word}
    (reads : ReadsFirst B fuel dst src length) : SameView B dest (ipcCopyLoop B dest source fuel s dst src length)
      (ipcCopyLoop B dest source fuel s' dst src length) := by
  induction fuel generalizing dst src length with
  | zero => exact h.sameView tidy placed hd
  | succ fuel ih =>
    by_cases more : length.toInt > 0
    · obtain ⟨pos, short, le, full⟩ := chunkLen_spec more
      rw [ipcCopyLoop_step _ _ _ _ _ _ _ more, ipcCopyLoop_step _ _ _ _ _ _ _ more]
      by_cases accepted : copyChecks src B.msgBuf (chunkLen length) = true
      · obtain ⟨tidy', differ⟩ := h.ptCopyin tidy placed hs short accepted
        rcases full with whole | last
        · -- the chunk fills the buffer, and the states are the same from here on
          have same := differ.eq fun x ⟨inside, out⟩ => out (whole ▸ inside)
          rw [same]
          intro va _
          rfl
        · have done : ¬(length - chunkLen length).toInt > 0 := by
            rw [last, sub_self]
            decide
          rw [ipcCopyLoop_done _ _ _ _ _ _ _ done, ipcCopyLoop_done _ _ _ _ _ _ _ done]
          exact differ.ptCopyout tidy' placed hd short dst
      · obtain ⟨refused, reads⟩ := (reads more).resolve_left accepted
        have refused : ¬copyChecks dst B.msgBuf (chunkLen length) = true := by simp [refused]
        rw [ptCopyin_refused accepted, ptCopyin_refused accepted, ptCopyout_refused refused,
          ptCopyout_refused refused]
        exact ih reads
    · rw [ipcCopyLoop_done _ _ _ _ _ _ _ more, ipcCopyLoop_done _ _ _ _ _ _ _ more]
      exact h.sameView tidy placed hd

end Chunks

/-! ## When old bytes get through -/

def Full (s : VmState) : Prop := ∀ id, (s.container id).usage = (s.container id).quota

theorem Full.touch {s : VmState} (full : Full s) (pid : Nat) (uva len : Word) : (touchAt s pid uva len).vm = s := by
  have none : containerAlloc s pid = (s, 0) := if_pos (full pid)
  rw [touch_vm]
  split
  · rfl
  · unfold allocPage
    rw [none]
    rfl

structure Held (L : Layout) (s : VmState) (dest : Nat) (va : Word) (b : Byte) : Prop where
  tidy : Tidy L s
  full : Full s
  mapped : present (getPtblEntryByVa s dest va)
  value : s.mem (userPa s dest va) = b

section Held

variable {L : Layout} {B : IpcLayout} {s : VmState} {dest pid : Nat} {va uva kva len copied : Word} {b : Byte}
variable (placed : Placed L B) (hd : UserPid dest) (reach : CopyVa va) (high : vmUserlo ≤ va.toNat)

theorem Held.view (h : Held L s dest va b) : userView s dest va = some b := by
  rw [userView, if_pos h.mapped, h.value]

theorem Held.write (h : Held L s dest va b) (hd : UserPid dest) {m : Mem} {c : Byte}
    (data : ∀ x, m x ≠ s.mem x → Writable L s x) (value : m (userPa s dest va) = c) :
    Held L { s with mem := m } dest va c := by
  have entry := h.tidy.isolated.entryByVa_data data hd va
  refine ⟨h.tidy.write data, h.full, ?_, ?_⟩
  · rw [entry]
    exact h.mapped
  · rw [userPa, entry]
    exact value

include placed hd reach

theorem Held.outside (h : Held L s dest va b) : ¬InMsgBuf B (userPa s dest va) := by
  intro inside
  refine (placed.buffer (s := s) inside).2 (h.tidy.behind placed.idptbl hd reach ?_).2
  rw [toNat_userPa, pageSize]
  omega

include high

variable (h : Held L s dest va b)
include h

theorem Held.moved (hp : UserPid pid) (first : CopyVa uva) (kind : CopyKind)
    (buffer : ∀ x, x - kva < (touchAt s pid uva len).size → InMsgBuf B x)
    (elsewhere : kind = .copyin ∨ pid = dest ∧ ∀ i, i < len → CopyVa (uva + i) ∧ uva + i ≠ va) :
    Held L ((touchAt s pid uva len).moved kind kva) dest va b := by
  have data := h.tidy.move_data placed hp first kind buffer
  have size := toNat_touch_size s pid uva len
  have still := h.full.touch pid uva len
  rw [touch_pa, still] at data
  rw [Touch.moved, touch_pa, still]
  generalize (touchAt s pid uva len).size = n at *
  refine h.write hd data (Eq.trans ?_ h.value)
  rcases elsewhere with rfl | ⟨rfl, other⟩
  · exact memmove_outside fun inside => h.outside placed hd reach (buffer _ inside)
  · have out : ¬userPa s pid va - userPa s pid uva < n := by
      intro access
      generalize hi : userPa s pid va - userPa s pid uva = i at access
      rw [lt_def] at access
      obtain ⟨-, pa⟩ := userPa_add s pid (show uva.toNat % 4096 + i.toNat < 4096 by omega)
      obtain ⟨reach', ne⟩ := other i (by rw [lt_def]; omega)
      refine h.tidy.userPa_ne hp high reach h.mapped reach' ne ?_
      rw [pa, ← hi, BitVec.add_comm, BitVec.sub_add_cancel]
    cases kind with
    | copyin => exact memmove_outside fun inside => h.outside placed hd reach (buffer _ inside)
    | copyout => exact memmove_outside out
    | memset c => exact memset_outside out

theorem Held.copyLoop (hp : UserPid pid) (kind : CopyKind) (fuel : Nat)
    (copyVa : ∀ i, i < len → CopyVa (uva + i)) (buffer : ∀ x, x - kva < len → InMsgBuf B x)
    (elsewhere : kind = .copyin ∨ pid = dest ∧ ∀ i, i < len → uva + i ≠ va) :
    Held L (copyLoop kind pid fuel s uva kva len copied).vm dest va b := by
  induction fuel generalizing s uva kva len copied with
  | zero => exact h
  | succ fuel ih =>
    by_cases zero : len = 0#32
    · subst zero
      rw [copyLoop_zero]
      exact h
    · have le := touch_size_le s pid uva len
      rw [copyLoop_step _ _ zero]
      have moved : Held L ((touchAt s pid uva len).moved kind kva) dest va b :=
        h.moved placed hd reach high hp (reach_first zero copyVa) kind
        (fun x lt => buffer x ((range_split le).2 (.inl lt)))
        (elsewhere.imp_right fun ⟨same, other⟩ => ⟨same, fun i lt => ⟨copyVa i lt, other i lt⟩⟩)
      generalize (touchAt s pid uva len).size = n at *
      exact ih moved (reach_rest le copyVa) (fun x lt => buffer x ((range_split le).2 (.inr lt)))
        (elsewhere.imp_right fun ⟨same, other⟩ => ⟨same, reach_rest (P := (· ≠ va)) le other⟩)

theorem Held.copyout (short : len.toNat ≤ msgBufSize) (nonzero : len ≠ 0#32)
    (accepted : copyChecks va B.msgBuf len = true) :
    Held L (ptCopyout s B.msgBuf dest va len).vm dest va (s.mem B.msgBuf) := by
  have copyVa := copyChecks_reach short accepted
  have buffer := inMsgBuf_of_chunk (B := B) short
  have le := touch_size_le s dest va len
  have pos := touch_size_pos s dest va nonzero
  have data := h.tidy.move_data placed hd reach .copyout (fun x lt => buffer x ((range_split le).2 (.inl lt)))
  have still := h.full.touch dest va len
  rw [touch_pa, still] at data
  obtain ⟨fuel, hfuel⟩ := Nat.exists_eq_succ_of_ne_zero (show len.toNat ≠ 0 by omega)
  rw [ptCopyout, if_pos accepted, hfuel, copyLoop_step _ _ nonzero, Touch.moved, touch_pa, still]
  generalize (touchAt s dest va len).size = n at *
  have first : Held L { s with mem := CopyKind.move .copyout s.mem (userPa s dest va) B.msgBuf n } dest va
      (s.mem B.msgBuf) := by
    refine h.write hd data ?_
    unfold CopyKind.move memmove
    dsimp only
    rw [if_pos, sub_self, BitVec.add_zero]
    rw [sub_self, lt_def]
    exact pos
  refine first.copyLoop placed hd reach high hd .copyout fuel (reach_rest le copyVa)
    (fun x lt => buffer x ((range_split le).2 (.inr lt))) (.inr ⟨rfl, fun i lt => ?_⟩)
  have rest := sub_toNat_of_le le
  rw [lt_def, rest] at lt
  bv_omega

theorem Held.ipcCopyLoop {source : Nat} (hs : UserPid source) (fuel : Nat)
    {past length : Word} (src : Word) (pos : 0 < past.toNat) (fits : past.toNat + length.toNat < 2 ^ 32) :
    Held L (ipcCopyLoop B dest source fuel s (va + past) src length) dest va b := by
  induction fuel generalizing s past src length with
  | zero => exact h
  | succ fuel ih =>
    by_cases more : length.toInt > 0
    · obtain ⟨-, short, le, -⟩ := chunkLen_spec more
      have buffer := inMsgBuf_of_chunk (B := B) short
      have read : Held L (ptCopyin s source src B.msgBuf (chunkLen length)).vm dest va b := by
        by_cases accepted : copyChecks src B.msgBuf (chunkLen length) = true
        · rw [ptCopyin, if_pos accepted]
          exact h.copyLoop placed hd reach high hs .copyin _ (copyChecks_reach short accepted) buffer (.inl rfl)
        · rw [ptCopyin_refused accepted]
          exact h
      have written {t : VmState} (h : Held L t dest va b) :
          Held L (ptCopyout t B.msgBuf dest (va + past) (chunkLen length)).vm dest va b := by
        by_cases accepted : copyChecks (va + past) B.msgBuf (chunkLen length) = true
        · rw [ptCopyout, if_pos accepted]
          refine h.copyLoop placed hd reach high hd .copyout _ (copyChecks_reach short accepted) buffer
            (.inr ⟨rfl, fun i lt => ?_⟩)
          rw [lt_def] at lt
          bv_omega
        · rw [ptCopyout_refused accepted]
          exact h
      have rest := sub_toNat_of_le le
      have next : (past + chunkLen length).toNat = past.toNat + (chunkLen length).toNat := by
        rw [BitVec.toNat_add]
        omega
      rw [ipcCopyLoop_step _ _ _ _ _ _ _ more, BitVec.add_assoc]
      exact ih (written read) _ (by omega) (by omega)
    · rw [ipcCopyLoop_done _ _ _ _ _ _ _ more]
      exact h

end Held

theorem exists_leak {B : IpcLayout} (dest source : Nat) {fuel : Nat} {dst src length : Word}
    (unread : ¬ReadsFirst B fuel dst src length) :
    ∃ va len rest src' fuel', 0 < len.toNat ∧ len.toNat ≤ msgBufSize ∧ copyChecks va B.msgBuf len = true ∧
      len.toNat + rest.toNat < 2 ^ 32 ∧ ∀ s, ipcCopyLoop B dest source fuel s dst src length =
        ipcCopyLoop B dest source fuel' (ptCopyout s B.msgBuf dest va len).vm (va + len) src' rest := by
  induction fuel generalizing dst src length with
  | zero => exact absurd trivial unread
  | succ fuel ih =>
    obtain ⟨more, unread⟩ := Classical.not_imp.1 unread
    rw [not_or, not_and_or] at unread
    obtain ⟨refused, unread⟩ := unread
    obtain ⟨pos, short, le, -⟩ := chunkLen_spec more
    have left := sub_toNat_of_le le
    by_cases accepted : copyChecks dst B.msgBuf (chunkLen length) = true
    · refine ⟨dst, chunkLen length, length - chunkLen length, src + chunkLen length, fuel, pos, short, accepted,
        by omega, fun s => ?_⟩
      rw [ipcCopyLoop_step _ _ _ _ _ _ _ more, ptCopyin_refused refused]
    · obtain ⟨va, len, rest, src', fuel', pos, short, writes, fits, same⟩ :=
        ih (unread.resolve_left fun h => h (Bool.eq_false_iff.2 accepted))
      refine ⟨va, len, rest, src', fuel', pos, short, writes, fits, fun s => ?_⟩
      rw [ipcCopyLoop_step _ _ _ _ _ _ _ more, ptCopyin_refused refused, ptCopyout_refused accepted]
      exact same s

/-! ## A state in which they do -/

section Supply

variable {L : Layout} {s : VmState} {pid : Nat} {va : Word}

theorem Tidy.full_supplied (tidy : Tidy L s) (pages : 2 ≤ (stock s).card) (hp : UserPid pid)
    (reach : CopyVa va) : ∃ t, Tidy L t ∧ Full t ∧ present (getPtblEntryByVa t pid va) := by
  let given : VmState := { s with container := fun _ => ⟨2, 0, 0, 0, 1⟩ }
  have tidy' : Tidy L given := tidy.account (tidy.isolated.account rfl rfl rfl (fun _ => rfl) fun _ _ _ ha => ha) rfl rfl
  have supplied : Supplied given pid va := by
    have two : cost given pid va ≤ 2 := by
      unfold cost
      split
      · omega
      · split <;> omega
    have left : room given pid = 2 := by simp [room, given]
    exact ⟨left ▸ two, two.trans pages⟩
  have mapped := (touch_present_iff given pid va 1#32).2 supplied
  have mapping := tidy'.touch hp reach 1#32
  generalize (touchAt given pid va 1#32).vm = t at mapped mapping
  refine ⟨{ t with container := fun _ => ⟨0, 0, 0, 0, 1⟩ }, ?_, fun _ => rfl, mapped⟩
  exact mapping.account (mapping.isolated.account rfl rfl rfl (fun _ => rfl) fun _ _ _ ha => ha) rfl rfl

theorem stock_of_available {boot : VmState} (table : s.allocTable = boot.allocTable)
    (pages : s.numPages = boot.numPages) (cursor : s.lastPallocIndex = 0) :
    (availablePages boot).card ≤ (stock s).card := by
  refine Finset.card_le_card fun i member => ?_
  obtain ⟨range, available⟩ := Finset.mem_filter.1 member
  rw [mem_stock, cursor, available_congr table pages]
  exact ⟨(Finset.mem_Ico.1 range).1, available⟩

theorem Tidy.held (tidy : Tidy L s) {boot : VmState} (table : s.allocTable = boot.allocTable)
    (pages : s.numPages = boot.numPages) (enough : 2 ≤ (availablePages boot).card) (hp : UserPid pid)
    (reach : CopyVa va) : ∃ t b, Held L t pid va b := by
  have tidy' : Tidy L { s with lastPallocIndex := 0 } :=
    tidy.account (tidy.isolated.account rfl rfl rfl (fun _ => rfl) fun _ _ _ ha => ha) rfl rfl
  have stocked : 2 ≤ (stock { s with lastPallocIndex := 0 }).card :=
    enough.trans (stock_of_available table pages rfl)
  obtain ⟨t, tidy, full, mapped⟩ := tidy'.full_supplied stocked hp reach
  exact ⟨t, _, tidy, full, mapped, rfl⟩

theorem exists_held (L : Layout) (hp : UserPid pid) (reach : CopyVa va) : ∃ t b, Held L t pid va b :=
  (pdirInitKern_tidy L sampleMap zeroVm).held (pdirInitKern_account L sampleMap zeroVm).1
    (pdirInitKern_account L sampleMap zeroVm).2 (le_trans (by decide) sampleMap_available) hp reach

end Supply

/-! ## Receiving -/

structure ReceivePair (L : Layout) (B : IpcLayout) (receiver sender : Nat) (addr length : Word) (s s' : IpcState) :
    Prop where
  cur : getCurid s.thread = receiver
  addr : (s.messages.msgBlock sender).bufferAddr = addr
  length : (s.messages.msgBlock sender).length = length
  tidy : Tidy L s.vm
  rest : s' = { s with vm := s'.vm }
  differ : Differ (InMsgBuf B) s.vm s'.vm

/-- The receiver's memory after `sys_sync_recv` does not depend on what `msg_buf` held before. -/
def NonInterfering (L : Layout) (B : IpcLayout) (receiver : Nat) (tf : TrapFrame) (addr length : Word) : Prop :=
  ∀ s s', ReceivePair L B receiver (syscallGetArg2 tf).toNat addr length s s' →
    ∀ u u', recvLoop B s tf = .ok u → recvLoop B s' tf = .ok u' → SameView B receiver u.vm u'.vm

def copyLength (tf : TrapFrame) (sendLength : Word) : Word :=
  if sendLength < syscallGetArg4 tf then sendLength else syscallGetArg4 tf

section Receive

variable {L : Layout} {B : IpcLayout} {s u : IpcState} {tf : TrapFrame}

theorem recvLoop_receives (receives : ¬(IpcCall.recv tf).Waits s.messages (getCurid s.thread))
    (found : msgGetBlockBySendID s.messages (syscallGetArg2 tf).toNat ≠ none) : ∃ u, recvLoop B s tf = .ok u := by
  obtain ⟨block, found⟩ := Option.ne_none_iff_exists'.1 found
  have leaves : ¬(block = numIds ∨
      (s.messages.msgBlock (syscallGetArg2 tf).toNat).recvPid ≠ ofNat 32 (getCurid s.thread)) := by
    simpa [IpcCall.Waits, found] using receives
  unfold recvLoop
  dsimp only
  rw [found]
  dsimp only
  rw [if_neg leaves]
  exact ⟨_, rfl⟩

def oneMessage (sender : Nat) (recvPid addr length : Word) : Messages :=
  ⟨fun p => ⟨numIds, numIds, p, recvPid, length, addr⟩, ⟨sender, sender⟩⟩

theorem oneMessage_found {sender : Nat} (hs : sender < numIds) (recvPid addr length : Word) :
    msgGetBlockBySendID (oneMessage sender recvPid addr length) sender = some sender := by
  unfold msgGetBlockBySendID msgScan oneMessage
  rw [if_neg (ne_of_lt hs), if_pos rfl]

def receiveState (receiver sender : Nat) (addr length : Word) (vm : VmState) : IpcState :=
  ⟨setCurid idleThreads receiver, vm, oneMessage sender (ofNat 32 receiver) addr length, false, fun _ => none, []⟩

theorem receiveState_receives (B : IpcLayout) (receiver : Nat) (tf : TrapFrame) (addr length : Word) (vm : VmState)
    (hs : (syscallGetArg2 tf).toNat < numIds) :
    ∃ u, recvLoop B (receiveState receiver (syscallGetArg2 tf).toNat addr length vm) tf = .ok u ∧
      u.vm = ipcCopy B vm receiver (syscallGetArg3 tf) (syscallGetArg2 tf).toNat addr (copyLength tf length) := by
  have found := oneMessage_found hs (ofNat 32 receiver) addr length
  have cur : getCurid (setCurid idleThreads receiver) = receiver := rfl
  have receives : ¬(IpcCall.recv tf).Waits (oneMessage (syscallGetArg2 tf).toNat (ofNat 32 receiver) addr length)
      (getCurid (setCurid idleThreads receiver)) := by
    dsimp only [IpcCall.Waits]
    rw [cur, found]
    rintro (none | other)
    · exact ne_of_lt hs (Option.some.inj none)
    · exact other rfl
  obtain ⟨u, next⟩ := recvLoop_receives (B := B) (s := receiveState receiver (syscallGetArg2 tf).toNat addr length vm)
    receives (by rw [receiveState, found]; exact nofun)
  refine ⟨u, next, ?_⟩
  rcases recvLoop_cases next with ⟨waits, -⟩ | ⟨-, -, copied⟩
  · exact absurd waits receives
  · exact copied

theorem leaks (placed : Placed L B) {receiver : Nat} (hr : UserPid receiver)
    (hs : 1 ≤ (syscallGetArg2 tf).toNat ∧ (syscallGetArg2 tf).toNat < numIds) (addr length : Word)
    (unread : ¬ReadsFirst B (copyLength tf length).toNat (syscallGetArg3 tf) addr (copyLength tf length)) :
    ¬NonInterfering L B receiver tf addr length := by
  intro secret
  obtain ⟨va, len, rest, src, fuel, pos, short, writes, fits, same⟩ :=
    exists_leak receiver (syscallGetArg2 tf).toNat unread
  have nonzero : len ≠ 0#32 := by
    rintro rfl
    exact absurd pos (by decide)
  have high := (copyChecks_iff.1 writes).1
  have reach := reach_first nonzero (copyChecks_reach short writes)
  obtain ⟨vm, b, held⟩ := exists_held L hr reach
  -- the other state has another first byte in the buffer
  let vm' : VmState := { vm with mem := Function.update vm.mem B.msgBuf (vm.mem B.msgBuf + 1) }
  have first : InMsgBuf B B.msgBuf := by
    rw [InMsgBuf, sub_self]
    decide
  have differ : Differ (InMsgBuf B) vm vm' := by
    refine ⟨rfl, fun x changed => ?_⟩
    by_cases here : x = B.msgBuf
    · rw [here]
      exact first
    · exact absurd (Function.update_of_ne here ..) changed
  have held' : Held L vm' receiver va b := by
    refine held.write hr (fun x changed => (placed.buffer (differ.mem x changed)).1) (Eq.trans ?_ held.value)
    have other : userPa vm receiver va ≠ B.msgBuf := fun here => held.outside placed hr reach (here.symm ▸ first)
    exact Function.update_of_ne other ..
  obtain ⟨u, next, copied⟩ := receiveState_receives B receiver tf addr length vm hs.2
  obtain ⟨u', next', copied'⟩ := receiveState_receives B receiver tf addr length vm' hs.2
  have views := secret _ _ ⟨rfl, rfl, rfl, held.tidy, rfl, differ⟩ u u' next next' va fun inside =>
    (placed.buffer (s := vm) inside).2 (.inr high)
  have written := held.copyout placed hr reach high short nonzero writes
  have written' := held'.copyout placed hr reach high short nonzero writes
  have kept := (written.ipcCopyLoop placed hr reach high hs fuel src pos fits).view
  have kept' := (written'.ipcCopyLoop placed hr reach high hs fuel src pos fits).view
  rw [copied, copied', ipcCopy, ipcCopy, same, same, kept, kept'] at views
  have bytes := Option.some.inj views
  rw [show vm'.mem B.msgBuf = vm.mem B.msgBuf + 1 from Function.update_self ..] at bytes
  bv_omega

/-- Whatever addresses and lengths the two parties supplied: the receiver learns nothing of earlier messages exactly
when no chunk is written before one has been read. -/
theorem recv_nonInterfering_iff (L : Layout) (B : IpcLayout) (placed : Placed L B) (receiver : Nat)
    (hr : 1 ≤ receiver ∧ receiver < numIds) (tf : TrapFrame)
    (hs : 1 ≤ (syscallGetArg2 tf).toNat ∧ (syscallGetArg2 tf).toNat < numIds) (addr length : Word) :
    NonInterfering L B receiver tf addr length ↔
      ReadsFirst B (copyLength tf length).toNat (syscallGetArg3 tf) addr (copyLength tf length) := by
  refine ⟨fun secret => ?_, fun reads s s' pair u u' next next' => ?_⟩
  · by_contra unread
    exact leaks placed hr hs addr length unread secret
  · obtain ⟨cur, rfl, rfl, tidy, rest, differ⟩ := pair
    rw [rest] at next'
    rcases recvLoop_cases next with ⟨waits, -, vm⟩ | ⟨leaves, -, vm⟩
    · rcases recvLoop_cases next' with ⟨-, -, vm'⟩ | ⟨leaves, -⟩
      · rw [vm, vm']
        exact differ.sameView tidy placed hr
      · exact absurd waits leaves
    · rcases recvLoop_cases next' with ⟨waits, -⟩ | ⟨-, -, vm'⟩
      · exact absurd waits leaves
      · rw [vm, vm']
        rw [cur]
        exact differ.ipcCopyLoop placed hr hs _ tidy reads

end Receive

theorem sample_placed : Placed sampleLayout sampleIpcLayout := ⟨by decide, by decide, by decide⟩

theorem recv_nonInterfering_iff_mapped :
    NonInterfering sampleLayout sampleIpcLayout 2 (syscallFrame .syncRecv 1 0x40000000 250) 0x50000000 300 :=
  (recv_nonInterfering_iff sampleLayout sampleIpcLayout sample_placed 2 (by decide)
    (syscallFrame .syncRecv 1 0x40000000 250) (by decide) 0x50000000 300).2 (by decide +kernel)

theorem recv_interferes :
    ¬NonInterfering sampleLayout sampleIpcLayout 2 (syscallFrame .syncRecv 1 0x40000000 1) 0 1 :=
  leaks sample_placed (by decide) (by decide) 0 1 (by decide)

end Certikos
