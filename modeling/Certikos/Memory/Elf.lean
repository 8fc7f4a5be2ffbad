import Certikos.Memory.OwnFrames
import Certikos.Thread.Sched

/-!
# Loading a program

`elf_load` and `elf_entry` of `elf.c`. The headers are read from memory where the source reads them. The
lemmas say that neither loading nor any user copy changes how many children a container has.
-/

namespace Certikos
open Lib

abbrev elfMagic : Word := 0x464C457F#32
abbrev elfProgLoad : Word := 1#32
abbrev elfProgFlagWrite : Word := 2#32
abbrev elfShtStrtab : Word := 3#32
abbrev elfShnUndef : Word := 0#32

def readHalf (m : Mem) (a : Word) : Word := (m a).setWidth 32 + (m (a + 1#32)).setWidth 32 * 256#32

def rounddown (a n : Word) : Word := a - a % n
def roundup (a n : Word) : Word := rounddown (a + n - 1#32) n

/-- One round of the page loop. `ph` is the address of the program header, which is read again. -/
def elfLoadPage (pid perm : Nat) (ph zva : Word) (s : VmState) (va fa : Word) : VmState :=
  let s := (allocPage s pid va perm).1
  if va < rounddown zva 4096#32 then (ptCopyout s fa pid va 4096#32).vm
  else if va < zva ∧ readWord s.mem (ph + 16#32) ≠ 0#32 then
    let s := (ptMemset s pid va 0 4096#32).vm
    (ptCopyout s fa pid va (zva - va)).vm
  else (ptMemset s pid va 0 4096#32).vm

def elfLoadPages (pid perm : Nat) (ph zva : Word) : Nat → VmState → (va fa : Word) → VmState
  | 0, s, _, _ => s
  | n + 1, s, va, fa =>
    elfLoadPages pid perm ph zva n (elfLoadPage pid perm ph zva s va fa) (va + 4096#32) (fa + 4096#32)

def elfLoadSegment (exe : Word) (pid : Nat) (s : VmState) (ph : Word) : VmState :=
  if readWord s.mem ph ≠ elfProgLoad then s
  else
    let pVa := readWord s.mem (ph + 8#32)
    let fa := exe + rounddown (readWord s.mem (ph + 4#32)) 4096#32
    let va := rounddown pVa 4096#32
    let zva := pVa + readWord s.mem (ph + 16#32)
    let eva := roundup (pVa + readWord s.mem (ph + 20#32)) 4096#32
    let write := if readWord s.mem (ph + 24#32) &&& elfProgFlagWrite ≠ 0#32 then pteW else 0
    -- both ends are multiples of the page size, so the loop stops at `eva` without wrapping
    elfLoadPages pid (pteU + pteP + write) ph zva ((eva.toNat - va.toNat) / pageSize) s va fa

def elfLoadSegments (exe : Word) (pid : Nat) : Nat → VmState → (ph : Word) → VmState
  | 0, s, _ => s
  | n + 1, s, ph => elfLoadSegments exe pid n (elfLoadSegment exe pid s ph) (ph + 32#32)

def elfLoad (s : VmState) (exe : Word) (pid : Nat) : Except (Halt VmState) VmState :=
  let eShstrndx := readHalf s.mem (exe + 50#32)
  let sh := exe + readWord s.mem (exe + 32#32)
  let ph := exe + readWord s.mem (exe + 28#32)
  let eph := ph + 32#32 * readHalf s.mem (exe + 44#32)
  if readWord s.mem exe ≠ elfMagic then
    .error (.panic "Kernel assertion failed: eh->e_magic == ELF_MAGIC\n" s)
  else if eShstrndx = elfShnUndef then
    .error (.panic "Kernel assertion failed: eh->e_shstrndx != ELF_SHN_UNDEF\n" s)
  else if readWord s.mem (sh + 40#32 * eShstrndx + 4#32) ≠ elfShtStrtab then
    .error (.panic "Kernel assertion failed: sh[eh->e_shstrndx].sh_type == ELF_SHT_STRTAB\n" s)
  else .ok (elfLoadSegments exe pid ((eph.toNat - ph.toNat) / 32) s ph)

def elfEntry (s : VmState) (exe : Word) : Except (Halt VmState) Word :=
  if readWord s.mem exe ≠ elfMagic then
    .error (.panic "Kernel assertion failed: eh->e_magic == ELF_MAGIC\n" s)
  else .ok (readWord s.mem (exe + 24#32))

/-! ## The children of a container -/

structure SameChildren (s s' : VmState) : Prop where
  nchildren : ∀ id, containerGetNchildren s' id = containerGetNchildren s id

variable (s : VmState) (pid perm : Nat)

theorem SameChildren.refl : SameChildren s s := ⟨fun _ => rfl⟩

theorem SameChildren.trans {s₁ s₂ s₃ : VmState} (h : SameChildren s₁ s₂) (k : SameChildren s₂ s₃) :
    SameChildren s₁ s₃ :=
  ⟨fun id => (k.nchildren id).trans (h.nchildren id)⟩

theorem sameChildren_mem (m : Mem) : SameChildren s { s with mem := m } := ⟨fun _ => rfl⟩

theorem sameChildren_containerAlloc : SameChildren s (containerAlloc s pid).1 := by
  have charged : SameChildren s (charge s pid) := by
    refine ⟨fun id => ?_⟩
    unfold containerGetNchildren charge modifyContainer
    by_cases here : id = pid
    · simp [here]
    · simp [here]
  rcases containerAlloc_cases s pid with ⟨-, result⟩ | ⟨-, ⟨-, result⟩ | ⟨f, -, -, -, result⟩⟩
  · rw [result]
    exact .refl s
  · rw [result]
    exact ⟨charged.nchildren⟩
  · rw [result]
    exact ⟨charged.nchildren⟩

theorem sameChildren_installTable (pdeIndex frame : Nat) :
    SameChildren s (installTable s pid pdeIndex frame) := by
  apply loop_preserves (SameChildren s)
  · exact ⟨fun _ => rfl⟩
  · intro i t lt same
    exact same.trans ⟨fun _ => rfl⟩

theorem sameChildren_allocPage (va : Word) (perm : Nat) :
    SameChildren s (allocPage s pid va perm).1 := by
  apply allocPage_preserves (SameChildren s) (.refl s)
  · exact fun t same => same.trans (sameChildren_containerAlloc t pid)
  · exact fun t f same => same.trans (sameChildren_installTable t pid _ f)
  · exact fun t f same => same.trans ⟨fun _ => rfl⟩

theorem sameChildren_copyLoop (kind : CopyKind) (pid fuel : Nat) (s : VmState) (uva kva len copied : Word) :
    SameChildren s (copyLoop kind pid fuel s uva kva len copied).vm := by
  induction fuel generalizing s uva kva len copied with
  | zero => exact .refl s
  | succ fuel ih =>
    rw [copyLoop]
    split
    · exact .refl s
    · refine SameChildren.trans ?_ (ih ..)
      have touched : SameChildren s (touchAt s pid uva len).vm := by
        rw [touch_vm]
        split
        · exact .refl s
        · exact sameChildren_allocPage ..
      exact touched.trans (sameChildren_mem ..)

theorem sameChildren_ptCopyin (uva kva len : Word) :
    SameChildren s (ptCopyin s pid uva kva len).vm := by
  unfold ptCopyin
  split
  · exact sameChildren_copyLoop ..
  · exact .refl s

theorem sameChildren_ptCopyout (kva : Word) (pid : Nat) (uva len : Word) :
    SameChildren s (ptCopyout s kva pid uva len).vm := by
  unfold ptCopyout
  split
  · exact sameChildren_copyLoop ..
  · exact .refl s

theorem sameChildren_exec (uva len : Word) (copy : UserCopy) :
    SameChildren s (copy.exec s pid uva len).vm := by
  cases copy with
  | copyin kva => exact sameChildren_ptCopyin ..
  | copyout kva => exact sameChildren_ptCopyout ..
  | memset c => exact sameChildren_copyLoop ..

theorem sameChildren_elfLoadPage (ph zva : Word) (s : VmState) (va fa : Word) :
    SameChildren s (elfLoadPage pid perm ph zva s va fa) := by
  have mapped := sameChildren_allocPage s pid va perm
  unfold elfLoadPage
  dsimp only
  split
  · exact mapped.trans (sameChildren_ptCopyout ..)
  · split
    · exact (mapped.trans (sameChildren_copyLoop ..)).trans (sameChildren_ptCopyout ..)
    · exact mapped.trans (sameChildren_copyLoop ..)

theorem sameChildren_elfLoadPages (ph zva : Word) (n : Nat) (s : VmState) (va fa : Word) :
    SameChildren s (elfLoadPages pid perm ph zva n s va fa) := by
  induction n generalizing s va fa with
  | zero => exact .refl s
  | succ n ih => exact (sameChildren_elfLoadPage ..).trans (ih ..)

theorem sameChildren_elfLoadSegments (exe : Word) (pid n : Nat) (s : VmState) (ph : Word) :
    SameChildren s (elfLoadSegments exe pid n s ph) := by
  induction n generalizing s ph with
  | zero => exact .refl s
  | succ n ih =>
    refine SameChildren.trans ?_ (ih ..)
    unfold elfLoadSegment
    split
    · exact .refl s
    · exact sameChildren_elfLoadPages ..

theorem sameChildren_elfLoad {s s' : VmState} {exe : Word} {pid : Nat} (loaded : elfLoad s exe pid = .ok s') :
    SameChildren s s' := by
  unfold elfLoad at loaded
  dsimp only at loaded
  split at loaded
  · contradiction
  · split at loaded
    · contradiction
    · split at loaded
      · contradiction
      · cases loaded
        exact sameChildren_elfLoadSegments ..

end Certikos
