import Certikos.Memory.CopyOut
import Certikos.Memory.Elf

/-!
# The image of a program

What `elf_load` leaves behind the addresses of the segments: the bytes of the file, zeros after them, and table
entries with the permissions of the segment.
-/

namespace Certikos
open Lib
open BitVec (toNat_add ofNat lt_def toNat_ofNat eq_of_toNat_eq)
open Finset (mem_Ico mem_union)

/-! ## Images in memory -/

structure ProgHdr where
  pType : Word
  pOffset : Word
  pVa : Word
  pFilesz : Word
  pMemsz : Word
  pFlags : Word
  deriving DecidableEq

def readProgHdr (m : Mem) (ph : Word) : ProgHdr where
  pType := readWord m ph
  pOffset := readWord m (ph + 4#32)
  pVa := readWord m (ph + 8#32)
  pFilesz := readWord m (ph + 16#32)
  pMemsz := readWord m (ph + 20#32)
  pFlags := readWord m (ph + 24#32)

def loadHdrs (m : Mem) : Nat → Word → List ProgHdr
  | 0, _ => []
  | n + 1, ph =>
    if readWord m ph = elfProgLoad then readProgHdr m ph :: loadHdrs m n (ph + 32#32)
    else loadHdrs m n (ph + 32#32)

def segments (m : Mem) (exe : Word) : List ProgHdr :=
  loadHdrs m (readHalf m (exe + 44#32)).toNat (exe + readWord m (exe + 28#32))

def ProgHdr.pages (p : ProgHdr) : Finset Nat :=
  Finset.Ico (p.pVa.toNat / pageSize) ((p.pVa.toNat + p.pMemsz.toNat + (pageSize - 1)) / pageSize)

def pagesOf (segments : List ProgHdr) : Finset Nat := segments.foldr (fun p pages => p.pages ∪ pages) ∅

structure ProgHdr.Proper (p : ProgHdr) (size : Nat) : Prop where
  filled : p.pFilesz.toNat ≤ p.pMemsz.toNat
  inFile : p.pOffset.toNat + p.pFilesz.toNat ≤ size
  congruent : p.pOffset.toNat % pageSize = p.pVa.toNat % pageSize
  lo : vmUserlo ≤ p.pVa.toNat
  hi : p.pVa.toNat + p.pMemsz.toNat ≤ vmUserhi

structure ElfImage (m : Mem) (exe : Word) (size : Nat) : Prop where
  low : exe.toNat + size ≤ vmUserlo
  magic : readWord m exe = elfMagic
  named : readHalf m (exe + 50#32) ≠ elfShnUndef
  strtab : readWord m (exe + readWord m (exe + 32#32) + 40#32 * readHalf m (exe + 50#32) + 4#32) = elfShtStrtab
  table : (readWord m (exe + 28#32)).toNat + 32 * (readHalf m (exe + 44#32)).toNat ≤ size
  proper : ∀ p ∈ segments m exe, p.Proper size
  disjoint : (segments m exe).Pairwise fun p q => Disjoint p.pages q.pages

theorem mem_pagesOf {segs : List ProgHdr} {v : Nat} : v ∈ pagesOf segs ↔ ∃ p ∈ segs, v ∈ p.pages := by
  induction segs with
  | nil => simp [pagesOf]
  | cons p segs ih =>
    change v ∈ p.pages ∪ pagesOf segs ↔ _
    rw [mem_union, ih, List.exists_mem_cons_iff]

theorem ProgHdr.Proper.pages_valid {p : ProgHdr} {size pid : Nat} (proper : p.Proper size)
    (hp : UserPid pid) : ∀ v ∈ p.pages, (Use.page pid v).Valid := by
  intro v member
  obtain ⟨-, -, -, lo, hi⟩ := proper
  rw [ProgHdr.pages, mem_Ico] at member
  simp only [vmUserlo, vmUserhi, pageSize] at *
  refine ⟨hp, ?_, ?_⟩
  · simp only [vmUserloPi, vmUserlo, pageSize]
    omega
  · simp only [vmUserhiPi, vmUserhi, pageSize]
    omega

theorem readWord_low {m m' : Mem} {a : Word} (same : ∀ x : Word, x.toNat < vmUserlo → m' x = m x)
    (low : a.toNat + 4 ≤ vmUserlo) : readWord m' a = readWord m a := by
  apply readWord_congr
  intro i small
  apply same
  rw [lt_def] at small
  change i.toNat < 4 at small
  simp only [vmUserlo, toNat_add] at *
  omega

theorem readProgHdr_low {m m' : Mem} {ph : Word} (same : ∀ x : Word, x.toNat < vmUserlo → m' x = m x)
    (low : ph.toNat + 32 ≤ vmUserlo) : readProgHdr m' ph = readProgHdr m ph := by
  have field (k : Word) (small : k.toNat + 4 ≤ 32) : readWord m' (ph + k) = readWord m (ph + k) := by
    apply readWord_low same
    simp only [vmUserlo, toNat_add] at *
    omega
  have first : readWord m' ph = readWord m ph := readWord_low same (by omega)
  simp only [readProgHdr, first, field 4#32 (by decide), field 8#32 (by decide), field 16#32 (by decide),
    field 20#32 (by decide), field 24#32 (by decide)]

/-! ## Virtual pages -/

theorem toNat_vaddr {v : Nat} (lt : v < 1048576) : (vaddr v).toNat = v * pageSize := by
  rw [vaddr, toNat_ofNat, pageSize]
  omega

theorem toNat_rounddown (a : Word) : (rounddown a 4096#32).toNat = a.toNat / 4096 * 4096 := by
  have part : (a % 4096#32).toNat = a.toNat % 4096 := toNat_mod_page a
  rw [rounddown, sub_toNat_of_le (by omega), part]
  omega

theorem vaddr_succ (v : Nat) : vaddr (v + 1) = vaddr v + 4096#32 := by
  apply eq_of_toNat_eq
  rw [vaddr, vaddr, toNat_ofNat, toNat_add, toNat_ofNat, pageSize]
  change _ = (_ + 4096) % _
  omega

/-! ## One page -/

theorem storeBytes_congr {m : Mem} {a len : Word} {bytes bytes' : Word → Byte}
    (same : ∀ i, i < len → bytes i = bytes' i) : storeBytes m a len bytes = storeBytes m a len bytes' := by
  funext x
  unfold storeBytes
  split
  · exact same _ ‹_›
  · rfl

theorem storeBytes_fill (m : Mem) {a src n : Word} (short : n.toNat ≤ 4096) (low : src.toNat + n.toNat ≤ vmUserlo)
    (high : vmUserlo ≤ a.toNat) (fits : a.toNat + 4096 ≤ 2 ^ 32) :
    storeBytes (storeBytes m a 4096#32 fun _ => 0) a n (fun i => storeBytes m a 4096#32 (fun _ => 0) (src + i)) =
      storeBytes m a 4096#32 fun i => if i < n then m (src + i) else 0 := by
  funext x
  unfold storeBytes
  generalize x - a = d
  dsimp only
  by_cases early : d < n
  · have apart : ¬(src + d - a < 4096#32) := by
      rw [lt_def] at early
      have sum : (src + d).toNat = src.toNat + d.toNat := by
        rw [toNat_add]
        omega
      rw [lt_def, BitVec.toNat_sub, sum]
      change ¬(_ < 4096)
      simp only [vmUserlo] at *
      omega
    have inPage : d < 4096#32 := by
      rw [lt_def] at *
      exact lt_of_lt_of_le early short
    rw [if_pos early, if_neg apart, if_pos inPage, if_pos early]
  · simp only [if_neg early]

theorem vm_congr {s : VmState} {m m' : Mem} (same : m = m') : ({ s with mem := m } : VmState) = { s with mem := m' } := by
  rw [same]

section Single

variable {s : VmState} {pid : Nat} {va kva len : Word}

theorem ptCopyout_single (mapped : present (getPtblEntryByVa s pid va)) (checks : copyChecks va kva len = true)
    (nonzero : len ≠ 0#32) (fits : va.toNat % 4096 + len.toNat ≤ 4096) :
    (ptCopyout s kva pid va len).vm =
      { s with mem := storeBytes s.mem (userPa s pid va) len fun i => s.mem (kva + i) } := by
  obtain ⟨vm, pa⟩ := touchAt_mapped len mapped
  rw [ptCopyout, if_pos checks, copyLoop_single nonzero fits, Touch.moved, CopyKind.move, memmove_eq, vm, pa,
    touch_size_of_fits s pid fits]

theorem ptMemset_single (c : Byte) (mapped : present (getPtblEntryByVa s pid va)) (nonzero : len ≠ 0#32)
    (fits : va.toNat % 4096 + len.toNat ≤ 4096) :
    (ptMemset s pid va c len).vm = { s with mem := storeBytes s.mem (userPa s pid va) len fun _ => c } := by
  obtain ⟨vm, pa⟩ := touchAt_mapped len mapped
  rw [ptMemset, copyLoop_single nonzero fits, Touch.moved, CopyKind.move, memset_eq, vm, pa,
    touch_size_of_fits s pid fits]

end Single

def pageBytes (m : Mem) (p : ProgHdr) (va fa : Word) (i : Word) : Byte :=
  if va.toNat + i.toNat < p.pVa.toNat + p.pFilesz.toNat ∧ p.pFilesz ≠ 0#32 then m (fa + i) else 0

structure PageOf (p : ProgHdr) (va fa : Word) : Prop where
  user : userVa va
  aligned : va.toNat % 4096 = 0
  first : p.pVa.toNat / 4096 * 4096 ≤ va.toNat
  proper : vmUserlo ≤ p.pVa.toNat ∧ p.pVa.toNat + p.pFilesz.toNat ≤ vmUserhi
  low : va.toNat < p.pVa.toNat + p.pFilesz.toNat → p.pFilesz ≠ 0#32 →
    fa.toNat + min 4096 (p.pVa.toNat + p.pFilesz.toNat - va.toNat) ≤ vmUserlo

section Fill

variable {L : Layout} {s : VmState} {pid perm : Nat} {p : ProgHdr} {va fa ph : Word}
variable (page : PageOf p va fa)
include page

theorem PageOf.zva : (p.pVa + p.pFilesz).toNat = p.pVa.toNat + p.pFilesz.toNat := by
  have bound := page.proper.2
  simp only [vmUserhi] at bound
  rw [toNat_add]
  omega

theorem PageOf.fits : va.toNat % 4096 + (4096#32).toNat ≤ 4096 := by
  rw [page.aligned]
  decide

variable (h : Isolated L s) (hp : UserPid pid) (mapped : present (getPtblEntryByVa s pid va))
include h hp mapped

theorem partial_eq (inside : va.toNat < p.pVa.toNat + p.pFilesz.toNat) (some : p.pFilesz ≠ 0#32)
    (last : p.pVa.toNat + p.pFilesz.toNat - va.toNat < 4096) :
    (ptCopyout (ptMemset s pid va 0 4096#32).vm fa pid va (p.pVa + p.pFilesz - va)).vm =
      { s with mem := storeBytes s.mem (userPa s pid va) 4096#32 (pageBytes s.mem p va fa) } := by
  have zva := page.zva
  have len := sub_toNat_of_le (show va.toNat ≤ (p.pVa + p.pFilesz).toNat by omega)
  rw [zva] at len
  have nonzero : p.pVa + p.pFilesz - va ≠ 0#32 := by
    intro zero
    rw [zero] at len
    change 0 = _ at len
    omega
  have low := page.low inside some
  have fits := page.fits
  have data := storeBytes_writable (L := L) hp page.user (fun _ => 0) fits mapped
  have stays : getPtblEntryByVa (ptMemset s pid va 0 4096#32).vm pid va = getPtblEntryByVa s pid va := by
    rw [ptMemset_single 0 mapped (by decide) fits, ← getPtblEntryByVa_page, h.entry_write data (page_valid hp page.user),
      getPtblEntryByVa_page]
  have pa : userPa (ptMemset s pid va 0 4096#32).vm pid va = userPa s pid va := by rw [userPa, stays, userPa]
  have user := page.user
  have checks : copyChecks va fa (p.pVa + p.pFilesz - va) = true := by
    apply copyChecks_of_low user.1
    · have bound := page.proper.2
      omega
    · omega
  have aligned := page.aligned
  rw [ptCopyout_single (by rwa [stays]) checks nonzero (by omega), pa, ptMemset_single 0 mapped (by decide) fits]
  have frame := (h.userByte hp user mapped).frame
  have physical := toNat_userPa s pid va
  rw [storeBytes_fill s.mem (by omega) (by omega) frame (by omega)]
  have same : (fun i => if i < p.pVa + p.pFilesz - va then s.mem (fa + i) else 0) = pageBytes s.mem p va fa := by
    funext i
    unfold pageBytes
    refine if_congr ?_ rfl rfl
    rw [lt_def, len, and_iff_left some]
    omega
  rw [same]

def fillPage (s : VmState) (pid : Nat) (p : ProgHdr) (va fa : Word) : VmState :=
  { s with mem := storeBytes s.mem (userPa s pid va) 4096#32 (pageBytes s.mem p va fa) }

theorem branches_eq (hdr : readWord s.mem (ph + 16#32) = p.pFilesz) :
    (if va < rounddown (p.pVa + p.pFilesz) 4096#32 then (ptCopyout s fa pid va 4096#32).vm
      else if va < p.pVa + p.pFilesz ∧ readWord s.mem (ph + 16#32) ≠ 0#32 then
        (ptCopyout (ptMemset s pid va 0 4096#32).vm fa pid va (p.pVa + p.pFilesz - va)).vm
      else (ptMemset s pid va 0 4096#32).vm) = fillPage s pid p va fa := by
  have zva := page.zva
  have down := toNat_rounddown (p.pVa + p.pFilesz)
  have aligned := page.aligned
  have fits := page.fits
  have user := page.user
  have bound := page.proper.2
  have whole_iff : va < rounddown (p.pVa + p.pFilesz) 4096#32 ↔
      va.toNat < (p.pVa.toNat + p.pFilesz.toNat) / 4096 * 4096 := by
    rw [lt_def, down, zva]
  have within_iff : va < p.pVa + p.pFilesz ↔ va.toNat < p.pVa.toNat + p.pFilesz.toNat := by
    rw [lt_def, zva]
  rw [hdr]
  split
  · -- the whole page is in the file
    rename_i whole
    rw [whole_iff] at whole
    have some : p.pFilesz ≠ 0#32 := by
      intro zero
      have first := page.first
      rw [zero] at whole
      change _ < (_ + 0) / 4096 * 4096 at whole
      omega
    have low := page.low (by omega) some
    have checks : copyChecks va fa 4096#32 = true := by
      apply copyChecks_of_low user.1
      · change va.toNat + 4096 ≤ _
        omega
      · change fa.toNat + 4096 ≤ _
        omega
    rw [ptCopyout_single mapped checks (by decide) fits, fillPage]
    apply vm_congr
    apply storeBytes_congr
    intro i small
    have small : i.toNat < 4096 := small
    exact (if_pos ⟨by omega, some⟩).symm
  · rename_i rest
    rw [whole_iff] at rest
    split
    · rename_i within
      have inside := within_iff.1 within.1
      exact partial_eq page h hp mapped inside within.2 (by omega)
    · -- nothing of the page is in the file
      rename_i outside
      rw [ptMemset_single 0 mapped (by decide) fits, fillPage]
      apply vm_congr
      apply storeBytes_congr
      intro i small
      refine (if_neg fun both => outside ⟨within_iff.2 ?_, both.2⟩).symm
      omega

end Fill

/-! ## Rounds of the page loop -/

structure Loaded (L : Layout) (pages : Finset Nat) (s s' : VmState) (pid : Nat) (done : Finset Nat) : Prop where
  isolated : Isolated L s'
  affords : Affords s' pid pages
  kernel : ∀ x : Word, x.toNat < vmUserlo → s'.mem x = s.mem x
  entries : ∀ q v, (Use.page q v).Valid → ¬(q = pid ∧ v ∈ done) →
    getPtblEntryByVa s' q (vaddr v) = getPtblEntryByVa s q (vaddr v)
  kept : ∀ q va b, (1 ≤ q ∧ q < numIds) → UserByte s q va b → ¬(q = pid ∧ va.toNat / pageSize ∈ done) →
    UserByte s' q va b

structure PageHolds (s : VmState) (pid v perm : Nat) (bytes : Word → Byte) : Prop where
  flags : getPtblEntryByVa s pid (vaddr v) &&& 7#32 = ofNat 32 perm
  shows : ∀ i, i < 4096#32 → UserByte s pid (vaddr v + i) (bytes i)

section Rounds

variable {L : Layout} {pages done done' : Finset Nat} {s s' s'' : VmState} {pid perm v n : Nat} {p : ProgHdr}
variable {va fa ph : Word} {bytes : Word → Byte}

theorem Loaded.refl (h : Isolated L s) (affords : Affords s pid pages) : Loaded L pages s s pid ∅ :=
  ⟨h, affords, fun _ _ => rfl, fun _ _ _ _ => rfl, fun _ _ _ _ seen _ => seen⟩

theorem Loaded.trans (first : Loaded L pages s s' pid done) (second : Loaded L pages s' s'' pid done') :
    Loaded L pages s s'' pid (done ∪ done') where
  isolated := second.isolated
  affords := second.affords
  kernel x low := (second.kernel x low).trans (first.kernel x low)
  entries q v valid outside := by
    rw [mem_union, and_or_left, not_or] at outside
    exact (second.entries q v valid outside.2).trans (first.entries q v valid outside.1)
  kept q va b hq seen outside := by
    rw [mem_union, and_or_left, not_or] at outside
    exact second.kept q va b hq (first.kept q va b hq seen outside.1) outside.2

theorem vaddr_page (lt : v < 1048576) {i : Word} (small : i < 4096#32) : (vaddr v + i).toNat / pageSize = v := by
  have small : i.toNat < 4096 := small
  rw [toNat_add, toNat_vaddr lt, pageSize]
  omega

theorem PageHolds.keep (holds : PageHolds s pid v perm bytes) (valid : (Use.page pid v).Valid)
    (loaded : Loaded L pages s s' pid done) (outside : v ∉ done) : PageHolds s' pid v perm bytes where
  flags := by
    rw [loaded.entries pid v valid fun both => outside both.2]
    exact holds.flags
  shows i small := by
    apply loaded.kept pid _ _ valid.1 (holds.shows i small)
    rw [vaddr_page (vpage_lt valid) small]
    exact fun both => outside both.2

theorem flags_mk (f : Nat) (small : perm < 8) :
    ofNat 32 (f * pageSize + perm) &&& 7#32 = ofNat 32 perm := by
  apply eq_of_toNat_eq
  rw [BitVec.toNat_and, toNat_ofNat]
  change _ &&& (2 ^ 3 - 1) = _
  rw [Nat.and_two_pow_sub_one_eq_mod, toNat_ofNat, pageSize]
  omega

theorem pageBytes_low {m m' : Mem} (page : PageOf p va fa) (same : ∀ x : Word, x.toNat < vmUserlo → m' x = m x)
    {i : Word} (small : i < 4096#32) : pageBytes m' p va fa i = pageBytes m p va fa i := by
  unfold pageBytes
  split
  · rename_i within
    have low := page.low (by omega) within.2
    have small : i.toNat < 4096 := small
    apply same
    simp only [vmUserlo, toNat_add] at *
    omega
  · rfl

variable (hp : UserPid pid) (valid : ∀ v ∈ pages, (Use.page pid v).Valid)
variable (bit : perm % 2 = 1) (small : perm < 8) (phLow : ph.toNat + 32 ≤ vmUserlo)
include hp valid bit small phLow

theorem elfLoadPage_loaded (h : Isolated L s) (affords : Affords s pid pages) (member : v ∈ pages)
    (page : PageOf p (vaddr v) fa) (missing : ¬present (getPtblEntryByVa s pid (vaddr v)))
    (hdr : readProgHdr s.mem ph = p) :
    Loaded L pages s (elfLoadPage pid perm ph (p.pVa + p.pFilesz) s (vaddr v) fa) pid {v} ∧
      PageHolds (elfLoadPage pid perm ph (p.pVa + p.pFilesz) s (vaddr v) fa) pid v perm
        (pageBytes s.mem p (vaddr v) fa) := by
  have here := valid v member
  have number : (vaddr v).toNat / pageSize = v := by
    rw [toNat_vaddr (vpage_lt here), pageSize]
    omega
  have user := page.user
  obtain ⟨⟨f, entry⟩, affords₁⟩ := affords.allocPage h hp user valid (by rwa [number]) missing bit
  have h₁ : Isolated L (allocPage s pid (vaddr v) perm).1 := isolated_allocPage h hp user (by omega)
  have kernel₁ (x : Word) (low : x.toNat < vmUserlo) : (allocPage s pid (vaddr v) perm).1.mem x = s.mem x :=
    h.kernel_allocPage hp user (by omega) low
  have entries₁ (q w : Nat) (ok : (Use.page q w).Valid) (outside : ¬(q = pid ∧ w ∈ ({v} : Finset Nat))) :
      getPtblEntryByVa (allocPage s pid (vaddr v) perm).1 q (vaddr w) = getPtblEntryByVa s q (vaddr w) := by
    apply h.entry_allocPage hp user ok
    rw [number]
    rintro ⟨⟩
    exact outside ⟨rfl, Finset.mem_singleton_self v⟩
  have kept₁ (q : Nat) (va : Word) (b : Byte) (hq : UserPid q) (seen : UserByte s q va b)
      (outside : ¬(q = pid ∧ va.toNat / pageSize ∈ ({v} : Finset Nat))) :
      UserByte (allocPage s pid (vaddr v) perm).1 q va b := by
    apply seen.allocPage h hp user (by omega) hq
    rw [number]
    intro same
    obtain ⟨process, vpage⟩ := Use.page.inj same
    exact outside ⟨process, Finset.mem_singleton.2 vpage⟩
  have hdr₁ : readWord (allocPage s pid (vaddr v) perm).1.mem (ph + 16#32) = p.pFilesz := by
    have same := readProgHdr_low kernel₁ phLow
    rw [hdr] at same
    exact congrArg ProgHdr.pFilesz same
  have round : elfLoadPage pid perm ph (p.pVa + p.pFilesz) s (vaddr v) fa =
      fillPage (allocPage s pid (vaddr v) perm).1 pid p (vaddr v) fa :=
    branches_eq page h₁ hp (entry ▸ present_mk f bit) hdr₁
  rw [round]
  generalize (allocPage s pid (vaddr v) perm).1 = t at *
  have mapped : present (getPtblEntryByVa t pid (vaddr v)) := entry ▸ present_mk f bit
  have fits := page.fits
  have stored : Stored L pages t (fillPage t pid p (vaddr v) fa) pid (vaddr v) 4096#32 (pageBytes t.mem p (vaddr v) fa) :=
    storeBytes_stored hp valid h₁ affords₁ user mapped fits
  have data := storeBytes_writable (L := L) hp user (pageBytes t.mem p (vaddr v) fa) fits mapped
  have entries₂ (q w : Nat) (ok : (Use.page q w).Valid) :
      getPtblEntryByVa (fillPage t pid p (vaddr v) fa) q (vaddr w) = getPtblEntryByVa t q (vaddr w) :=
    h₁.entry_write data ok
  refine ⟨⟨stored.isolated, stored.affords, ?_, ?_, ?_⟩, ?_, ?_⟩
  · exact fun x low => (stored.kernel x low).trans (kernel₁ x low)
  · exact fun q w ok outside => (entries₂ q w ok).trans (entries₁ q w ok outside)
  · intro q va b hq seen outside
    apply stored.kept q va b hq (kept₁ q va b hq seen outside)
    rintro ⟨process, range⟩
    refine outside ⟨process, Finset.mem_singleton.2 ?_⟩
    have inside := vaddr_page (vpage_lt here) range
    rwa [BitVec.add_comm, BitVec.sub_add_cancel] at inside
  · rw [entries₂ pid v here, entry, flags_mk f small]
  · intro i lt
    rw [← pageBytes_low page kernel₁ lt]
    exact stored.written i lt

theorem elfLoadPages_loaded (h : Isolated L s) (affords : Affords s pid pages) (members : ∀ k < n, v + k ∈ pages)
    (pageOf : ∀ k < n, PageOf p (vaddr (v + k)) (fa + vaddr k))
    (missing : ∀ k < n, ¬present (getPtblEntryByVa s pid (vaddr (v + k)))) (hdr : readProgHdr s.mem ph = p) :
    Loaded L pages s (elfLoadPages pid perm ph (p.pVa + p.pFilesz) n s (vaddr v) fa) pid (Finset.Ico v (v + n)) ∧
      ∀ k < n, PageHolds (elfLoadPages pid perm ph (p.pVa + p.pFilesz) n s (vaddr v) fa) pid (v + k) perm
        (pageBytes s.mem p (vaddr (v + k)) (fa + vaddr k)) := by
  induction n generalizing s v fa with
  | zero =>
    rw [Nat.add_zero, Finset.Ico_self]
    exact ⟨.refl h affords, fun k none => absurd none (Nat.not_lt_zero k)⟩
  | succ n ih =>
    have start : fa + vaddr 0 = fa := BitVec.add_zero fa
    have firstPage := pageOf 0 (Nat.succ_pos n)
    rw [start] at firstPage
    obtain ⟨first, filled⟩ := elfLoadPage_loaded hp valid bit small phLow h affords (members 0 (Nat.succ_pos n))
      firstPage (missing 0 (Nat.succ_pos n)) hdr
    have next (k : Nat) : v + 1 + k = v + (k + 1) := by omega
    have shift (k : Nat) : fa + 4096#32 + vaddr k = fa + vaddr (k + 1) := by
      rw [vaddr_succ, BitVec.add_assoc, BitVec.add_comm 4096#32]
    rw [Nat.add_zero] at first filled
    rw [elfLoadPages, ← vaddr_succ]
    generalize elfLoadPage pid perm ph (p.pVa + p.pFilesz) s (vaddr v) fa = t at *
    obtain ⟨rest, others⟩ : Loaded L pages t (elfLoadPages pid perm ph (p.pVa + p.pFilesz) n t (vaddr (v + 1))
          (fa + 4096#32)) pid (Finset.Ico (v + 1) (v + 1 + n)) ∧
        ∀ k < n, PageHolds (elfLoadPages pid perm ph (p.pVa + p.pFilesz) n t (vaddr (v + 1)) (fa + 4096#32)) pid
          (v + 1 + k) perm (pageBytes t.mem p (vaddr (v + 1 + k)) (fa + 4096#32 + vaddr k)) := by
      apply ih first.isolated first.affords
      · exact fun k lt => next k ▸ members (k + 1) (by omega)
      · intro k lt
        rw [next, shift]
        exact pageOf (k + 1) (by omega)
      · intro k lt
        rw [first.entries pid _ (valid _ (next k ▸ members (k + 1) (by omega))), next]
        · exact missing (k + 1) (by omega)
        · rw [Finset.mem_singleton]
          omega
      · rw [readProgHdr_low first.kernel phLow, hdr]
    constructor
    · have range : {v} ∪ Finset.Ico (v + 1) (v + 1 + n) = Finset.Ico v (v + (n + 1)) := by
        ext x
        simp only [mem_union, Finset.mem_singleton, mem_Ico]
        omega
      exact range ▸ first.trans rest
    · intro k lt
      cases k with
      | zero =>
        rw [start]
        apply filled.keep (valid v (members 0 (Nat.succ_pos n))) rest
        rw [mem_Ico]
        omega
      | succ k =>
        have later := others k (by omega)
        rw [next, shift] at later
        refine ⟨later.flags, fun i within => ?_⟩
        rw [← pageBytes_low (pageOf (k + 1) lt) first.kernel within]
        exact later.shows i within

end Rounds

/-! ## Segments -/

def ProgHdr.perm (p : ProgHdr) : Nat :=
  pteU + pteP + if p.pFlags &&& elfProgFlagWrite ≠ 0#32 then pteW else 0

def ProgHdr.fileAddr (p : ProgHdr) (exe : Word) (v : Nat) : Word :=
  exe + rounddown p.pOffset 4096#32 + vaddr (v - p.pVa.toNat / pageSize)

section Segments

variable {L : Layout} {pages : Finset Nat} {s : VmState} {pid size n : Nat} {p : ProgHdr} {exe ph : Word}

theorem ProgHdr.perm_bits (p : ProgHdr) : p.perm % 2 = 1 ∧ p.perm < 8 := by
  unfold ProgHdr.perm
  split <;> decide

theorem toNat_fileAddr {v : Nat} (low : exe.toNat + size ≤ vmUserlo) (inFile : p.pOffset.toNat + p.pFilesz.toNat ≤ size)
    (congruent : p.pOffset.toNat % 4096 = p.pVa.toNat % 4096) (first : p.pVa.toNat / 4096 ≤ v)
    (within : v * 4096 < p.pVa.toNat + p.pFilesz.toNat) :
    (p.fileAddr exe v).toNat = exe.toNat + p.pOffset.toNat / 4096 * 4096 + (v - p.pVa.toNat / 4096) * 4096 := by
  simp only [vmUserlo] at low
  have down := toNat_rounddown p.pOffset
  have offset : (vaddr (v - p.pVa.toNat / pageSize)).toNat = (v - p.pVa.toNat / 4096) * 4096 :=
    toNat_vaddr (by simp only [pageSize]; omega)
  rw [ProgHdr.fileAddr, toNat_add, toNat_add, down, offset]
  omega

theorem ProgHdr.Proper.pageOf (proper : p.Proper size) (low : exe.toNat + size ≤ vmUserlo) {v : Nat}
    (member : v ∈ p.pages) : PageOf p (vaddr v) (p.fileAddr exe v) := by
  have range := member
  rw [ProgHdr.pages, mem_Ico] at range
  obtain ⟨filled, inFile, congruent, lo, hi⟩ := proper
  simp only [vmUserlo, vmUserhi, pageSize] at *
  have number : (vaddr v).toNat = v * 4096 := toNat_vaddr (by omega)
  refine ⟨⟨?_, ?_⟩, ?_, ?_, ⟨lo, ?_⟩, ?_⟩
  · simp only [vmUserlo]
    omega
  · simp only [vmUserhi]
    omega
  · omega
  · omega
  · simp only [vmUserhi]
    omega
  · intro within some
    have start := toNat_fileAddr (v := v) low inFile congruent (by omega) (by omega)
    simp only [vmUserlo]
    omega

theorem ProgHdr.Proper.loop (proper : p.Proper size) : rounddown p.pVa 4096#32 = vaddr (p.pVa.toNat / pageSize) ∧
      p.pages = Finset.Ico (p.pVa.toNat / pageSize) (p.pVa.toNat / pageSize +
        ((roundup (p.pVa + p.pMemsz) 4096#32).toNat - (rounddown p.pVa 4096#32).toNat) / pageSize) := by
  obtain ⟨-, -, -, lo, hi⟩ := proper
  have down := toNat_rounddown p.pVa
  have up : (roundup (p.pVa + p.pMemsz) 4096#32).toNat = (p.pVa.toNat + p.pMemsz.toNat + 4095) / 4096 * 4096 := by
    have sum : (p.pVa + p.pMemsz + 4096#32 - 1#32).toNat = p.pVa.toNat + p.pMemsz.toNat + 4095 := by
      simp only [vmUserhi] at hi
      bv_omega
    rw [roundup, toNat_rounddown, sum]
  constructor
  · apply eq_of_toNat_eq
    rw [down, toNat_vaddr (by simp only [pageSize]; omega)]
  · rw [ProgHdr.pages, up, down]
    ext v
    rw [mem_Ico, mem_Ico]
    simp only [pageSize]
    omega

theorem elfLoadSegment_eq (hdr : readProgHdr s.mem ph = p) (load : p.pType = elfProgLoad) :
    elfLoadSegment exe pid s ph = elfLoadPages pid p.perm ph (p.pVa + p.pFilesz)
      (((roundup (p.pVa + p.pMemsz) 4096#32).toNat - (rounddown p.pVa 4096#32).toNat) / pageSize) s
      (rounddown p.pVa 4096#32) (exe + rounddown p.pOffset 4096#32) := by
  subst hdr
  exact if_neg (not_not.2 load)

variable (hp : UserPid pid) (valid : ∀ v ∈ pages, (Use.page pid v).Valid)
variable (low : exe.toNat + size ≤ vmUserlo)
include hp valid low

theorem elfLoadSegment_loaded (h : Isolated L s) (affords : Affords s pid pages) (phLow : ph.toNat + 32 ≤ vmUserlo)
    (hdr : readProgHdr s.mem ph = p) (load : p.pType = elfProgLoad) (proper : p.Proper size)
    (members : p.pages ⊆ pages) (missing : ∀ v ∈ p.pages, ¬present (getPtblEntryByVa s pid (vaddr v))) :
    Loaded L pages s (elfLoadSegment exe pid s ph) pid p.pages ∧
      ∀ v ∈ p.pages, PageHolds (elfLoadSegment exe pid s ph) pid v p.perm
        (pageBytes s.mem p (vaddr v) (p.fileAddr exe v)) := by
  obtain ⟨start, range⟩ := proper.loop
  rw [elfLoadSegment_eq hdr load, start]
  rw [start] at range
  generalize ((roundup (p.pVa + p.pMemsz) 4096#32).toNat - (vaddr (p.pVa.toNat / pageSize)).toNat) / pageSize = n at *
  have inside (k : Nat) (lt : k < n) : p.pVa.toNat / pageSize + k ∈ p.pages := by
    rw [range, mem_Ico]
    omega
  have address (k : Nat) : exe + rounddown p.pOffset 4096#32 + vaddr k =
      p.fileAddr exe (p.pVa.toNat / pageSize + k) := by
    rw [ProgHdr.fileAddr, Nat.add_sub_cancel_left]
  obtain ⟨bit, small⟩ := p.perm_bits
  obtain ⟨loaded, holds⟩ := elfLoadPages_loaded (n := n) hp valid bit small phLow h affords
    (fun k lt => members (inside k lt)) (fun k lt => address k ▸ proper.pageOf low (inside k lt))
    (fun k lt => missing _ (inside k lt)) hdr
  refine ⟨range ▸ loaded, fun v member => ?_⟩
  rw [range, mem_Ico] at member
  obtain ⟨k, rfl⟩ := Nat.exists_eq_add_of_le member.1
  rw [← address]
  exact holds k (by omega)

theorem elfLoadSegments_loaded {m : Mem} (same : ∀ x : Word, x.toNat < vmUserlo → s.mem x = m x)
    (h : Isolated L s) (affords : Affords s pid pages) (phLow : ph.toNat + 32 * n ≤ vmUserlo)
    (proper : ∀ p ∈ loadHdrs m n ph, p.Proper size)
    (disjoint : (loadHdrs m n ph).Pairwise fun p q => Disjoint p.pages q.pages)
    (members : pagesOf (loadHdrs m n ph) ⊆ pages)
    (missing : ∀ v ∈ pagesOf (loadHdrs m n ph), ¬present (getPtblEntryByVa s pid (vaddr v))) :
    Loaded L pages s (elfLoadSegments exe pid n s ph) pid (pagesOf (loadHdrs m n ph)) ∧
      ∀ p ∈ loadHdrs m n ph, ∀ v ∈ p.pages, PageHolds (elfLoadSegments exe pid n s ph) pid v p.perm
        (pageBytes m p (vaddr v) (p.fileAddr exe v)) := by
  induction n generalizing s ph with
  | zero => exact ⟨.refl h affords, nofun⟩
  | succ n ih =>
    have hdr : readProgHdr s.mem ph = readProgHdr m ph := readProgHdr_low same (by omega)
    have type : readWord s.mem ph = readWord m ph := congrArg ProgHdr.pType hdr
    have next : (ph + 32#32).toNat = ph.toNat + 32 := by
      simp only [vmUserlo] at phLow
      rw [toNat_add]
      change (_ + 32) % _ = _
      omega
    rw [elfLoadSegments]
    by_cases load : readWord m ph = elfProgLoad
    · rw [loadHdrs, if_pos load] at proper disjoint members missing ⊢
      obtain ⟨apart, disjoint⟩ := List.pairwise_cons.1 disjoint
      have split : pagesOf (readProgHdr m ph :: loadHdrs m n (ph + 32#32)) =
        (readProgHdr m ph).pages ∪ pagesOf (loadHdrs m n (ph + 32#32)) := rfl
      rw [split] at members missing ⊢
      have away (v : Nat) (later : v ∈ pagesOf (loadHdrs m n (ph + 32#32))) : v ∉ (readProgHdr m ph).pages := by
        obtain ⟨q, member, inside⟩ := mem_pagesOf.1 later
        exact fun here => Finset.disjoint_left.1 (apart q member) here inside
      obtain ⟨first, filled⟩ := elfLoadSegment_loaded hp valid low h affords (by omega) hdr load
        (proper _ (.head _)) (Finset.union_subset_left members)
        (fun v inside => missing v (Finset.mem_union_left _ inside))
      generalize elfLoadSegment exe pid s ph = t at *
      obtain ⟨rest, others⟩ := ih (fun x below => (first.kernel x below).trans (same x below)) first.isolated
        first.affords (by omega) (fun p member => proper p (.tail _ member)) disjoint
        (Finset.union_subset_right members) (fun v later => by
          have ok := valid v (members (Finset.mem_union_right _ later))
          rw [first.entries pid v ok fun both => away v later both.2]
          exact missing v (Finset.mem_union_right _ later))
      refine ⟨first.trans rest, fun p member v inside => ?_⟩
      rcases List.mem_cons.1 member with rfl | later
      · have kept := (filled v inside).keep (valid v (members (Finset.mem_union_left _ inside))) rest
          fun again => away v again inside
        refine ⟨kept.flags, fun i lt => ?_⟩
        rw [← pageBytes_low ((proper _ (.head _)).pageOf low inside) same lt]
        exact kept.shows i lt
      · exact others p later v inside
    · rw [loadHdrs, if_neg load] at proper disjoint members missing ⊢
      have skip : elfLoadSegment exe pid s ph = s := if_pos (type ▸ load)
      rw [skip]
      exact ih same h affords (by omega) proper disjoint members missing

end Segments

/-! ## The image -/

structure SegmentLoaded (s s' : VmState) (pid : Nat) (exe : Word) (p : ProgHdr) : Prop where
  file : ∀ i, i < p.pFilesz → UserByte s' pid (p.pVa + i) (s.mem (exe + p.pOffset + i))
  zero : ∀ i, p.pFilesz ≤ i → i < p.pMemsz → UserByte s' pid (p.pVa + i) 0
  mapped : ∀ v ∈ p.pages, present (getPtblEntryByVa s' pid (vaddr v)) ∧
    getPtblEntryByVa s' pid (vaddr v) &&& ofNat 32 pteU ≠ 0#32 ∧
    (getPtblEntryByVa s' pid (vaddr v) &&& ofNat 32 pteW ≠ 0#32 ↔ p.pFlags &&& elfProgFlagWrite ≠ 0#32)

structure ImageLoaded (s s' : VmState) (pid : Nat) (exe : Word) : Prop where
  segment : ∀ p ∈ segments s.mem exe, SegmentLoaded s s' pid exe p
  others : ∀ v, (Use.page pid v).Valid → present (getPtblEntryByVa s' pid (vaddr v)) →
    ∃ p ∈ segments s.mem exe, v ∈ p.pages

section Image

variable {L : Layout} {s s' : VmState} {pid size : Nat} {p : ProgHdr} {exe : Word}

theorem PageHolds.permissions {v : Nat} {bytes : Word → Byte} (holds : PageHolds s pid v p.perm bytes) :
    present (getPtblEntryByVa s pid (vaddr v)) ∧ getPtblEntryByVa s pid (vaddr v) &&& ofNat 32 pteU ≠ 0#32 ∧
      (getPtblEntryByVa s pid (vaddr v) &&& ofNat 32 pteW ≠ 0#32 ↔ p.pFlags &&& elfProgFlagWrite ≠ 0#32) := by
  have flags := holds.flags
  unfold present
  generalize getPtblEntryByVa s pid (vaddr v) = entry at *
  have test (mask : Word) (small : 7#32 &&& mask = mask) : entry &&& mask = ofNat 32 p.perm &&& mask := by
    rw [← flags, BitVec.and_assoc, small]
  rw [test (ofNat 32 pteP) (by decide), test (ofNat 32 pteU) (by decide),
    test (ofNat 32 pteW) (by decide), ProgHdr.perm]
  by_cases write : p.pFlags &&& elfProgFlagWrite ≠ 0#32
  · rw [if_pos write]
    exact ⟨by decide, by decide, iff_of_true (by decide) write⟩
  · rw [if_neg write]
    exact ⟨by decide, by decide, iff_of_false (by decide) write⟩

theorem ProgHdr.Proper.address (proper : p.Proper size) (low : exe.toNat + size ≤ vmUserlo) {i : Word}
    (inside : i < p.pMemsz) : ∃ v ∈ p.pages, ∃ d, d < 4096#32 ∧ p.pVa + i = vaddr v + d ∧
      (vaddr v).toNat + d.toNat = p.pVa.toNat + i.toNat ∧
      (i < p.pFilesz → p.fileAddr exe v + d = exe + p.pOffset + i) := by
  obtain ⟨filled, inFile, congruent, lo, hi⟩ := proper
  rw [lt_def] at inside
  simp only [vmUserlo, vmUserhi, pageSize] at *
  have sum : (p.pVa + i).toNat = p.pVa.toNat + i.toNat := by
    rw [toNat_add]
    omega
  have number : (vaddr ((p.pVa.toNat + i.toNat) / 4096)).toNat = (p.pVa.toNat + i.toNat) / 4096 * 4096 :=
    toNat_vaddr (by omega)
  have offset : (ofNat 32 ((p.pVa.toNat + i.toNat) % 4096)).toNat = (p.pVa.toNat + i.toNat) % 4096 := by
    rw [toNat_ofNat]
    omega
  refine ⟨(p.pVa.toNat + i.toNat) / 4096, ?_, ofNat 32 ((p.pVa.toNat + i.toNat) % 4096), ?_, ?_, ?_, ?_⟩
  · rw [ProgHdr.pages, mem_Ico]
    simp only [pageSize]
    omega
  · rw [lt_def, offset]
    change _ < 4096
    omega
  · apply eq_of_toNat_eq
    rw [sum, toNat_add, number, offset]
    omega
  · omega
  · intro early
    rw [lt_def] at early
    have start := toNat_fileAddr (v := (p.pVa.toNat + i.toNat) / 4096) low inFile congruent (by omega) (by omega)
    have target : (exe + p.pOffset + i).toNat = exe.toNat + p.pOffset.toNat + i.toNat := by
      rw [toNat_add, toNat_add]
      omega
    apply eq_of_toNat_eq
    rw [toNat_add, target, start, offset]
    omega

theorem segmentLoaded_of_pages (proper : p.Proper size) (low : exe.toNat + size ≤ vmUserlo)
    (holds : ∀ v ∈ p.pages, PageHolds s' pid v p.perm (pageBytes s.mem p (vaddr v) (p.fileAddr exe v))) :
    SegmentLoaded s s' pid exe p where
  file i early := by
    have within : i < p.pMemsz := by
      have filled := proper.filled
      rw [lt_def] at *
      omega
    obtain ⟨v, member, d, small, address, sum, file⟩ := proper.address low within
    have shown := (holds v member).shows d small
    have some : p.pFilesz ≠ 0#32 := by
      rintro zero
      rw [zero] at early
      exact absurd early BitVec.not_lt_zero
    rw [lt_def] at early
    rw [pageBytes, if_pos ⟨by omega, some⟩, file (by rwa [lt_def])] at shown
    rwa [address]
  zero i late within := by
    obtain ⟨v, member, d, small, address, sum, -⟩ := proper.address low within
    have shown := (holds v member).shows d small
    rw [BitVec.le_def] at late
    rw [pageBytes, if_neg (by omega)] at shown
    rwa [address]
  mapped v member := (holds v member).permissions

theorem elfLoad_eq {m : Mem} (image : ElfImage m exe size) (mem : s.mem = m) :
    elfLoad s exe pid = .ok (elfLoadSegments exe pid (readHalf m (exe + 44#32)).toNat s
      (exe + readWord m (exe + 28#32))) := by
  subst mem
  have low := image.low
  have table := image.table
  have count : ((exe + readWord s.mem (exe + 28#32) + 32#32 * readHalf s.mem (exe + 44#32)).toNat -
      (exe + readWord s.mem (exe + 28#32)).toNat) / 32 = (readHalf s.mem (exe + 44#32)).toNat := by
    generalize readWord s.mem (exe + 28#32) = phoff at *
    generalize readHalf s.mem (exe + 44#32) = phnum at *
    have rows : (32#32 * phnum).toNat = 32 * phnum.toNat := by
      simp only [vmUserlo] at low
      rw [BitVec.toNat_mul]
      change 32 * _ % _ = _
      omega
    simp only [vmUserlo] at low
    rw [toNat_add, toNat_add, rows]
    omega
  rw [elfLoad, if_neg (not_not.2 image.magic), if_neg image.named, if_neg (not_not.2 image.strtab), count]

end Image

/-! ## A file with one read-only segment -/

/-- The file at `0x300000`: one header for 8 bytes at `0x40000000`, of which the first 4 are in the file. -/
def tinyElf : Mem :=
  [(0, elfMagic), (28, 52), (32, 84), (44, 1), (48, 0x10000), (52, 1), (60, 0x40000000), (68, 4), (72, 8), (76, 4),
    (128, 3)].foldl (fun m (field : Word × Word) => writeWord m (0x300000 + field.1) field.2) fun _ => 0

def tinyHdr : ProgHdr := ⟨1, 0, 0x40000000, 4, 8, 4⟩

section Tiny

variable {m : Mem} {cursor : Nat} {s : VmState} {a : Word}

theorem JustBooted.readWord (boot : JustBooted m cursor s) (low : a.toNat + 4 ≤ sampleLayout.idptbl.toNat) :
    Lib.readWord s.mem a = Lib.readWord m a := by
  apply readWord_congr
  intro i small
  apply boot.mem
  rw [lt_def] at small
  change i.toNat < 4 at small
  left
  rw [toNat_add]
  omega

theorem JustBooted.readHalf (boot : JustBooted m cursor s) (low : a.toNat + 2 ≤ sampleLayout.idptbl.toNat) :
    Certikos.readHalf s.mem a = Certikos.readHalf m a := by
  have second : (a + 1#32).toNat = a.toNat + 1 := by
    rw [toNat_add]
    change (_ + 1) % _ = _
    omega
  rw [Certikos.readHalf, boot.mem a (.inl (by omega)), boot.mem _ (.inl (by omega)), Certikos.readHalf]

variable (boot : JustBooted tinyElf cursor s)
include boot

theorem tinyElf_hdr : readProgHdr s.mem 0x300034 = tinyHdr := by
  unfold readProgHdr
  rw [boot.readWord (by decide), boot.readWord (by decide), boot.readWord (by decide), boot.readWord (by decide),
    boot.readWord (by decide), boot.readWord (by decide)]
  decide

theorem tinyElf_table : (readHalf s.mem (0x300000 + 44#32)).toNat = 1 ∧
    0x300000 + readWord s.mem (0x300000 + 28#32) = 0x300034 := by
  rw [boot.readHalf (by decide), boot.readWord (by decide)]
  decide

theorem tinyElf_segments : segments s.mem 0x300000 = [tinyHdr] := by
  obtain ⟨count, start⟩ := tinyElf_table boot
  have hdr := tinyElf_hdr boot
  have load : readWord s.mem 0x300034 = elfProgLoad := congrArg ProgHdr.pType hdr
  rw [segments, count, start, loadHdrs, if_pos load, hdr, loadHdrs]

theorem tinyElf_image : ElfImage s.mem 0x300000 0x100 := by
  have half : readHalf s.mem (0x300000 + 50#32) = 1 := by
    rw [boot.readHalf (by decide)]
    decide
  have sections : readWord s.mem (0x300000 + 32#32) = 84 := by
    rw [boot.readWord (by decide)]
    decide
  constructor
  · decide
  · rw [boot.readWord (by decide)]
    decide
  · rw [half]
    decide
  · rw [half, sections, boot.readWord (by decide)]
    decide
  · rw [boot.readWord (by decide), boot.readHalf (by decide)]
    decide
  · rw [tinyElf_segments boot]
    intro p member
    rw [List.mem_singleton.1 member]
    exact ⟨by decide, by decide, by decide, by decide, by decide⟩
  · rw [tinyElf_segments boot]
    exact List.pairwise_singleton ..

theorem tinyElf_load : elfLoad s 0x300000 1 =
    .ok (elfLoadPage 1 tinyHdr.perm 0x300034 (tinyHdr.pVa + tinyHdr.pFilesz) s 0x40000000 0x300000) := by
  obtain ⟨count, start⟩ := tinyElf_table boot
  have rounds : ((roundup (tinyHdr.pVa + tinyHdr.pMemsz) 4096#32).toNat - (rounddown tinyHdr.pVa 4096#32).toNat) /
      pageSize = 1 := by decide
  have first : rounddown tinyHdr.pVa 4096#32 = 0x40000000 := by decide
  have file : 0x300000 + rounddown tinyHdr.pOffset 4096#32 = 0x300000 := by decide
  rw [elfLoad_eq (tinyElf_image boot) rfl, count, start, elfLoadSegments, elfLoadSegments,
    elfLoadSegment_eq (tinyElf_hdr boot) (by decide), rounds, first, file, elfLoadPages, elfLoadPages]

theorem tinyElf_pages : pagesOf (segments s.mem 0x300000) = {0x40000} := by
  rw [tinyElf_segments boot]
  decide

omit boot in
theorem JustBooted.empty (boot : JustBooted m cursor s) (pid v : Nat) (valid : (Use.page pid v).Valid) :
    ¬present (getPtblEntryByVa s pid (vaddr v)) := by
  intro mapped
  have dir := dir_of_present mapped
  rw [pde_vaddr (vpage_lt valid)] at dir
  exact dir (boot.dir pid _ (table_valid valid))

end Tiny

section Passed

variable {s : VmState} {va kva : Word}

theorem JustBooted.allocPage_lost {m : Mem} (boot : JustBooted m 0x50000 s) (perm : Nat) :
    (allocPage s 1 va perm).1 = Certikos.lost s 1 va 0 0 := by
  have none (j : Nat) (above : s.lastPallocIndex < j) : ¬Available s j := by
    intro available
    have range := (boot.available j).1 available
    have cursor := boot.cursor
    omega
  have left : (s.container 1).usage ≠ (s.container 1).quota := by
    rw [boot.container 1 (by decide)]
    decide
  have still : memmove s.mem (va % 4096#32) 0 0 = s.mem := by
    funext x
    exact memmove_outside BitVec.not_lt_zero
  rw [Certikos.lost, still]
  simp only [allocPage, containerAlloc_dry left none]
  rfl

theorem memset_maps {L : Layout} {p : ProgHdr} {fa : Word} (h : Isolated L s) (page : PageOf p va fa)
    (affords : Affords s 1 {va.toNat / pageSize}) (missing : ¬present (getPtblEntryByVa s 1 va))
    (inside : va.toNat < p.pVa.toNat + p.pFilesz.toNat) (some : p.pFilesz ≠ 0#32)
    (last : p.pVa.toNat + p.pFilesz.toNat - va.toNat < 4096) :
    ∃ f, getPtblEntryByVa (ptCopyout (ptMemset s 1 va 0 4096#32).vm fa 1 va (p.pVa + p.pFilesz - va)).vm 1 va =
      ofNat 32 (f * pageSize + (pteP + pteU + pteW)) := by
  have hp : UserPid 1 := by decide
  obtain ⟨⟨f, entry⟩, -⟩ := affords.allocPage h hp page.user (single_valid hp page.user) (Finset.mem_singleton_self _) missing
    (show (pteP + pteU + pteW) % 2 = 1 by decide)
  have touched : (touchAt s 1 va 4096#32).vm = (allocPage s 1 va (pteP + pteU + pteW)).1 := by
    rw [touch_vm, if_neg missing]
  have h' : Isolated L (touchAt s 1 va 4096#32).vm := touch_isolated h hp page.user
  have fits := page.fits
  have mapped : present (getPtblEntryByVa (touchAt s 1 va 4096#32).vm 1 va) := by
    rw [touched, entry]
    exact present_mk f (by decide)
  have zeroed : (ptMemset s 1 va 0 4096#32).vm = (ptMemset (touchAt s 1 va 4096#32).vm 1 va 0 4096#32).vm := by
    rw [ptMemset_single 0 mapped (by decide) fits, ptMemset, copyLoop_single (by decide) fits, Touch.moved,
      CopyKind.move, memset_eq, touch_pa, touch_size_of_fits s 1 fits]
  rw [zeroed, partial_eq page h' hp mapped inside some last]
  have data := storeBytes_writable (L := L) hp page.user (pageBytes (touchAt s 1 va 4096#32).vm.mem p va fa) fits mapped
  refine ⟨f, ?_⟩
  rw [← getPtblEntryByVa_page, h'.entry_write data (page_valid hp page.user), getPtblEntryByVa_page, touched, entry]

theorem write_mk (f : Nat) :
    ofNat 32 (f * pageSize + (pteP + pteU + pteW)) &&& ofNat 32 pteW ≠ 0#32 := by
  have bits := flags_mk f (show pteP + pteU + pteW < 8 by decide)
  have part : ofNat 32 pteW = 7#32 &&& ofNat 32 pteW := by decide
  rw [part, ← BitVec.and_assoc, bits]
  decide

theorem tinyElf_entry {s' : VmState} (boot : JustBooted tinyElf 0x50000 s) (result : elfLoad s 0x300000 1 = .ok s') :
    ∃ f, getPtblEntryByVa s' 1 0x40000000 = ofNat 32 (f * pageSize + (pteP + pteU + pteW)) := by
  have page : PageOf tinyHdr 0x40000000 0x300000 :=
    ⟨by decide, by decide, by decide, by decide, fun _ _ => by decide⟩
  have affords : Affords (lost s 1 0x40000000 0 0) 1 {(0x40000000 : Word).toNat / pageSize} :=
    boot.lost_affords (by decide) _
  have h : Isolated sampleLayout (lost s 1 0x40000000 0 0) := boot.lost_isolated (by decide)
  have missing : ¬present (getPtblEntryByVa (lost s 1 0x40000000 0 0) 1 0x40000000) :=
    fun mapped => dir_of_present mapped (boot.dir 1 256 (by decide))
  have filesz : readWord (lost s 1 0x40000000 0 0).mem (0x300034 + 16#32) = tinyHdr.pFilesz := by
    rw [← boot.allocPage_lost 0]
    rw [readWord_low (fun x low => boot.isolated.kernel_allocPage (by decide) (by decide) (by decide) low) (by decide)]
    exact congrArg ProgHdr.pFilesz (tinyElf_hdr boot)
  rw [tinyElf_load boot] at result
  injection result with final
  rw [elfLoadPage, boot.allocPage_lost, if_neg (by decide), filesz, if_pos (by decide)] at final
  rw [← final]
  exact memset_maps h page affords missing (by decide) (by decide) (by decide)

end Passed

end Certikos
