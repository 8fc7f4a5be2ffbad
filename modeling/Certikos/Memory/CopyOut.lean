import Certikos.Memory.UserView

/-!
# What a copy to user memory leaves

In a state with separate address spaces, and as long as the quota and the allocator's stock last, `pt_copyout` changes
the bytes of its range and no other byte that is mapped anywhere.
-/

namespace Certikos
open Lib
open BitVec (lt_def toNat_add toNat_sub)

/-! ## What mapping a page writes -/

section Mapping

variable {L : Layout} {s : VmState} {pid q i f perm : Nat} {va va' x : Word} {b : Byte}

theorem mem_modifyPtbl {k : Nat} {w : Word} (hk : k < 1024)
    (out : x.toNat / pageSize ≠ entryFrame (s.pdirPool pid i)) : (modifyPtbl s pid i k w).mem x = s.mem x := by
  have addr := toNat_ptblAddr (s.pdirPool pid i) hk
  refine if_neg fun inside => out ?_
  generalize ptblAddr (s.pdirPool pid i) k = a at *
  generalize entryFrame (s.pdirPool pid i) = g at *
  rw [lt_def, toNat_sub] at inside
  simp only [pageSize] at *
  change _ < 4 at inside
  omega

theorem mem_installTable (hf : f < 1048576) (out : x.toNat / pageSize ≠ f) :
    (installTable s pid i f).mem x = s.mem x := by
  have kept : (installTable s pid i f).pdirPool = (setPdirEntry s pid i f).pdirPool ∧
      (installTable s pid i f).mem x = s.mem x := by
    refine loop_preserves
      (fun t : VmState => t.pdirPool = (setPdirEntry s pid i f).pdirPool ∧ t.mem x = s.mem x) ⟨rfl, rfl⟩ ?_
    intro m t lt before
    refine ⟨before.1, (mem_modifyPtbl lt ?_).trans before.2⟩
    rw [before.1, entryFrame_setPdirEntry hf]
    exact out
  exact kept.2

theorem mem_setPtblEntryByVa (out : x.toNat / pageSize ≠ entryFrame (s.pdirPool pid (pdeIndexOf va))) :
    (setPtblEntryByVa s pid va f perm).mem x = s.mem x :=
  mem_modifyPtbl (pteIndexOf_lt va) out

theorem Isolated.mem_allocPage (h : Isolated L s) (hp : UserPid pid) (user : userVa va)
    (out : ∀ q j, frameOf (allocPage s pid va perm).1 (.table q j) ≠ some (x.toNat / pageSize)) :
    (allocPage s pid va perm).1.mem x = s.mem x := by
  have valid : (Use.table pid (pdeIndexOf va)).Valid := pdeIndexOf_eq va ▸ table_valid (page_valid hp user)
  obtain ⟨h₁, -, -⟩ := h.alloc pid
  obtain ⟨-, mem₁⟩ := containerAlloc_frame s pid
  rw [← mem₁]
  unfold allocPage at out ⊢
  dsimp only at out ⊢
  split at out
  · rename_i failed
    rw [if_pos failed]
  rename_i found
  rw [if_neg found]
  generalize (containerAlloc s pid).2 = f at *
  generalize (containerAlloc s pid).1 = s₁ at *
  rcases mapPage_cases s₁ pid va f perm with ⟨dir, mapped⟩ | ⟨-, ⟨-, mapped⟩ | ⟨found₂, mapped⟩⟩
  · rw [mapped] at out ⊢
    refine mem_setPtblEntryByVa fun here => out pid (pdeIndexOf va) ?_
    exact (frameOf_table valid).2 ⟨dir, here.symm⟩
  · rw [mapped]
    exact congrFun (containerAlloc_frame s₁ pid).2 x
  · obtain ⟨h₂, given, -⟩ := h₁.alloc pid
    have range := (h₂.fresh_range (given found₂)).2
    simp only [vmUserhiPi, vmUserhi, pageSize] at range
    have lt : (containerAlloc s₁ pid).2 < 1048576 := by omega
    have dir := pdirEntry_installTable (containerAlloc s₁ pid).1 pid (pdeIndexOf va) (containerAlloc s₁ pid).2 pid
      (pdeIndexOf va)
    rw [if_pos ⟨rfl, rfl⟩] at dir
    have frame := congrArg entryFrame dir
    rw [entryFrame_mk lt (by omega)] at frame
    have table : x.toNat / pageSize ≠ (containerAlloc s₁ pid).2 := by
      intro here
      rw [mapped] at out
      refine out pid (pdeIndexOf va) ((frameOf_table valid).2 ⟨?_, ?_⟩)
      · rw [pdir_setPtblEntryByVa, dir]
        exact tableEntry_ne_zero _
      · rw [pdir_setPtblEntryByVa, frame, here]
    rw [mapped]
    rw [mem_setPtblEntryByVa (by rw [frame]; exact table), mem_installTable lt table]
    exact congrFun (containerAlloc_frame s₁ pid).2 x

/-! ## Bytes behind virtual addresses -/

theorem userPa_page (s : VmState) (pid : Nat) (va : Word) :
    (userPa s pid va).toNat / pageSize = entryFrame (getPtblEntryByVa s pid va) := by
  rw [toNat_userPa, pageSize]
  omega

theorem Isolated.userByte (h : Isolated L s) (hq : UserPid q) (user : userVa va)
    (mapped : present (getPtblEntryByVa s q va)) : UserByte s q va (s.mem (userPa s q va)) := by
  have table := (h.frame_range (frameOf_pde hq user (dir_of_present mapped))).1
  have page := (h.frame_range (frameOf_va hq user mapped)).1
  refine ⟨user, mapped, ?_, ?_, rfl⟩
  · rw [toNat_ptblAddr _ (pteIndexOf_lt va)]
    change vmUserloPi ≤ entryFrame (s.pdirPool q (pdeIndexOf va)) at table
    simp only [vmUserloPi, vmUserlo, pageSize] at *
    omega
  · rw [toNat_userPa]
    simp only [vmUserloPi, vmUserlo, pageSize] at *
    omega

theorem UserByte.of_same {s' : VmState} (h' : Isolated L s') (hq : UserPid q) (seen : UserByte s q va b)
    (entry : getPtblEntryByVa s' q va = getPtblEntryByVa s q va)
    (mem : s'.mem (userPa s q va) = s.mem (userPa s q va)) : UserByte s' q va b := by
  have pa : userPa s' q va = userPa s q va := by rw [userPa, entry, userPa]
  have here := h'.userByte hq seen.user (entry ▸ seen.mapped)
  rwa [pa, mem, seen.value] at here

variable (h : Isolated L s) (hp : UserPid pid)
include h hp

theorem Isolated.userPa_inj (hq : UserPid q)
    (user : userVa va) (user' : userVa va') (mapped : present (getPtblEntryByVa s pid va))
    (mapped' : present (getPtblEntryByVa s q va')) (same : userPa s q va' = userPa s pid va) : q = pid ∧ va' = va := by
  have frames : entryFrame (getPtblEntryByVa s q va') = entryFrame (getPtblEntryByVa s pid va) := by
    rw [← userPa_page, ← userPa_page, same]
  have uses := h.injective (frames ▸ frameOf_va hq user' mapped') (frameOf_va hp user mapped)
  obtain ⟨process, page⟩ := Use.page.inj uses
  refine ⟨process, BitVec.eq_of_toNat_eq ?_⟩
  have offset := congrArg BitVec.toNat same
  rw [toNat_userPa, toNat_userPa, frames] at offset
  simp only [pageSize] at page
  omega

theorem UserByte.allocPage (user : userVa va) (hperm : perm < 4096) (hq : UserPid q) (seen : UserByte s q va' b)
    (ne : Use.page q (va'.toNat / pageSize) ≠ .page pid (va.toNat / pageSize)) :
    UserByte (allocPage s pid va perm).1 q va' b := by
  have h' := isolated_allocPage h hp user hperm
  have entry : getPtblEntryByVa (Certikos.allocPage s pid va perm).1 q va' = getPtblEntryByVa s q va' := by
    rw [← getPtblEntryByVa_page, h.entry_allocPage hp user (page_valid hq seen.user) ne, getPtblEntryByVa_page]
  refine seen.of_same h' hq entry (h.mem_allocPage hp user fun r j table => ?_)
  have page := frameOf_va hq seen.user (entry ▸ seen.mapped)
  rw [entry, ← userPa_page] at page
  exact Use.noConfusion (h'.injective table page)

theorem Isolated.kernel_allocPage (user : userVa va)
    (hperm : perm < 4096) (low : x.toNat < vmUserlo) : (allocPage s pid va perm).1.mem x = s.mem x := by
  refine h.mem_allocPage hp user fun q j table => ?_
  have range := ((isolated_allocPage h hp user hperm).frame_range table).1
  simp only [vmUserloPi, vmUserlo, pageSize] at *
  omega

end Mapping

/-! ## One access of the loop -/

section Access

variable {L : Layout} {s : VmState} {pid q : Nat} {uva kva len va x : Word} {b : Byte}
variable (h : Isolated L s) (hp : UserPid pid) (user : userVa uva)
include h hp user

theorem UserByte.touch (hq : UserPid q) (seen : UserByte s q va b) : UserByte (touchAt s pid uva len).vm q va b := by
  rw [touch_vm]
  split
  · exact seen
  · rename_i missing
    refine seen.allocPage h hp user (by decide) hq fun same => missing ?_
    obtain ⟨rfl, page⟩ := Use.page.inj same
    rw [← getPtblEntryByVa_page, ← page, getPtblEntryByVa_page]
    exact seen.mapped

theorem touch_kernel (low : x.toNat < vmUserlo) : (touchAt s pid uva len).vm.mem x = s.mem x := by
  rw [touch_vm]
  split
  · rfl
  · exact h.kernel_allocPage hp user (by decide) low

variable {size : Word}

omit h hp in
theorem userPa_range (fits : uva.toNat % 4096 + size.toNat ≤ 4096) (inside : x - userPa s pid uva < size) :
    userPa s pid (uva + (x - userPa s pid uva)) = x ∧ userVa (uva + (x - userPa s pid uva)) ∧
      getPtblEntryByVa s pid (uva + (x - userPa s pid uva)) = getPtblEntryByVa s pid uva := by
  rw [lt_def] at inside
  obtain ⟨entry, pa⟩ : getPtblEntryByVa s pid (uva + (x - userPa s pid uva)) = getPtblEntryByVa s pid uva ∧
      userPa s pid (uva + (x - userPa s pid uva)) = userPa s pid uva + (x - userPa s pid uva) :=
    userPa_add s pid (by omega)
  have cancel : userPa s pid uva + (x - userPa s pid uva) = x := by
    rw [BitVec.add_comm, BitVec.sub_add_cancel]
  refine ⟨pa.trans cancel, ?_, entry⟩
  generalize x - userPa s pid uva = d at *
  obtain ⟨lo, hi⟩ := user
  simp only [userVa, vmUserlo, vmUserhi, toNat_add] at *
  omega

omit h in
theorem storeBytes_writable (bytes : Word → Byte) (fits : uva.toNat % 4096 + size.toNat ≤ 4096)
    (mapped : present (getPtblEntryByVa s pid uva)) (x : Word)
    (changed : Certikos.storeBytes s.mem (userPa s pid uva) size bytes x ≠ s.mem x) : Writable L s x := by
  have inside : x - userPa s pid uva < size := by
    by_contra outside
    exact changed (if_neg outside)
  obtain ⟨pa, user', entry⟩ := userPa_range user fits inside
  have page := frameOf_va hp user' (entry ▸ mapped)
  rw [← userPa_page, pa] at page
  exact .inl ⟨pid, _, page⟩

theorem touch_byte (user' : userVa va) (page : va.toNat / pageSize = uva.toNat / pageSize)
    (mapped : present (getPtblEntryByVa (touchAt s pid uva len).vm pid uva)) :
    UserByte (touchAt s pid uva len).vm pid va (s.mem (userPa (touchAt s pid uva len).vm pid va)) := by
  have mapped' : present (getPtblEntryByVa (touchAt s pid uva len).vm pid va) := by
    rw [← getPtblEntryByVa_page, page, getPtblEntryByVa_page]
    exact mapped
  have h' : Isolated L (touchAt s pid uva len).vm := touch_isolated h hp user
  have here := h'.userByte hp user' mapped'
  have frame := frameOf_va hp user' mapped'
  rw [← userPa_page] at frame
  by_cases already : present (getPtblEntryByVa s pid uva)
  · rw [touch_vm, if_pos already] at here ⊢
    exact here
  · rw [touch_vm, if_neg already] at h' here frame ⊢
    have same : (allocPage s pid uva (pteP + pteU + pteW)).1.mem _ = s.mem _ :=
      h.mem_allocPage hp user fun q j table => Use.noConfusion (h'.injective table frame)
    rwa [same] at here

theorem UserByte.storeBytes (bytes : Word → Byte) (fits : uva.toNat % 4096 + size.toNat ≤ 4096)
    (mapped : present (getPtblEntryByVa s pid uva)) (hq : UserPid q) (seen : UserByte s q va b) :
    UserByte { s with mem := Certikos.storeBytes s.mem (userPa s pid uva) size bytes } q va
      (if q = pid ∧ va - uva < size then bytes (va - uva) else b) := by
  have data := storeBytes_writable (L := L) hp user bytes fits mapped
  have entry : getPtblEntryByVa { s with mem := Certikos.storeBytes s.mem (userPa s pid uva) size bytes } q va =
      getPtblEntryByVa s q va := by
    have same := h.entry_write data (page_valid hq seen.user)
    rwa [getPtblEntryByVa_page, getPtblEntryByVa_page] at same
  have pa : userPa { s with mem := Certikos.storeBytes s.mem (userPa s pid uva) size bytes } q va = userPa s q va := by
    rw [userPa, entry, userPa]
  have here := (h.write data).userByte hq seen.user (entry ▸ seen.mapped)
  rw [pa] at here
  have value : Certikos.storeBytes s.mem (userPa s pid uva) size bytes (userPa s q va) =
      if q = pid ∧ va - uva < size then bytes (va - uva) else b := by
    by_cases inside : userPa s q va - userPa s pid uva < size
    · -- the byte is behind some address of the range, which can only be `va`
      obtain ⟨pa', user', entry'⟩ := userPa_range user fits inside
      obtain ⟨process, address⟩ := h.userPa_inj hp hq user' seen.user (entry' ▸ mapped) seen.mapped pa'.symm
      have back (d : Word) (sum : va = uva + d) : va - uva = d := by
        rw [sum]
        bv_omega
      have offset := back _ address
      rw [Certikos.storeBytes, if_pos inside, if_pos ⟨process, offset ▸ inside⟩, offset]
    · rw [Certikos.storeBytes, if_neg inside, if_neg, seen.value]
      rintro ⟨rfl, range⟩
      apply inside
      have range' := range
      rw [lt_def] at range'
      have sum : uva + (va - uva) = va := by rw [BitVec.add_comm, BitVec.sub_add_cancel]
      have moved : userPa s q (uva + (va - uva)) = userPa s q uva + (va - uva) := (userPa_add s q (by omega)).2
      rw [sum] at moved
      rw [moved]
      bv_omega
  rw [← value]
  exact here

end Access

/-! ## Enough for a set of pages -/

section Affords

variable {L : Layout} {s : VmState} {pid : Nat} {uva : Word} {pages : Finset Nat}

theorem Affords.touch (affords : Affords s pid pages) (h : Isolated L s) (hp : UserPid pid)
    (user : userVa uva) (valid : ∀ v ∈ pages, (Use.page pid v).Valid)
    (member : uva.toNat / pageSize ∈ pages) (len : Word) :
    present (getPtblEntryByVa (touchAt s pid uva len).vm pid uva) ∧ Affords (touchAt s pid uva len).vm pid pages := by
  rw [← Finset.insert_eq_of_mem member, affords_touch_iff h hp user valid len] at affords
  exact ⟨(touch_present_iff ..).2 affords.1, affords.2⟩

end Affords

/-! ## Whole copies -/

structure Covers (pages : Finset Nat) (uva len : Word) : Prop extends UserRange uva len where
  members : ∀ i, i < len → (uva + i).toNat / pageSize ∈ pages

section Covers

variable {pages : Finset Nat} {uva len size : Word} (covers : Covers pages uva len)
include covers

theorem Covers.member (nonzero : len ≠ 0#32) : uva.toNat / pageSize ∈ pages :=
  reach_first (P := fun x => x.toNat / pageSize ∈ pages) nonzero covers.members

theorem Covers.drop (le : size.toNat ≤ len.toNat) : Covers pages (uva + size) (len - size) :=
  ⟨covers.toUserRange.drop le, reach_rest (P := fun x => x.toNat / pageSize ∈ pages) le covers.members⟩

theorem Covers.take (le : size.toNat ≤ len.toNat) : Covers pages uva size := by
  have hi := covers.hi
  exact ⟨⟨covers.lo, by omega⟩, fun i lt => covers.members i (lt_of_lt_of_le lt le)⟩

end Covers

structure Wrote (L : Layout) (pages : Finset Nat) (s s' : VmState) (pid : Nat) (uva len : Word)
    (bytes : Word → Byte) : Prop where
  isolated : Isolated L s'
  affords : Affords s' pid pages
  written : ∀ i, i < len → UserByte s' pid (uva + i) (bytes i)
  kept : ∀ q va b, (1 ≤ q ∧ q < numIds) → UserByte s q va b → ¬(q = pid ∧ va - uva < len) → UserByte s' q va b

structure Stored (L : Layout) (pages : Finset Nat) (s s' : VmState) (pid : Nat) (uva len : Word)
    (bytes : Word → Byte) : Prop extends Wrote L pages s s' pid uva len bytes where
  kernel : ∀ x : Word, x.toNat < vmUserlo → s'.mem x = s.mem x

section Stored

variable {L : Layout} {pages : Finset Nat} {s s₁ s₂ : VmState} {pid : Nat} {uva kva len size copied : Word}
variable {bytes : Word → Byte}

theorem Stored.append (first : Stored L pages s s₁ pid uva size bytes)
    (rest : Stored L pages s₁ s₂ pid (uva + size) (len - size) fun i => bytes (size + i)) (hp : UserPid pid)
    (le : size.toNat ≤ len.toNat) : Stored L pages s s₂ pid uva len bytes where
  isolated := rest.isolated
  affords := rest.affords
  kernel x low := (rest.kernel x low).trans (first.kernel x low)
  written i lt := by
    by_cases early : i < size
    · refine rest.kept _ _ _ hp (first.written i early) fun later => ?_
      bv_omega
    · have later := rest.written (i - size) (by bv_omega)
      have sum : size + (i - size) = i := by rw [BitVec.add_comm, BitVec.sub_add_cancel]
      rwa [BitVec.add_assoc, sum] at later
  kept q va b hq seen outside := by
    refine rest.kept q va b hq (first.kept q va b hq seen fun inside => outside ⟨inside.1, ?_⟩) fun inside =>
      outside ⟨inside.1, ?_⟩
    · have range := inside.2
      bv_omega
    · have range := inside.2
      bv_omega

variable {bytes' : Word → Byte}

theorem Wrote.congr (wrote : Wrote L pages s s₁ pid uva len bytes) (same : ∀ i, i < len → bytes i = bytes' i) :
    Wrote L pages s s₁ pid uva len bytes' :=
  { wrote with written := fun i lt => same i lt ▸ wrote.written i lt }

theorem Stored.congr (stored : Stored L pages s s₁ pid uva len bytes) (same : ∀ i, i < len → bytes i = bytes' i) :
    Stored L pages s s₁ pid uva len bytes' :=
  ⟨stored.toWrote.congr same, stored.kernel⟩

theorem Stored.refl (h : Isolated L s) (affords : Affords s pid pages) : Stored L pages s s pid uva 0#32 bytes :=
  ⟨⟨h, affords, fun _ lt => absurd lt BitVec.not_lt_zero, fun _ _ _ _ seen _ => seen⟩, fun _ _ => rfl⟩

variable (hp : UserPid pid) (valid : ∀ v ∈ pages, (Use.page pid v).Valid)
include hp valid

variable (h : Isolated L s) (affords : Affords s pid pages)
include h affords

theorem storeBytes_stored (user : userVa uva)
    (mapped : present (getPtblEntryByVa s pid uva)) (fits : uva.toNat % 4096 + size.toNat ≤ 4096) :
    Stored L pages s { s with mem := storeBytes s.mem (userPa s pid uva) size bytes } pid uva size bytes := by
  have data := storeBytes_writable (L := L) hp user bytes fits mapped
  refine ⟨⟨h.write data, (affords_write_iff h data valid).2 affords, fun i lt => ?_, fun q va b hq seen outside => ?_⟩,
    fun x below => ?_⟩
  · have cancel : uva + i - uva = i := by bv_omega
    have lt' := lt
    rw [lt_def] at lt'
    have entry : getPtblEntryByVa s pid (uva + i) = getPtblEntryByVa s pid uva := (userPa_add s pid (by omega)).1
    have user' : userVa (uva + i) := by
      obtain ⟨lo, hi⟩ := user
      simp only [userVa, vmUserlo, vmUserhi, toNat_add] at *
      omega
    have stored := (h.userByte hp user' (entry ▸ mapped)).storeBytes h hp user bytes fits mapped hp
    rwa [if_pos ⟨rfl, by rwa [cancel]⟩, cancel] at stored
  · have stored := seen.storeBytes h hp user bytes fits mapped hq
    rwa [if_neg outside] at stored
  · refine if_neg fun inside => ?_
    obtain ⟨pa, user', entry⟩ := userPa_range user fits inside
    have high := (h.userByte hp user' (entry ▸ mapped)).frame
    rw [pa] at high
    omega

theorem touch_stored (user : userVa uva)
    (member : uva.toNat / pageSize ∈ pages) (low : kva.toNat + len.toNat ≤ vmUserlo) :
    Stored L pages s ((touchAt s pid uva len).moved .copyout kva) pid uva (touchAt s pid uva len).size
      fun i => s.mem (kva + i) := by
  obtain ⟨mapped, affords'⟩ := affords.touch h hp user valid member len
  have size := toNat_touch_size s pid uva len
  have stored : Stored L pages (touchAt s pid uva len).vm ((touchAt s pid uva len).moved .copyout kva) pid uva
      (touchAt s pid uva len).size fun i => (touchAt s pid uva len).vm.mem (kva + i) := by
    rw [Touch.moved, CopyKind.move, memmove_eq, touch_pa]
    exact storeBytes_stored hp valid (touch_isolated h hp user) affords' user mapped (by omega)
  have kernel (x : Word) (low : x.toNat < vmUserlo) : (touchAt s pid uva len).vm.mem x = s.mem x :=
    touch_kernel h hp user low
  have kept (q va b) (hq : UserPid q) (seen : UserByte s q va b) :
      UserByte (touchAt s pid uva len).vm q va b := seen.touch h hp user hq
  generalize (touchAt s pid uva len).moved .copyout kva = s' at *
  generalize (touchAt s pid uva len).vm = t at *
  generalize (touchAt s pid uva len).size = n at *
  refine ⟨⟨stored.isolated, stored.affords, fun i lt => ?_,
    fun q va b hq seen outside => stored.kept q va b hq (kept q va b hq seen) outside⟩,
    fun x below => (stored.kernel x below).trans (kernel x below)⟩
  rw [← kernel]
  · exact stored.written i lt
  · rw [lt_def] at lt
    simp only [vmUserlo, toNat_add] at *
    omega

theorem copyLoop_stored (covers : Covers pages uva len) (low : kva.toNat + len.toNat ≤ vmUserlo) {fuel : Nat}
    (enough : len.toNat ≤ fuel) :
    Stored L pages s (copyLoop .copyout pid fuel s uva kva len copied).vm pid uva len fun i => s.mem (kva + i) := by
  refine copyLoop_induct (P := fun s uva kva len _ r => Isolated L s → Affords s pid pages → Covers pages uva len →
    kva.toNat + len.toNat ≤ vmUserlo → Stored L pages s r.vm pid uva len fun i => s.mem (kva + i)) ?_ ?_ enough h affords
    covers low
  · exact fun s uva kva _ h affords _ _ => .refl h affords
  · rintro s uva kva len copied rest t rfl nonzero pos le ih h affords covers low
    have first := touch_stored hp valid h affords (covers.first nonzero) (covers.member nonzero) low
    generalize (touchAt s pid uva len).moved .copyout kva = s₁ at *
    generalize (touchAt s pid uva len).size = size at *
    have left := sub_toNat_of_le le
    have small : kva.toNat + len.toNat < 2 ^ 32 := lt_of_le_of_lt low (by decide)
    have next : (kva + size).toNat = kva.toNat + size.toNat := by
      rw [toNat_add]
      omega
    have later := ih first.isolated first.affords (covers.drop le) (by omega)
    refine first.append (later.congr fun i lt => ?_) hp le
    rw [BitVec.add_assoc]
    apply first.kernel
    rw [lt_def, left] at lt
    simp only [toNat_add]
    omega

end Stored

variable {uva len kva : Word} {L : Layout} {s : VmState} {pid : Nat}

theorem mem_vpages {i : Word} (fits : uva.toNat + len.toNat ≤ vmUserhi) (lt : i < len) :
    (uva + i).toNat / pageSize ∈ vpages uva len := by
  have nonzero : len ≠ 0#32 := by
    rintro rfl
    exact absurd lt BitVec.not_lt_zero
  rw [lt_def] at lt
  have sum : (uva + i).toNat = uva.toNat + i.toNat := by
    simp only [vmUserhi] at fits
    rw [toNat_add]
    omega
  rw [vpages, if_neg nonzero, Finset.mem_Icc, sum]
  simp only [pageSize]
  omega

theorem covers_vpages (lo : vmUserlo ≤ uva.toNat) (hi : uva.toNat + len.toNat ≤ vmUserhi) :
    Covers (vpages uva len) uva len :=
  ⟨⟨lo, hi⟩, fun _ lt => mem_vpages hi lt⟩

theorem ptCopyout_stored {pages : Finset Nat} (h : Isolated L s) (hp : UserPid pid)
    (valid : ∀ v ∈ pages, (Use.page pid v).Valid) (affords : Affords s pid pages) (covers : Covers pages uva len)
    (low : kva.toNat + len.toNat ≤ vmUserlo) :
    (ptCopyout s kva pid uva len).copied = len ∧
      Stored L pages s (ptCopyout s kva pid uva len).vm pid uva len fun i => s.mem (kva + i) := by
  rw [ptCopyout, if_pos (copyChecks_of_low covers.lo covers.hi low)]
  exact ⟨(copyLoop_copied len.toNat le_rfl).trans (BitVec.zero_add len),
    copyLoop_stored hp valid h affords covers low le_rfl⟩

theorem KernelBuffer.writable {n x : Word} (buffer : KernelBuffer L kva n) (s : VmState) (inside : x - kva < n) :
    Writable L s x ∧ x.toNat < vmUserlo := by
  obtain ⟨low, apart⟩ := buffer
  rw [lt_def, toNat_sub] at inside
  simp only [vmUserlo, pageSize, Writable] at *
  omega

/-! ## Copies from local variables

The kernel sets a buffer of its own and copies it out. -/

section Local

variable {L : Layout} {pages : Finset Nat} {s : VmState} {pid : Nat} {uva kva len n : Word} {m : Mem}
variable (h : Isolated L s) (hp : UserPid pid) (valid : ∀ v ∈ pages, (Use.page pid v).Valid)
variable (lo : vmUserlo ≤ uva.toNat) (hi : uva.toNat + len.toNat ≤ vmUserhi) (buffer : KernelBuffer L kva n)
variable (short : len.toNat ≤ n.toNat) (only : ∀ x, m x ≠ s.mem x → x - kva < n)
include h hp buffer short only

include valid in
theorem ptCopyout_local (affords : Affords s pid pages) (covers : Covers pages uva len) :
    Wrote L pages s (ptCopyout { s with mem := m } kva pid uva len).vm pid uva len fun i => m (kva + i) := by
  have low := buffer.1
  have data (x : Word) (changed : m x ≠ s.mem x) : Writable L s x := (buffer.writable s (only x changed)).1
  have same (x : Word) (high : vmUserlo ≤ x.toNat) : m x = s.mem x := by
    by_contra changed
    exact Nat.not_lt.2 high (buffer.writable s (only x changed)).2
  have stored := (ptCopyout_stored (h.write data) hp valid ((affords_write_iff h data valid).2 affords) covers
    (show kva.toNat + len.toNat ≤ _ by omega)).2
  exact ⟨stored.isolated, stored.affords, stored.written, fun q va b hq seen outside =>
    stored.kept q va b hq (seen.congr same) outside⟩

include lo hi

include valid in
theorem local_affords_iff : Affords s pid (vpages uva len ∪ pages) ↔
    AllSupplied (ptCopyout { s with mem := m } kva pid uva len) pid ∧
      Affords (ptCopyout { s with mem := m } kva pid uva len).vm pid pages := by
  have data (x : Word) (changed : m x ≠ s.mem x) : Writable L s x := (buffer.writable s (only x changed)).1
  have both : ∀ v ∈ vpages uva len ∪ pages, (Use.page pid v).Valid := by
    intro v member
    rcases Finset.mem_union.1 member with here | later
    · exact vpages_valid hp lo hi v here
    · exact valid v later
  rw [← affords_write_iff h data both]
  obtain ⟨low, apart⟩ := buffer
  exact exec_affords_iff (.copyout kva) (h.write data) hp lo hi
    (show KernelBuffer L kva len from ⟨by omega, by omega⟩) valid

theorem local_isolated (supplied : AllSupplied (ptCopyout { s with mem := m } kva pid uva len) pid) :
    Isolated L (ptCopyout { s with mem := m } kva pid uva len).vm := by
  have range : ∀ v ∈ vpages uva len, (Use.page pid v).Valid := vpages_valid hp lo hi
  have affords : Affords s pid (vpages uva len) := by
    rw [← Finset.union_empty (vpages uva len)]
    refine (local_affords_iff h hp ?_ lo hi buffer short only).2 ⟨supplied, affords_empty _ pid⟩
    exact fun v member => absurd member (Finset.notMem_empty v)
  exact (ptCopyout_local h hp range buffer short only affords (covers_vpages lo hi)).isolated

include valid in
theorem local_supplied_iff {others : Prop}
    (rest : Isolated L (ptCopyout { s with mem := m } kva pid uva len).vm →
      (others ↔ Affords (ptCopyout { s with mem := m } kva pid uva len).vm pid pages)) :
    AllSupplied (ptCopyout { s with mem := m } kva pid uva len) pid ∧ others ↔
      Affords s pid (vpages uva len ∪ pages) := by
  rw [local_affords_iff h hp valid lo hi buffer short only]
  exact and_congr_right fun supplied => rest (local_isolated h hp lo hi buffer short only supplied)

end Local

/-! ## Out and back -/

structure RoundTrip (s : VmState) (pid : Nat) (uva len buf dst : Word) : Prop where
  out : (ptCopyout s buf pid uva len).copied = len
  back : (ptCopyin (ptCopyout s buf pid uva len).vm pid uva dst len).copied = len
  equal : ∀ i, i < len →
    (ptCopyin (ptCopyout s buf pid uva len).vm pid uva dst len).vm.mem (dst + i) = s.mem (buf + i)
  others : ∀ q va b, (1 ≤ q ∧ q < numIds) → UserByte s q va b → ¬(q = pid ∧ va - uva < len) →
    UserByte (ptCopyout s buf pid uva len).vm q va b ∧
      UserByte (ptCopyin (ptCopyout s buf pid uva len).vm pid uva dst len).vm q va b

section Lost

variable {kind : CopyKind} {s : VmState} {pid : Nat} {uva kva len copied : Word}

theorem touch_size_of_fits (s : VmState) (pid : Nat) (fits : uva.toNat % 4096 + len.toNat ≤ 4096) :
    (touchAt s pid uva len).size = len := by
  apply BitVec.eq_of_toNat_eq
  rw [toNat_touch_size]
  omega

theorem copyLoop_single (nonzero : len ≠ 0#32) (fits : uva.toNat % 4096 + len.toNat ≤ 4096) :
    (copyLoop kind pid len.toNat s uva kva len copied).vm = (touchAt s pid uva len).moved kind kva := by
  have size := touch_size_of_fits s pid fits
  have fuel : ∃ n, len.toNat = n + 1 := by
    refine Nat.exists_eq_succ_of_ne_zero fun zero => nonzero (BitVec.eq_of_toNat_eq zero)
  obtain ⟨n, fuel⟩ := fuel
  rw [fuel]
  simp only [copyLoop, if_neg nonzero, size, BitVec.sub_self]
  cases n with
  | zero => rfl
  | succ n => simp [copyLoop]

theorem moved_copyin_first (s : VmState) (pid : Nat) (nonzero : len ≠ 0#32) :
    ((touchAt s pid uva len).moved .copyin kva).mem kva =
      (touchAt s pid uva len).vm.mem (touchAt s pid uva len).pa := by
  have inside : 0#32 < (touchAt s pid uva len).size := by
    rw [lt_def]
    exact touch_size_pos s pid uva nonzero
  rw [Touch.moved, CopyKind.move]
  dsimp only
  rw [memmove, BitVec.sub_self, if_pos inside, BitVec.add_zero]

def lost (s : VmState) (pid : Nat) (uva kva len : Word) : VmState :=
  { charge s pid with lastPallocIndex := 0, mem := memmove s.mem (uva % 4096#32) kva len }

theorem ptCopyout_lost (checks : copyChecks uva kva len = true) (nonzero : len ≠ 0#32)
    (fits : uva.toNat % 4096 + len.toNat ≤ 4096) (dir : getPdirEntryByVa s pid uva = 0#32)
    (left : (s.container pid).usage ≠ (s.container pid).quota) (none : ∀ j, s.lastPallocIndex < j → ¬Available s j) :
    (ptCopyout s kva pid uva len).vm = lost s pid uva kva len := by
  have absent : ¬present (getPtblEntryByVa s pid uva) := fun mapped => dir_of_present mapped dir
  have vm : (touchAt s pid uva len).vm = { charge s pid with lastPallocIndex := 0 } := by
    rw [touch_vm, if_neg absent]
    simp [allocPage, containerAlloc_dry left none]
  have entry : getPtblEntryByVa (touchAt s pid uva len).vm pid uva = 0#32 := by
    rw [vm]
    exact if_pos dir
  have pa : (touchAt s pid uva len).pa = uva % 4096#32 := by
    rw [touch_pa, userPa, entry, BitVec.zero_and, BitVec.zero_add]
  rw [ptCopyout, if_pos checks, copyLoop_single nonzero fits, Touch.moved, vm, pa, touch_size_of_fits s pid fits]
  rfl

end Lost

/-- A machine just booted, with a memory that held `m` and the cursor at `cursor`. Nothing is mapped, and everybody
may have 100 pages. -/
structure JustBooted (m : Mem) (cursor : Nat) (s : VmState) : Prop where
  isolated : Isolated sampleLayout s
  dir : ∀ pid i, (Use.table pid i).Valid → s.pdirPool pid i = 0#32
  mem : ∀ x : Word, x.toNat < sampleLayout.idptbl.toNat ∨ sampleLayout.idptbl.toNat + 1024 * pageSize ≤ x.toNat →
    s.mem x = m x
  cursor : s.lastPallocIndex = cursor
  container : ∀ pid, pid ≠ 0 → s.container pid = ⟨100, 0, 0, 0, 1⟩
  available : ∀ i, Available s i ↔ 0x40000 ≤ i ∧ i < 0x50000

def bootVm (m : Mem) (cursor : Nat) : VmState :=
  pdirInitKern sampleLayout sampleMap { blankVm with mem := m, lastPallocIndex := cursor }

theorem bootVm_justBooted (m : Mem) (cursor : Nat) : JustBooted m cursor (bootVm m cursor) := by
  unfold bootVm
  generalize start : { blankVm with mem := m, lastPallocIndex := cursor } = s
  obtain ⟨table, nps⟩ := pdirInitKern_account sampleLayout sampleMap s
  obtain ⟨index, containers⟩ := pdirInitKern_rest sampleLayout sampleMap s
  constructor
  · exact pdirInitKern_isolated ..
  · exact fun pid i valid => pdirInitKern_user _ _ _ valid
  · intro x out
    rw [pdirInitKern_mem sampleLayout sampleMap s out, ← start]
  · rw [index, ← start]
  · intro pid other
    rw [containers pid other, ← start]
    rfl
  · exact fun i => (available_congr table nps i).trans (sampleMap_pages s i)

theorem need_single (s : VmState) (pid v : Nat) : need s pid {v} ≤ 2 := by
  have one := Finset.card_filter_le {v} fun v => ¬present (getPtblEntryByVa s pid (vaddr v))
  have two := Finset.card_filter_le (Finset.image (· / 1024) {v}) fun j => getPdirEntry s pid j = 0#32
  rw [Finset.card_singleton] at one
  rw [Finset.image_singleton, Finset.card_singleton] at two
  unfold need
  rw [Finset.image_singleton]
  omega

theorem ptCopyout_fresh {va : Word} {b : Byte} (h : Isolated L s) (hp : UserPid pid) (user : userVa uva)
    (user' : userVa va) (page : va.toNat / pageSize = uva.toNat / pageSize)
    (mapped : present (getPtblEntryByVa (touchAt s pid uva len).vm pid uva)) (checks : copyChecks uva kva len = true)
    (nonzero : len ≠ 0#32) (fits : uva.toNat % 4096 + len.toNat ≤ 4096) (outside : ¬va - uva < len)
    (clear : ∀ x : Word, vmUserlo ≤ x.toNat → s.mem x = b) : UserByte (ptCopyout s kva pid uva len).vm pid va b := by
  have seen := touch_byte h hp user user' page mapped
  have fresh := seen.storeBytes (touch_isolated h hp user) hp user
    (fun i => (touchAt s pid uva len).vm.mem (kva + i)) fits mapped hp
  rw [if_neg fun inside => outside inside.2, ← touch_pa, clear _ seen.frame] at fresh
  rw [ptCopyout, if_pos checks, copyLoop_single nonzero fits, Touch.moved, touch_size_of_fits s pid fits]
  exact fresh

section JustBooted

variable {m : Mem} {cursor pid : Nat} {s : VmState} {uva kva len : Word} (boot : JustBooted m cursor s)
include boot

theorem JustBooted.room (other : pid ≠ 0) : room s pid = 100 := by
  rw [Certikos.room, boot.container pid other]
  rfl

theorem JustBooted.stocked (low : cursor ≤ 0x40000) : 10 ≤ (stock s).card := by
  have subset : Finset.Ico 0x40001 0x4000b ⊆ stock s := by
    intro i member
    rw [Finset.mem_Ico] at member
    rw [mem_stock, boot.available, boot.cursor]
    omega
  have enough := Finset.card_le_card subset
  rwa [Nat.card_Ico] at enough

theorem JustBooted.affords (low : cursor ≤ 0x40000) (other : pid ≠ 0) (v : Nat) : Affords s pid {v} := by
  have few := need_single s pid v
  have left := boot.room other
  have stocked := boot.stocked low
  exact ⟨by omega, by omega⟩

theorem JustBooted.store {m' : Mem} (data : ∀ x, m' x ≠ s.mem x → Writable sampleLayout s x) :
    JustBooted m' cursor { s with mem := m' } where
  isolated := boot.isolated.write data
  dir := boot.dir
  mem _ _ := rfl
  cursor := boot.cursor
  container := boot.container
  available := boot.available

theorem JustBooted.lost (passed : 0x50000 ≤ cursor) (hp : UserPid pid) (user : userVa uva)
    (checks : copyChecks uva kva len = true) (nonzero : len ≠ 0#32) (fits : uva.toNat % 4096 + len.toNat ≤ 4096) :
    (ptCopyout s kva pid uva len).vm = lost s pid uva kva len := by
  apply ptCopyout_lost checks nonzero fits
  · exact boot.dir pid _ (pdeIndexOf_eq uva ▸ table_valid (page_valid hp user))
  · rw [boot.container pid (by omega)]
    decide
  · intro j above available
    have range := (boot.available j).1 available
    have cursor := boot.cursor
    omega

theorem JustBooted.lost_affords (other : pid ≠ 0) (v : Nat) : Affords (Certikos.lost s pid uva kva len) pid {v} := by
  have few := need_single (Certikos.lost s pid uva kva len) pid v
  have charged : Certikos.room (Certikos.lost s pid uva kva len) pid + 1 = Certikos.room s pid :=
    room_charge (by rw [boot.container pid other]; decide)
  have left := boot.room other
  have subset : Finset.Ico 0x40000 0x4000a ⊆ stock (Certikos.lost s pid uva kva len) := by
    intro i member
    rw [Finset.mem_Ico] at member
    have available : Available s i := (boot.available i).2 ⟨member.1, by omega⟩
    exact mem_stock.2 ⟨lt_of_lt_of_le (show 0 < 0x40000 by decide) member.1, available⟩
  have stocked := Finset.card_le_card subset
  rw [Nat.card_Ico] at stocked
  exact ⟨by omega, by omega⟩

variable (fits : uva.toNat % 4096 + len.toNat ≤ 4096)
include fits

theorem JustBooted.lost_isolated : Isolated sampleLayout (Certikos.lost s pid uva kva len) := by
  have charged : Isolated sampleLayout { charge s pid with lastPallocIndex := 0 } :=
    boot.isolated.account rfl rfl rfl (fun _ => rfl) fun _ _ _ allocated => allocated
  refine charged.write fun x changed => ?_
  have inside : x - uva % 4096#32 < len := by
    by_contra outside
    exact changed (memmove_outside outside)
  have offset := toNat_mod_page uva
  rw [lt_def, toNat_sub] at inside
  refine .inr ⟨.inl ?_, .inl ?_⟩
  · simp only [vmUserlo]
    omega
  · change x.toNat < 0x1000000
    omega

theorem JustBooted.lost_high {x : Word} (high : vmUserlo ≤ x.toNat) :
    (Certikos.lost s pid uva kva len).mem x = m x := by
  rw [← boot.mem x (.inr (le_trans sampleLayout.below high))]
  refine memmove_outside fun inside => ?_
  have offset := toNat_mod_page uva
  rw [lt_def, toNat_sub] at inside
  simp only [vmUserlo] at high
  omega

end JustBooted

def passedVm : VmState := bootVm (fun x => if x = 0x300000 then 0xff else 0) 0x50000

end Certikos
