import Certikos.Memory.CopyOut

/-!
# What a copy from user memory leaves

`pt_copyin` maps the missing pages of its range like `pt_copyout` does, so that it changes the address space it reads
from.
-/

namespace Certikos
open Lib

/-! ## What a copy takes -/

structure Spends (s s' : VmState) (pid : Nat) (pages : Finset Nat) : Prop where
  room : room s' pid + need s pid pages = room s pid + need s' pid pages
  stock : (stock s').card + need s pid pages = (stock s).card + need s' pid pages
  others : ∀ q, q ≠ pid → Certikos.room s' q = Certikos.room s q
  needs : ∀ q pages', q ≠ pid → (∀ v ∈ pages', (Use.page q v).Valid) → need s' q pages' = need s q pages'

section Spends

variable {L : Layout} {s s₁ s₂ : VmState} {pid q : Nat} {pages : Finset Nat} {uva kva len copied : Word}

theorem Spends.refl (s : VmState) (pid : Nat) (pages : Finset Nat) : Spends s s pid pages :=
  ⟨rfl, rfl, fun _ _ => rfl, fun _ _ _ _ => rfl⟩

theorem Spends.trans (first : Spends s s₁ pid pages) (second : Spends s₁ s₂ pid pages) : Spends s s₂ pid pages where
  room := by
    have one := first.room
    have two := second.room
    omega
  stock := by
    have one := first.stock
    have two := second.stock
    omega
  others q other := (second.others q other).trans (first.others q other)
  needs q pages' other valid := (second.needs q pages' other valid).trans (first.needs q pages' other valid)

theorem spends_write (h : Isolated L s) {m : Mem} (data : ∀ x, m x ≠ s.mem x → Writable L s x)
    (valid : ∀ v ∈ pages, (Use.page pid v).Valid) : Spends s { s with mem := m } pid pages where
  room := by
    rw [need_write h data valid]
    rfl
  stock := by
    rw [need_write h data valid]
    rfl
  others _ _ := rfl
  needs _ _ _ valid' := need_write h data valid'

theorem container_containerAlloc (other : q ≠ pid) : (containerAlloc s pid).1.container q = s.container q := by
  have charged : (charge s pid).container q = s.container q := by simp [charge, modifyContainer, other]
  rcases containerAlloc_cases s pid with ⟨-, result⟩ | ⟨-, ⟨-, result⟩ | ⟨f, -, -, -, result⟩⟩
  · rw [result]
  · rw [result]
    exact charged
  · rw [result]
    exact charged

theorem container_allocPage {va : Word} {perm : Nat} (other : q ≠ pid) :
    (allocPage s pid va perm).1.container q = s.container q := by
  apply allocPage_preserves (fun t => t.container q = s.container q) rfl
  · exact fun t same => (container_containerAlloc other).trans same
  · intro t f same
    obtain ⟨dir, mem, account⟩ := installTable_account t pid (pdeIndexOf va) f
    rw [account]
    exact same
  · exact fun _ _ same => same

theorem touch_other (s : VmState) (uva len : Word) (other : q ≠ pid) :
    (touchAt s pid uva len).vm.container q = s.container q ∧
      ∀ j, (touchAt s pid uva len).vm.pdirPool q j = s.pdirPool q j := by
  rw [touch_vm]
  split
  · exact ⟨rfl, fun _ => rfl⟩
  · exact ⟨container_allocPage other, fun _ => pdir_allocPage fun same => other same.1⟩

variable (h : Isolated L s) (hp : UserPid pid) (valid : ∀ v ∈ pages, (Use.page pid v).Valid)
include h hp valid

theorem spends_touch (user : userVa uva) (member : uva.toNat / pageSize ∈ pages) (affords : Affords s pid pages) :
    Spends s (touchAt s pid uva len).vm pid pages := by
  have lt := vpage_lt (page_valid hp user)
  obtain ⟨mapped, -⟩ := affords.touch h hp user valid member len
  rcases touch_supply s pid uva len with ⟨-, absent⟩ | ⟨-, room', stock'⟩
  · exact absurd mapped absent
  have there := mapped
  rw [← getPtblEntryByVa_page] at there
  have total := need_insert lt
    (fun x (among : x ∈ pages) ne => touch_entry h hp user (valid x among) fun same => ne (Use.page.inj same).2)
    (fun j ne => pdir_touch ne) there
  rw [Finset.insert_eq_of_mem member, cost_page] at total
  refine ⟨by omega, by omega, fun q other => ?_, fun q pages' other valid' => ?_⟩
  · rw [room, room, (touch_other s uva len other).1]
  · have dirs (j : Nat) : getPdirEntry (touchAt s pid uva len).vm q j = getPdirEntry s q j :=
      (touch_other s uva len other).2 j
    have entries : (pages'.filter fun v => ¬present (getPtblEntryByVa (touchAt s pid uva len).vm q (vaddr v))) =
        pages'.filter fun v => ¬present (getPtblEntryByVa s q (vaddr v)) := by
      apply Finset.filter_congr
      intro v among
      rw [touch_entry h hp user (valid' v among) fun same => other (Use.page.inj same).1]
    simp only [need, entries, dirs]

theorem copyLoop_spends {kind : CopyKind} (affords : Affords s pid pages) (covers : Covers pages uva len)
    (buffer : kind = .copyin → KernelBuffer L kva len) {fuel : Nat} (enough : len.toNat ≤ fuel) :
    Spends s (copyLoop kind pid fuel s uva kva len copied).vm pid pages := by
  refine copyLoop_induct (P := fun s uva kva len _ r => Isolated L s → Affords s pid pages → Covers pages uva len →
    (kind = .copyin → KernelBuffer L kva len) → Spends s r.vm pid pages) ?_ ?_ enough h affords covers buffer
  · exact fun s _ _ _ _ _ _ _ => .refl s pid pages
  · rintro s uva kva len copied rest t rfl nonzero pos le ih h affords covers buffer
    have user := covers.first nonzero
    have member := covers.member nonzero
    obtain ⟨mapped, affords'⟩ := affords.touch h hp user valid member len
    have h₁ : Isolated L (touchAt s pid uva len).vm := touch_isolated h hp user
    have data := move_writable hp user mapped buffer
    have moved : Spends (touchAt s pid uva len).vm ((touchAt s pid uva len).moved kind kva) pid pages :=
      spends_write h₁ data valid
    refine ((spends_touch h hp valid user member affords).trans moved).trans ?_
    exact ih (moved_isolated h hp user mapped buffer) ((affords_write_iff h₁ data valid).2 affords') (covers.drop le)
      fun e => (buffer e).drop le

end Spends

/-! ## What a copy in reads -/

structure Fetched (L : Layout) (pages : Finset Nat) (s s' : VmState) (pid : Nat) (uva kva len : Word) : Prop where
  isolated : Isolated L s'
  affords : Affords s' pid pages
  shown : ∀ i, i < len → UserByte s' pid (uva + i) (s'.mem (kva + i))
  kept : ∀ q va b, (1 ≤ q ∧ q < numIds) → UserByte s q va b → UserByte s' q va b
  kernel : ∀ x : Word, x.toNat < vmUserlo → ¬x - kva < len → s'.mem x = s.mem x

section Fetched

variable {L : Layout} {pages : Finset Nat} {s s₁ s₂ : VmState} {pid : Nat} {uva kva len size copied : Word}

theorem Fetched.refl (h : Isolated L s) (affords : Affords s pid pages) : Fetched L pages s s pid uva kva 0#32 :=
  ⟨h, affords, fun _ lt => absurd lt BitVec.not_lt_zero, fun _ _ _ _ seen => seen, fun _ _ _ => rfl⟩

theorem Fetched.append (first : Fetched L pages s s₁ pid uva kva size)
    (rest : Fetched L pages s₁ s₂ pid (uva + size) (kva + size) (len - size)) (hp : UserPid pid)
    (le : size.toNat ≤ len.toNat) (low : kva.toNat + len.toNat ≤ vmUserlo) : Fetched L pages s s₂ pid uva kva len where
  isolated := rest.isolated
  affords := rest.affords
  shown i lt := by
    simp only [vmUserlo] at low
    by_cases early : i < size
    · have same : s₂.mem (kva + i) = s₁.mem (kva + i) := by
        apply rest.kernel
        · simp only [vmUserlo]
          bv_omega
        · bv_omega
      rw [same]
      exact rest.kept _ _ _ hp (first.shown i early)
    · have later := rest.shown (i - size) (by bv_omega)
      have sum : size + (i - size) = i := by rw [BitVec.add_comm, BitVec.sub_add_cancel]
      rwa [BitVec.add_assoc, BitVec.add_assoc, sum] at later
  kept q va b hq seen := rest.kept q va b hq (first.kept q va b hq seen)
  kernel x below outside := by
    have apart : ¬x - (kva + size) < len - size := by bv_omega
    have apart' : ¬x - kva < size := by bv_omega
    exact (rest.kernel x below apart).trans (first.kernel x below apart')

variable (hp : UserPid pid) (valid : ∀ v ∈ pages, (Use.page pid v).Valid)
include hp valid

variable (h : Isolated L s) (affords : Affords s pid pages)
include h affords

theorem storeBytes_fetched (user : userVa uva)
    (mapped : present (getPtblEntryByVa s pid uva)) (fits : uva.toNat % 4096 + size.toNat ≤ 4096)
    (buffer : KernelBuffer L kva size) :
    Fetched L pages s { s with mem := storeBytes s.mem kva size fun i => s.mem (userPa s pid uva + i) } pid uva kva
      size := by
  have low := buffer.1
  have same (x : Word) (high : vmUserlo ≤ x.toNat) :
      storeBytes s.mem kva size (fun i => s.mem (userPa s pid uva + i)) x = s.mem x := storeBytes_high low high
  have data (x : Word) (changed : storeBytes s.mem kva size (fun i => s.mem (userPa s pid uva + i)) x ≠ s.mem x) :
      Writable L s x := by
    have inside : x - kva < size := by
      by_contra outside
      exact changed (if_neg outside)
    exact (buffer.writable s inside).1
  refine ⟨h.write data, (affords_write_iff h data valid).2 affords, ?_, ?_, ?_⟩
  · intro i lt
    have cancel : kva + i - kva = i := by bv_omega
    have value : storeBytes s.mem kva size (fun i => s.mem (userPa s pid uva + i)) (kva + i) =
        s.mem (userPa s pid uva + i) := by
      rw [storeBytes, cancel, if_pos lt]
    rw [BitVec.lt_def] at lt
    obtain ⟨entry, pa⟩ : getPtblEntryByVa s pid (uva + i) = getPtblEntryByVa s pid uva ∧
        userPa s pid (uva + i) = userPa s pid uva + i := userPa_add s pid (by omega)
    have user' : userVa (uva + i) := by
      obtain ⟨lo, hi⟩ := user
      simp only [userVa, vmUserlo, vmUserhi, BitVec.toNat_add] at *
      omega
    have seen := (h.userByte hp user' (entry ▸ mapped)).congr same
    rwa [pa, ← value] at seen
  · exact fun q va b hq seen => seen.congr same
  · exact fun x below outside => if_neg outside

theorem touch_fetched (user : userVa uva) (member : uva.toNat / pageSize ∈ pages) (buffer : KernelBuffer L kva len) :
    Fetched L pages s ((touchAt s pid uva len).moved .copyin kva) pid uva kva (touchAt s pid uva len).size := by
  obtain ⟨mapped, affords'⟩ := affords.touch h hp user valid member len
  have size := toNat_touch_size s pid uva len
  obtain ⟨low, apart⟩ := buffer
  have fetched : Fetched L pages (touchAt s pid uva len).vm ((touchAt s pid uva len).moved .copyin kva) pid uva kva
      (touchAt s pid uva len).size := by
    rw [Touch.moved, CopyKind.move, memmove_eq, touch_pa]
    exact storeBytes_fetched hp valid (touch_isolated h hp user) affords' user mapped (by omega) ⟨by omega, by omega⟩
  have kernel (x : Word) (below : x.toNat < vmUserlo) : (touchAt s pid uva len).vm.mem x = s.mem x :=
    touch_kernel h hp user below
  have kept (q va b) (hq : UserPid q) (seen : UserByte s q va b) :
      UserByte (touchAt s pid uva len).vm q va b := seen.touch h hp user hq
  generalize (touchAt s pid uva len).moved .copyin kva = s' at *
  generalize (touchAt s pid uva len).vm = t at *
  exact ⟨fetched.isolated, fetched.affords, fetched.shown,
    fun q va b hq seen => fetched.kept q va b hq (kept q va b hq seen),
    fun x below outside => (fetched.kernel x below outside).trans (kernel x below)⟩

theorem copyLoop_fetched (covers : Covers pages uva len) (buffer : KernelBuffer L kva len) {fuel : Nat}
    (enough : len.toNat ≤ fuel) :
    Fetched L pages s (copyLoop .copyin pid fuel s uva kva len copied).vm pid uva kva len := by
  refine copyLoop_induct (P := fun s uva kva len _ r => Isolated L s → Affords s pid pages → Covers pages uva len →
    KernelBuffer L kva len → Fetched L pages s r.vm pid uva kva len) ?_ ?_ enough h affords covers buffer
  · exact fun s _ _ _ h affords _ _ => .refl h affords
  · rintro s uva kva len copied rest t rfl nonzero pos le ih h affords covers buffer
    have first := touch_fetched hp valid h affords (covers.first nonzero) (covers.member nonzero) buffer
    exact first.append (ih first.isolated first.affords (covers.drop le) (buffer.drop le)) hp le buffer.1

end Fetched

end Certikos
