import Certikos.Memory.Boot
import Certikos.Memory.Copy
import Mathlib.Data.Finset.Card
import Mathlib.Data.Finset.Image
import Mathlib.Order.Interval.Finset.Nat

/-!
# User copies and the pages of the process

The copy loop maps a missing page on demand and uses the entry it then reads without a look at whether the mapping
succeeded.
-/

namespace Certikos
open Lib
open BitVec (ofNat toNat_add toNat_ofNat eq_of_toNat_eq)

/-! ## What allocation needs -/

def room (s : VmState) (id : Nat) : Nat := ((s.container id).quota - (s.container id).usage).toNat

def stock (s : VmState) : Finset Nat :=
  (Finset.range (getNps s)).filter fun i => s.lastPallocIndex < i ∧ Available s i

variable {perm : Nat} {v : Nat}

section Supply

variable {s : VmState} {pid i f : Nat} {va : Word}

theorem mem_stock : i ∈ stock s ↔ s.lastPallocIndex < i ∧ Available s i := by
  simp only [stock, Finset.mem_filter, Finset.mem_range]
  exact ⟨fun h => h.2, fun h => ⟨h.2.1, h⟩⟩

theorem room_pos : 0 < room s pid ↔ (s.container pid).usage ≠ (s.container pid).quota := by
  unfold room
  constructor
  · intro pos full
    simp [full] at pos
  · intro left
    by_contra none
    apply left
    bv_omega

theorem room_charge (left : (s.container pid).usage ≠ (s.container pid).quota) :
    room (charge s pid) pid + 1 = room s pid := by
  have container : (charge s pid).container pid = { s.container pid with usage := (s.container pid).usage + 1 } := by
    simp [charge, modifyContainer]
  rw [room, room, container]
  bv_omega

theorem stock_take (above : s.lastPallocIndex < f)
    (first : ∀ j, s.lastPallocIndex < j → j < f → ¬Available s j) :
    stock { atSetAllocated (charge s pid) f 1 with lastPallocIndex := f } = (stock s).erase f := by
  ext i
  have allocated : atIsAllocated { atSetAllocated (charge s pid) f 1 with lastPallocIndex := f } i =
      if i = f then 1 else atIsAllocated s i := allocated_setAllocated (charge s pid) f i 1
  have norm : atIsNorm { atSetAllocated (charge s pid) f 1 with lastPallocIndex := f } i = atIsNorm s i :=
    norm_setAllocated (charge s pid) f i 1
  rw [Finset.mem_erase, mem_stock, mem_stock, Available, allocated, norm]
  by_cases here : i = f
  · simp [here]
  · simp only [if_neg here]
    constructor
    · rintro ⟨lt, rest⟩
      exact ⟨here, lt_trans above lt, rest⟩
    · rintro ⟨-, lt, rest⟩
      refine ⟨?_, rest⟩
      by_contra below
      exact first i lt (by omega) rest

theorem containerAlloc_supply (s : VmState) (pid : Nat) :
    ((containerAlloc s pid).2 = 0 ∧ ¬(1 ≤ room s pid ∧ 1 ≤ (stock s).card)) ∨
    (containerAlloc s pid).2 ≠ 0 ∧ room (containerAlloc s pid).1 pid + 1 = room s pid ∧
      (stock (containerAlloc s pid).1).card + 1 = (stock s).card := by
  rcases containerAlloc_cases s pid with ⟨full, result⟩ | ⟨left, ⟨none, result⟩ | ⟨f, above, available, first, result⟩⟩
  · refine .inl ⟨by rw [result], fun h => ?_⟩
    exact room_pos.1 h.1 full
  · refine .inl ⟨by rw [result], fun h => ?_⟩
    obtain ⟨i, hi⟩ := Finset.card_pos.1 h.2
    exact none i (mem_stock.1 hi).1 (mem_stock.1 hi).2
  · refine .inr ?_
    rw [result]
    refine ⟨by dsimp only; omega, room_charge left, ?_⟩
    rw [stock_take above first, Finset.card_erase_add_one (mem_stock.2 ⟨above, available⟩)]

def cost (s : VmState) (pid : Nat) (va : Word) : Nat :=
  if present (getPtblEntryByVa s pid va) then 0 else if getPdirEntryByVa s pid va = 0#32 then 2 else 1

def Supplied (s : VmState) (pid : Nat) (va : Word) : Prop :=
  cost s pid va ≤ room s pid ∧ cost s pid va ≤ (stock s).card
deriving Decidable

theorem present_iff (entry : Word) : present entry ↔ entry.toNat % 2 = 1 := by
  have bit : (entry &&& ofNat 32 pteP).toNat = entry.toNat % 2 := by
    rw [BitVec.toNat_and, toNat_ofNat]
    exact Nat.and_one_is_mod _
  unfold present
  rw [Ne, ← BitVec.toNat_inj, bit, toNat_ofNat]
  omega

theorem dir_of_present (mapped : present (getPtblEntryByVa s pid va)) : getPdirEntryByVa s pid va ≠ 0#32 := by
  intro zero
  rw [getPtblEntryByVa, if_pos (show getPdirEntry s pid (pdeIndexOf va) = 0#32 from zero)] at mapped
  exact mapped rfl

theorem present_mk (f : Nat) (bit : perm % 2 = 1) : present (ofNat 32 (f * pageSize + perm)) := by
  rw [present_iff, toNat_ofNat]
  simp only [pageSize]
  omega

theorem getPtblEntryByVa_set (dir : getPdirEntryByVa s pid va ≠ 0#32) :
    getPtblEntryByVa (setPtblEntryByVa s pid va f perm) pid va = ofNat 32 (f * pageSize + perm) := by
  unfold getPtblEntryByVa
  rw [if_neg (show getPdirEntry (setPtblEntryByVa s pid va f perm) pid (pdeIndexOf va) ≠ 0#32 from dir)]
  exact readWord_writeWord ..

theorem allocPage_supply (perm : Nat) (missing : ¬present (getPtblEntryByVa s pid va)) :
    (¬Supplied s pid va ∧ ¬present (getPtblEntryByVa (allocPage s pid va perm).1 pid va)) ∨
    (∃ f, getPtblEntryByVa (allocPage s pid va perm).1 pid va = ofNat 32 (f * pageSize + perm)) ∧
      room (allocPage s pid va perm).1 pid + cost s pid va = room s pid ∧
      (stock (allocPage s pid va perm).1).card + cost s pid va = (stock s).card := by
  obtain ⟨dir₁, -⟩ := containerAlloc_frame s pid
  have supply₁ := containerAlloc_supply s pid
  have entry₁ := entryByVa_alloc s pid pid va
  have pde₁ : getPdirEntryByVa (containerAlloc s pid).1 pid va = getPdirEntryByVa s pid va := by
    rw [getPdirEntryByVa, getPdirEntry, dir₁]
    rfl
  by_cases failed : (containerAlloc s pid).2 = 0
  · have result : (allocPage s pid va perm).1 = (containerAlloc s pid).1 := by
      simp [allocPage, failed]
    refine .inl ⟨fun supplied => ?_, by rw [result, entry₁]; exact missing⟩
    rcases supply₁ with ⟨-, none⟩ | ⟨found, -⟩
    · refine none ⟨le_trans ?_ supplied.1, le_trans ?_ supplied.2⟩ <;>
        · unfold cost
          rw [if_neg missing]
          split <;> omega
    · exact found failed
  have result : allocPage s pid va perm =
      mapPage (containerAlloc s pid).1 pid va (containerAlloc s pid).2 perm := by
    simp [allocPage, failed]
  obtain ⟨-, room₁, stock₁⟩ := supply₁.resolve_left fun h => failed h.1
  rw [result]
  revert entry₁ pde₁ room₁ stock₁
  generalize (containerAlloc s pid).1 = s₁
  generalize (containerAlloc s pid).2 = f
  intro entry₁ pde₁ room₁ stock₁
  have supply₂ := containerAlloc_supply s₁ pid
  rcases mapPage_cases s₁ pid va f perm with ⟨dir, mapped⟩ | ⟨dir, ⟨failed₂, mapped⟩ | ⟨found₂, mapped⟩⟩
  · have one : cost s pid va = 1 := by rw [cost, if_neg missing, if_neg (pde₁ ▸ dir)]
    rw [mapped, one]
    exact .inr ⟨⟨f, getPtblEntryByVa_set dir⟩, room₁, stock₁⟩
  · have two : cost s pid va = 2 := by rw [cost, if_neg missing, if_pos (pde₁ ▸ dir)]
    rw [mapped, Supplied, two]
    refine .inl ⟨fun supplied => ?_, ?_⟩
    · rcases supply₂ with ⟨-, none⟩ | ⟨found, -⟩
      · exact none (by omega)
      · exact found failed₂
    · rw [entryByVa_alloc, entry₁]
      exact missing
  · have two : cost s pid va = 2 := by rw [cost, if_neg missing, if_pos (pde₁ ▸ dir)]
    obtain ⟨-, room₂, stock₂⟩ := supply₂.resolve_left fun h => found₂ h.1
    obtain ⟨pdir, mem, account⟩ :=
      installTable_account (containerAlloc s₁ pid).1 pid (pdeIndexOf va) (containerAlloc s₁ pid).2
    have same (t : VmState) (e : t = installTable (containerAlloc s₁ pid).1 pid (pdeIndexOf va) (containerAlloc s₁ pid).2) :
        room (setPtblEntryByVa t pid va f perm) pid = room (containerAlloc s₁ pid).1 pid ∧
        stock (setPtblEntryByVa t pid va f perm) = stock (containerAlloc s₁ pid).1 := by
      rw [e, account]
      exact ⟨rfl, rfl⟩
    rw [mapped, two]
    rw [(same _ rfl).1, (same _ rfl).2]
    exact .inr ⟨⟨f, getPtblEntryByVa_set pdir_installTable_self⟩, by omega, by omega⟩

end Supply

/-! ## One access -/

section Access

variable {kind : CopyKind} {s : VmState} {pid : Nat} {uva kva len copied : Word}

section

variable (s : VmState) (pid : Nat) (uva len : Word)

theorem touch_vm : (touchAt s pid uva len).vm =
      if present (getPtblEntryByVa s pid uva) then s else (allocPage s pid uva (pteP + pteU + pteW)).1 := by
  unfold touchAt
  dsimp only
  split
  · rename_i missing
    exact (if_neg (show ¬present (getPtblEntryByVa s pid uva) from not_not.2 missing)).symm
  · rename_i mapped
    exact (if_pos (show present (getPtblEntryByVa s pid uva) from mapped)).symm

theorem touch_supply : (¬Supplied s pid uva ∧ ¬present (getPtblEntryByVa (touchAt s pid uva len).vm pid uva)) ∨
    present (getPtblEntryByVa (touchAt s pid uva len).vm pid uva) ∧
      room (touchAt s pid uva len).vm pid + cost s pid uva = room s pid ∧
      (stock (touchAt s pid uva len).vm).card + cost s pid uva = (stock s).card := by
  rw [touch_vm]
  by_cases mapped : present (getPtblEntryByVa s pid uva)
  · have free : cost s pid uva = 0 := if_pos mapped
    rw [if_pos mapped, free]
    exact .inr ⟨mapped, rfl, rfl⟩
  · rw [if_neg mapped]
    rcases allocPage_supply (pteP + pteU + pteW) mapped with short | ⟨⟨f, entry⟩, left⟩
    · exact .inl short
    · exact .inr ⟨entry ▸ present_mk f (by decide), left⟩

theorem touch_present_iff : present (getPtblEntryByVa (touchAt s pid uva len).vm pid uva) ↔ Supplied s pid uva := by
  rcases touch_supply s pid uva len with ⟨none, unmapped⟩ | ⟨mapped, room, stock⟩
  · simp [none, unmapped]
  · simp only [mapped, true_iff]
    exact ⟨by omega, by omega⟩

theorem touch_accesses {x : Word} (access : (touchAt s pid uva len).Accesses x) :
    x.toNat / pageSize = entryFrame (getPtblEntryByVa (touchAt s pid uva len).vm pid uva) := by
  have pa := toNat_touch_pa s pid uva len
  have size := toNat_touch_size s pid uva len
  unfold Touch.Accesses at access
  generalize (touchAt s pid uva len).pa = p at *
  generalize (touchAt s pid uva len).size = n at *
  generalize entryFrame (getPtblEntryByVa (touchAt s pid uva len).vm pid uva) = f at *
  rw [BitVec.lt_def, BitVec.toNat_sub] at access
  simp only [pageSize]
  omega

end

theorem copyLoop_touched {fuel : Nat} {t : Touch}
    (touched : t ∈ (copyLoop kind pid fuel s uva kva len copied).touched) :
    ∃ l, t = touchAt t.before pid t.uva l := by
  induction fuel generalizing s uva kva len copied with
  | zero => simp [copyLoop] at touched
  | succ fuel ih =>
    by_cases zero : len = 0#32
    · simp [copyLoop, zero] at touched
    · simp only [copyLoop, if_neg zero, List.mem_cons] at touched
      rcases touched with rfl | later
      · exact ⟨len, rfl⟩
      · exact ih later

end Access

/-! ## Whole copies -/

def Touch.Mapped (t : Touch) (pid : Nat) : Prop :=
  present (getPtblEntryByVa t.vm pid t.uva) ∧
    ∀ x, t.Accesses x → x.toNat / pageSize = entryFrame (getPtblEntryByVa t.vm pid t.uva)

/-- Only pages of the process are touched, and a copy that cannot have a page reports less than
`len`. -/
def OwnFrames (r : Copied) (pid : Nat) (len : Word) : Prop :=
  (∀ t ∈ r.touched, t.Mapped pid) ∧
    ((∃ t ∈ r.touched, ¬Supplied t.before pid t.uva) → r.copied.toNat < len.toNat)

def AllSupplied (r : Copied) (pid : Nat) : Prop := ∀ t ∈ r.touched, Supplied t.before pid t.uva

theorem Touch.mapped_iff {t : Touch} {pid : Nat} (shape : ∃ l, t = touchAt t.before pid t.uva l) :
    t.Mapped pid ↔ Supplied t.before pid t.uva := by
  obtain ⟨l, shape⟩ := shape
  rw [shape]
  constructor
  · exact fun mapped => (touch_present_iff ..).1 mapped.1
  · exact fun supplied => ⟨(touch_present_iff ..).2 supplied, fun x access => touch_accesses _ _ _ _ access⟩

theorem ownFrames_iff_of_touches {r : Copied} {pid : Nat} {len : Word}
    (touches : ∀ t ∈ r.touched, ∃ l, t = touchAt t.before pid t.uva l) : OwnFrames r pid len ↔ AllSupplied r pid := by
  constructor
  · exact fun own t touched => (Touch.mapped_iff (touches t touched)).1 (own.1 t touched)
  · intro supplied
    refine ⟨fun t touched => ?_, fun ⟨t, touched, short⟩ => absurd (supplied t touched) short⟩
    exact (Touch.mapped_iff (touches t touched)).2 (supplied t touched)

/-! ## How many pages a copy takes

In a state with separate address spaces the whole copy can be judged in advance: what it writes
changes no table, and a page mapped for one virtual page changes the entry of no other. -/

section Need

variable {L : Layout} {s s' : VmState} {pid q x : Nat} {va : Word}

theorem Isolated.entry_set {perm f : Nat} (h : Isolated L s) (hp : UserPid pid) (user : userVa va)
    (dir : getPdirEntryByVa s pid va ≠ 0#32) (valid : (Use.page q x).Valid)
    (ne : Use.page q x ≠ .page pid (va.toNat / pageSize)) :
    getPtblEntryByVa (setPtblEntryByVa s pid va f perm) q (vaddr x) = getPtblEntryByVa s q (vaddr x) := by
  rw [setPtblEntryByVa, setPtblEntry, pdeIndexOf_eq, pteIndexOf_eq]
  exact entry_modifyPtbl h.injective (page_valid hp user) (pdeIndexOf_eq va ▸ dir) valid ne

theorem Isolated.entry_allocPage (h : Isolated L s) (hp : UserPid pid)
    (user : userVa va) (valid : (Use.page q x).Valid) (ne : Use.page q x ≠ .page pid (va.toNat / pageSize)) :
    getPtblEntryByVa (allocPage s pid va perm).1 q (vaddr x) = getPtblEntryByVa s q (vaddr x) := by
  obtain ⟨h₁, -, -⟩ := h.alloc pid
  rw [← entryByVa_alloc s pid]
  unfold allocPage
  dsimp only
  split
  · rfl
  generalize (containerAlloc s pid).2 = f
  revert h₁
  generalize (containerAlloc s pid).1 = s₁
  intro h₁
  obtain ⟨h₂, given, -⟩ := h₁.alloc pid
  rcases mapPage_cases s₁ pid va f perm with ⟨dir, mapped⟩ | ⟨missing, ⟨-, mapped⟩ | ⟨found, mapped⟩⟩
  · rw [mapped]
    exact h₁.entry_set hp user dir valid ne
  · rw [mapped]
    exact entryByVa_alloc ..
  · have fresh := given found
    have range := (h₂.fresh_range fresh).2
    have tableValid := table_valid (page_valid hp user)
    rw [← pdeIndexOf_eq] at tableValid
    have missing₂ : (containerAlloc s₁ pid).1.pdirPool pid (pdeIndexOf va) = 0#32 := by
      rw [(containerAlloc_frame s₁ pid).1]
      exact missing
    simp only [vmUserhiPi, vmUserhi, pageSize] at range
    rw [mapped, (h₂.install tableValid fresh).entry_set hp user pdir_installTable_self valid ne,
      entry_installTable missing₂ (by omega) fresh.unused valid, entryByVa_alloc]

theorem single_valid (hp : UserPid pid) (user : userVa va) :
    ∀ v ∈ ({va.toNat / pageSize} : Finset Nat), (Use.page pid v).Valid := by
  intro v member
  rw [Finset.mem_singleton.1 member]
  exact page_valid hp user

def need (s : VmState) (pid : Nat) (vpages : Finset Nat) : Nat :=
  (vpages.filter fun v => ¬present (getPtblEntryByVa s pid (vaddr v))).card +
    ((vpages.image (· / 1024)).filter fun j => getPdirEntry s pid j = 0#32).card

theorem card_filter_insert {pages : Finset Nat} (missing missing' : Nat → Prop) [DecidablePred missing]
    [DecidablePred missing'] (others : ∀ x ∈ pages, x ≠ v → (missing' x ↔ missing x)) (there : ¬missing' v) :
    ((insert v pages).filter missing).card = (if missing v then 1 else 0) + (pages.filter missing').card := by
  have rest : pages.filter missing' = (pages.filter missing).erase v := by
    ext x
    rw [Finset.mem_erase, Finset.mem_filter, Finset.mem_filter]
    by_cases here : x = v
    · simp [here, there]
    · rw [and_congr_right fun member => others x member here]
      simp [here]
  rw [rest, Finset.filter_insert]
  split
  · by_cases counted : v ∈ pages.filter missing
    · rw [Finset.insert_eq_of_mem counted, Nat.add_comm, Finset.card_erase_add_one counted]
    · rw [Finset.card_insert_of_notMem counted, Finset.erase_eq_of_notMem counted, Nat.add_comm]
  · rename_i found
    rw [Finset.erase_eq_of_notMem fun counted => found (Finset.mem_filter.1 counted).2, Nat.zero_add]

theorem pde_vaddr (hv : v < 1048576) : getPdirEntryByVa s pid (vaddr v) = getPdirEntry s pid (v / 1024) := by
  rw [getPdirEntryByVa, pdeIndexOf_eq, vaddr, toNat_ofNat, pageSize]
  congr 1
  omega

theorem need_insert {vpages : Finset Nat} (hv : v < 1048576)
    (entries : ∀ x ∈ vpages, x ≠ v → getPtblEntryByVa s' pid (vaddr x) = getPtblEntryByVa s pid (vaddr x))
    (dirs : ∀ j, j ≠ v / 1024 → getPdirEntry s' pid j = getPdirEntry s pid j)
    (there : present (getPtblEntryByVa s' pid (vaddr v))) :
    need s pid (insert v vpages) = cost s pid (vaddr v) + need s' pid vpages := by
  have pages := card_filter_insert (fun x => ¬present (getPtblEntryByVa s pid (vaddr x)))
    (fun x => ¬present (getPtblEntryByVa s' pid (vaddr x)))
    (fun x (member : x ∈ vpages) ne => by rw [entries x member ne]) (not_not.2 there)
  have tables := card_filter_insert (fun j => getPdirEntry s pid j = 0#32) (fun j => getPdirEntry s' pid j = 0#32)
    (fun j (_ : j ∈ vpages.image (· / 1024)) ne => by rw [dirs j ne]) (pde_vaddr hv ▸ dir_of_present there)
  unfold need
  rw [Finset.image_insert, pages, tables, cost, pde_vaddr hv]
  by_cases mapped : present (getPtblEntryByVa s pid (vaddr v))
  · have dir : getPdirEntry s pid (v / 1024) ≠ 0#32 := pde_vaddr hv ▸ dir_of_present mapped
    rw [if_neg (not_not.2 mapped), if_neg dir, if_pos mapped]
    omega
  · rw [if_pos mapped, if_neg mapped]
    split <;> omega

theorem cost_le_need {vpages : Finset Nat} (member : v ∈ vpages) (hv : v < 1048576) :
    cost s pid (vaddr v) ≤ need s pid vpages := by
  have pde : getPdirEntryByVa s pid (vaddr v) = getPdirEntry s pid (v / 1024) := pde_vaddr hv
  unfold cost need
  split
  · exact Nat.zero_le _
  · rename_i missing
    have page : 0 < (vpages.filter fun v => ¬present (getPtblEntryByVa s pid (vaddr v))).card :=
      Finset.card_pos.2 ⟨v, Finset.mem_filter.2 ⟨member, missing⟩⟩
    split
    · rename_i dir
      have table : 0 < ((vpages.image (· / 1024)).filter fun j => getPdirEntry s pid j = 0#32).card :=
        Finset.card_pos.2 ⟨v / 1024, Finset.mem_filter.2 ⟨Finset.mem_image_of_mem _ member, pde ▸ dir⟩⟩
      omega
    · omega

def Affords (s : VmState) (pid : Nat) (pages : Finset Nat) : Prop :=
  need s pid pages ≤ room s pid ∧ need s pid pages ≤ (stock s).card
deriving Decidable

theorem affords_empty (s : VmState) (pid : Nat) : Affords s pid ∅ := by
  simp [Affords, need]

theorem affords_insert_iff {pages : Finset Nat} (hv : v < 1048576)
    (entries : ∀ x ∈ pages, x ≠ v → getPtblEntryByVa s' pid (vaddr x) = getPtblEntryByVa s pid (vaddr x))
    (dirs : ∀ j, j ≠ v / 1024 → getPdirEntry s' pid j = getPdirEntry s pid j)
    (there : present (getPtblEntryByVa s' pid (vaddr v))) (room' : room s' pid + cost s pid (vaddr v) = room s pid)
    (stock' : (stock s').card + cost s pid (vaddr v) = (stock s).card) :
    Affords s pid (insert v pages) ↔ Affords s' pid pages := by
  have total := need_insert hv entries dirs there
  unfold Affords
  omega

section Write

variable {pages : Finset Nat} {m : Mem} (h : Isolated L s) (data : ∀ x, m x ≠ s.mem x → Writable L s x)
  (valid : ∀ v ∈ pages, (Use.page pid v).Valid)
include h data valid

theorem need_write : need { s with mem := m } pid pages = need s pid pages := by
  have same : (pages.filter fun v => ¬present (getPtblEntryByVa { s with mem := m } pid (vaddr v))) =
      pages.filter fun v => ¬present (getPtblEntryByVa s pid (vaddr v)) := by
    apply Finset.filter_congr
    intro v member
    rw [h.entry_write data (valid v member)]
  unfold need
  rw [same]
  rfl

theorem affords_write_iff : Affords { s with mem := m } pid pages ↔ Affords s pid pages := by
  unfold Affords
  rw [need_write h data valid]
  rfl

end Write

end Need

/-! ## The loop in a state with separate address spaces -/

def vpages (uva len : Word) : Finset Nat :=
  if len = 0#32 then ∅
  else Finset.Icc (uva.toNat / pageSize) ((uva.toNat + len.toNat - 1) / pageSize)

def KernelBuffer (L : Layout) (kva len : Word) : Prop :=
  kva.toNat + len.toNat ≤ vmUserlo ∧
    (kva.toNat + len.toNat ≤ L.idptbl.toNat ∨ L.idptbl.toNat + 1024 * pageSize ≤ kva.toNat)

section Loop

variable {L : Layout} {kind : CopyKind} {s : VmState} {pid : Nat} {uva kva len copied size : Word}

theorem vpages_step (nonzero : len ≠ 0#32) (fits : uva.toNat + len.toNat < 2 ^ 32)
    (hsize : size.toNat = min len.toNat (4096 - uva.toNat % 4096)) :
    vpages uva len = insert (uva.toNat / pageSize) (vpages (uva + size) (len - size)) ∧
      uva.toNat / pageSize ∉ vpages (uva + size) (len - size) := by
  have pos : len.toNat ≠ 0 := fun zero => nonzero (eq_of_toNat_eq zero)
  have next : (uva + size).toNat = uva.toNat + size.toNat := by
    rw [toNat_add]
    omega
  have left : (len - size).toNat = len.toNat - size.toNat := sub_toNat_of_le (by omega)
  rw [vpages, if_neg nonzero]
  by_cases last : len - size = 0#32
  · have whole : len.toNat - size.toNat = 0 := by rw [← left, last]; rfl
    rw [vpages, if_pos last]
    refine ⟨?_, Finset.notMem_empty _⟩
    ext v
    simp only [Finset.mem_Icc, Finset.mem_insert, Finset.notMem_empty, or_false, pageSize]
    omega
  · have more : len.toNat - size.toNat ≠ 0 := fun zero => last (eq_of_toNat_eq (by rw [left, zero]; rfl))
    rw [vpages, if_neg last, next, left]
    refine ⟨?_, ?_⟩
    · ext v
      simp only [Finset.mem_Icc, Finset.mem_insert, pageSize]
      omega
    · simp only [Finset.mem_Icc, pageSize]
      omega

theorem move_writable (hp : UserPid pid) (user : userVa uva)
    (mapped : present (getPtblEntryByVa (touchAt s pid uva len).vm pid uva))
    (buffer : kind = .copyin → KernelBuffer L kva len) (x : Word)
    (changed : kind.move (touchAt s pid uva len).vm.mem (touchAt s pid uva len).pa kva
      (touchAt s pid uva len).size x ≠ (touchAt s pid uva len).vm.mem x) :
    Writable L (touchAt s pid uva len).vm x := by
  have own (access : (touchAt s pid uva len).Accesses x) : Writable L (touchAt s pid uva len).vm x := by
    refine .inl ⟨pid, uva.toNat / pageSize, ?_⟩
    rw [touch_accesses s pid uva len access]
    exact frameOf_va hp user mapped
  cases kind with
  | copyin =>
    have inside : x - kva < (touchAt s pid uva len).size := by
      by_contra outside
      exact changed (memmove_outside outside)
    have size := touch_size_le s pid uva len
    obtain ⟨low, apart⟩ := buffer rfl
    rw [BitVec.lt_def, BitVec.toNat_sub] at inside
    simp only [vmUserlo, pageSize] at low apart
    refine .inr ⟨.inl ?_, ?_⟩
    · simp only [vmUserlo]
      omega
    · simp only [pageSize]
      omega
  | copyout =>
    refine own ?_
    by_contra outside
    exact changed (memmove_outside outside)
  | memset c =>
    refine own ?_
    by_contra outside
    exact changed (memset_outside outside)

theorem getPtblEntryByVa_page (s : VmState) (pid : Nat) (va : Word) :
    getPtblEntryByVa s pid (vaddr (va.toNat / pageSize)) = getPtblEntryByVa s pid va := by
  have lt : va.toNat / pageSize < 1048576 := by
    simp only [pageSize]
    omega
  rw [vaddr, getPtblEntryByVa_vpage s pid lt, ← pdeIndexOf_eq, ← pteIndexOf_eq]
  rfl

theorem cost_page (s : VmState) (pid : Nat) (va : Word) :
    cost s pid (vaddr (va.toNat / pageSize)) = cost s pid va := by
  have lt : va.toNat / pageSize < 1048576 := by
    simp only [pageSize]
    omega
  rw [cost, cost, getPtblEntryByVa_page, pde_vaddr lt, ← pdeIndexOf_eq]
  rfl

theorem pdir_touch {j : Nat} (ne : j ≠ uva.toNat / pageSize / 1024) :
    getPdirEntry (touchAt s pid uva len).vm pid j = getPdirEntry s pid j := by
  change (touchAt s pid uva len).vm.pdirPool pid j = s.pdirPool pid j
  rw [touch_vm]
  split
  · rfl
  · exact pdir_allocPage fun same => ne (pdeIndexOf_eq uva ▸ same.2)

section Moved

variable (h : Isolated L s) (hp : UserPid pid) (user : userVa uva)
variable (mapped : present (getPtblEntryByVa (touchAt s pid uva len).vm pid uva))
variable (buffer : kind = .copyin → KernelBuffer L kva len)
include h hp user

theorem touch_isolated : Isolated L (touchAt s pid uva len).vm := by
  rw [touch_vm]
  split
  · exact h
  · exact isolated_allocPage h hp user (by decide)

theorem touch_entry {q x : Nat} (valid : (Use.page q x).Valid) (ne : Use.page q x ≠ .page pid (uva.toNat / pageSize)) :
    getPtblEntryByVa (touchAt s pid uva len).vm q (vaddr x) = getPtblEntryByVa s q (vaddr x) := by
  rw [touch_vm]
  split
  · rfl
  · exact h.entry_allocPage hp user valid ne

variable {pages : Finset Nat} (valid : ∀ v ∈ pages, (Use.page pid v).Valid)

include valid in
theorem affords_touch_iff (len : Word) : Affords s pid (insert (uva.toNat / pageSize) pages) ↔
    Supplied s pid uva ∧ Affords (touchAt s pid uva len).vm pid pages := by
  have lt := vpage_lt (page_valid hp user)
  rcases touch_supply s pid uva len with ⟨short, -⟩ | ⟨mapped, room', stock'⟩
  · have part : cost s pid uva ≤ need s pid (insert (uva.toNat / pageSize) pages) := by
      rw [← cost_page]
      exact cost_le_need (Finset.mem_insert_self ..) lt
    refine iff_of_false (fun enough => short ?_) fun both => short both.1
    exact ⟨part.trans enough.1, part.trans enough.2⟩
  · have supplied := (touch_present_iff s pid uva len).1 mapped
    rw [← cost_page] at room' stock'
    rw [← getPtblEntryByVa_page] at mapped
    simp only [supplied, true_and]
    refine affords_insert_iff lt (fun x member ne => ?_) (fun j ne => pdir_touch ne) mapped room' stock'
    exact touch_entry h hp user (valid x member) fun same => ne (Use.page.inj same).2

include valid in
theorem Affords.allocPage (affords : Affords s pid pages) (member : uva.toNat / pageSize ∈ pages)
    (missing : ¬present (getPtblEntryByVa s pid uva)) (bit : perm % 2 = 1) :
    (∃ f, getPtblEntryByVa (allocPage s pid uva perm).1 pid uva = ofNat 32 (f * pageSize + perm)) ∧
      Affords (allocPage s pid uva perm).1 pid pages := by
  have lt := vpage_lt (page_valid hp user)
  rcases allocPage_supply perm missing with ⟨short, -⟩ | ⟨⟨f, entry⟩, room', stock'⟩
  · have part : cost s pid uva ≤ need s pid pages := by
      rw [← cost_page]
      exact cost_le_need member lt
    exact absurd ⟨part.trans affords.1, part.trans affords.2⟩ short
  · refine ⟨⟨f, entry⟩, ?_⟩
    have there : present (getPtblEntryByVa (Certikos.allocPage s pid uva perm).1 pid uva) := entry ▸ present_mk f bit
    rw [← cost_page] at room' stock'
    rw [← getPtblEntryByVa_page] at there
    rw [← Finset.insert_eq_of_mem member] at affords
    refine (affords_insert_iff lt (fun x member ne => ?_) (fun j ne => ?_) there room' stock').1 affords
    · exact h.entry_allocPage hp user (valid x member) fun same => ne (Use.page.inj same).2
    · exact pdir_allocPage fun same => ne (pdeIndexOf_eq uva ▸ same.2)

include mapped buffer

theorem moved_isolated : Isolated L ((touchAt s pid uva len).moved kind kva) :=
  (touch_isolated h hp user).write (move_writable hp user mapped buffer)

end Moved

theorem affords_moved_iff (h : Isolated L s) (hp : UserPid pid) (user : userVa uva)
    (buffer : kind = .copyin → KernelBuffer L kva len) {pages : Finset Nat}
    (valid : ∀ v ∈ pages, (Use.page pid v).Valid) : Affords s pid (insert (uva.toNat / pageSize) pages) ↔
      Supplied s pid uva ∧ Affords ((touchAt s pid uva len).moved kind kva) pid pages := by
  rw [affords_touch_iff h hp user valid len]
  refine and_congr_right fun supplied => ?_
  have mapped := (touch_present_iff s pid uva len).2 supplied
  exact (affords_write_iff (touch_isolated h hp user) (move_writable hp user mapped buffer) valid).symm

theorem vpages_valid (hp : UserPid pid) (lo : vmUserlo ≤ uva.toNat) (hi : uva.toNat + len.toNat ≤ vmUserhi) :
    ∀ v ∈ vpages uva len, (Use.page pid v).Valid := by
  intro v member
  rw [vpages] at member
  split at member
  · exact absurd member (Finset.notMem_empty v)
  · rename_i nonzero
    rw [Finset.mem_Icc] at member
    simp only [pageSize, vmUserlo, vmUserhi] at *
    refine ⟨hp, ?_, ?_⟩
    · simp only [vmUserloPi, vmUserlo, pageSize]
      omega
    · simp only [vmUserhiPi, vmUserhi, pageSize]
      omega

theorem KernelBuffer.drop (buffer : KernelBuffer L kva len) (le : size.toNat ≤ len.toNat) :
    KernelBuffer L (kva + size) (len - size) := by
  obtain ⟨low, apart⟩ := buffer
  have left := sub_toNat_of_le le
  have shift : (kva + size).toNat = kva.toNat + size.toNat := by
    rw [toNat_add]
    simp only [vmUserlo] at low
    omega
  exact ⟨by omega, by omega⟩

structure UserRange (uva len : Word) : Prop where
  lo : vmUserlo ≤ uva.toNat
  hi : uva.toNat + len.toNat ≤ vmUserhi

theorem UserRange.first (range : UserRange uva len) (nonzero : len ≠ 0#32) : userVa uva := by
  have positive : len.toNat ≠ 0 := fun e => nonzero (eq_of_toNat_eq e)
  have hi := range.hi
  exact ⟨range.lo, by omega⟩

theorem UserRange.drop (range : UserRange uva len) (le : size.toNat ≤ len.toNat) :
    UserRange (uva + size) (len - size) := by
  obtain ⟨lo, hi⟩ := range
  have left := sub_toNat_of_le le
  have next : (uva + size).toNat = uva.toNat + size.toNat := by
    simp only [vmUserhi] at hi
    rw [toNat_add]
    omega
  exact ⟨by omega, by omega⟩

theorem copyLoop_affords_iff (h : Isolated L s) (hp : UserPid pid) (lo : vmUserlo ≤ uva.toNat)
    (hi : uva.toNat + len.toNat ≤ vmUserhi) (buffer : kind = .copyin → KernelBuffer L kva len) {pages : Finset Nat}
    (valid : ∀ v ∈ pages, (Use.page pid v).Valid) (fuel : Nat) (enough : len.toNat ≤ fuel) :
    Affords s pid (vpages uva len ∪ pages) ↔ AllSupplied (copyLoop kind pid fuel s uva kva len copied) pid ∧
        Affords (copyLoop kind pid fuel s uva kva len copied).vm pid pages := by
  refine copyLoop_induct (P := fun s uva kva len _ r => Isolated L s → UserRange uva len →
    (kind = .copyin → KernelBuffer L kva len) →
    (Affords s pid (vpages uva len ∪ pages) ↔ AllSupplied r pid ∧ Affords r.vm pid pages)) ?_ ?_ enough h ⟨lo, hi⟩ buffer
  · intro s uva kva copied _ _ _
    simp [AllSupplied, vpages]
  · rintro s uva kva len copied rest t rfl nonzero pos le ih h range buffer
    have user := range.first nonzero
    have next := range.drop le
    have valid' : ∀ v ∈ vpages (uva + (touchAt s pid uva len).size) (len - (touchAt s pid uva len).size) ∪ pages,
        (Use.page pid v).Valid := by
      intro v member
      rcases Finset.mem_union.1 member with here | later
      · exact vpages_valid hp next.lo next.hi v here
      · exact valid v later
    have fits : uva.toNat + len.toNat < 2 ^ 32 := lt_of_le_of_lt range.hi (by decide)
    rw [(vpages_step nonzero fits (toNat_touch_size s pid uva len)).1, Finset.insert_union,
      affords_moved_iff h hp user buffer valid']
    simp only [AllSupplied, List.forall_mem_cons, and_assoc]
    refine and_congr_right fun supplied => ?_
    have mapped := (touch_present_iff s pid uva len).2 supplied
    exact ih (moved_isolated h hp user mapped buffer) next fun e => (buffer e).drop le

end Loop

/-! ## The three functions -/

inductive UserCopy
  | copyin (kva : Word)
  | copyout (kva : Word)
  | memset (c : Byte)

def UserCopy.exec (s : VmState) (pid : Nat) (uva len : Word) : UserCopy → Copied
  | .copyin kva => ptCopyin s pid uva kva len
  | .copyout kva => ptCopyout s kva pid uva len
  | .memset c => ptMemset s pid uva c len

def UserCopy.Buffer (L : Layout) (len : Word) : UserCopy → Prop
  | .copyin kva => KernelBuffer L kva len
  | .copyout kva => KernelBuffer L kva len
  | .memset _ => True

theorem copyChecks_of_low {uva kva len : Word} (lo : vmUserlo ≤ uva.toNat) (hi : uva.toNat + len.toNat ≤ vmUserhi)
    (low : kva.toNat + len.toNat ≤ vmUserlo) : copyChecks uva kva len = true := by
  rw [copyChecks_iff, toNat_add, toNat_add]
  simp only [vmUserlo, vmUserhi] at *
  omega

theorem exec_touches (s : VmState) (pid : Nat) (uva len : Word) (copy : UserCopy) :
    ∀ t ∈ (copy.exec s pid uva len).touched, ∃ l, t = touchAt t.before pid t.uva l := by
  intro t touched
  cases copy with
  | copyin kva =>
    rw [UserCopy.exec, ptCopyin] at touched
    split at touched
    · exact copyLoop_touched touched
    · cases touched
  | copyout kva =>
    rw [UserCopy.exec, ptCopyout] at touched
    split at touched
    · exact copyLoop_touched touched
    · cases touched
  | memset c => exact copyLoop_touched touched

section

variable {L : Layout} {s : VmState} {pid : Nat} {uva len : Word} (copy : UserCopy) (h : Isolated L s) (hp : UserPid pid)
  (lo : vmUserlo ≤ uva.toNat) (hi : uva.toNat + len.toNat ≤ vmUserhi) (buffer : copy.Buffer L len)
include h hp lo hi buffer

theorem exec_affords_iff {pages : Finset Nat} (valid : ∀ v ∈ pages, (Use.page pid v).Valid) : Affords s pid
    (vpages uva len ∪ pages) ↔
      AllSupplied (copy.exec s pid uva len) pid ∧ Affords (copy.exec s pid uva len).vm pid pages := by
  cases copy with
  | copyin kva =>
    rw [UserCopy.exec, ptCopyin, if_pos (copyChecks_of_low lo hi buffer.1)]
    exact copyLoop_affords_iff h hp lo hi (fun _ => buffer) valid _ le_rfl
  | copyout kva =>
    rw [UserCopy.exec, ptCopyout, if_pos (copyChecks_of_low lo hi buffer.1)]
    exact copyLoop_affords_iff h hp lo hi (by simp) valid _ le_rfl
  | memset c =>
    rw [UserCopy.exec, ptMemset]
    exact copyLoop_affords_iff h hp lo hi (by simp) valid _ le_rfl

theorem exec_supplied_iff :
    AllSupplied (copy.exec s pid uva len) pid ↔ Affords s pid (vpages uva len) := by
  have whole := exec_affords_iff copy h hp lo hi buffer fun v member => absurd member (Finset.notMem_empty v)
  rw [Finset.union_empty, and_iff_left (affords_empty _ pid)] at whole
  exact whole.symm

end

/-- A user copy keeps to the pages of the process, and stops when it cannot have one, exactly when it
never misses one. With separate address spaces and a kernel buffer that is when the pages and tables
missing in the range fit into the quota and into the allocator's stock. -/
theorem userCopy_ownFrames_iff (s : VmState) (pid : Nat) (uva len : Word) (copy : UserCopy) :
    (OwnFrames (copy.exec s pid uva len) pid len ↔ AllSupplied (copy.exec s pid uva len) pid) ∧
      ∀ L, Isolated L s → 1 ≤ pid ∧ pid < numIds → vmUserlo ≤ uva.toNat →
        uva.toNat + len.toNat ≤ vmUserhi → copy.Buffer L len →
        (OwnFrames (copy.exec s pid uva len) pid len ↔
          need s pid (vpages uva len) ≤ room s pid ∧ need s pid (vpages uva len) ≤ (stock s).card) := by
  have own : OwnFrames (copy.exec s pid uva len) pid len ↔ AllSupplied (copy.exec s pid uva len) pid :=
    ownFrames_iff_of_touches (exec_touches s pid uva len copy)
  exact ⟨own, fun L h hp lo hi buffer => own.trans (exec_supplied_iff copy h hp lo hi buffer)⟩

theorem userCopy_ownFrames_iff_memset :
    OwnFrames ((UserCopy.memset 0).exec (pdirInitKern sampleLayout sampleMap blankVm) 1 0x40000000 8192) 1 8192 ↔
      need (pdirInitKern sampleLayout sampleMap blankVm) 1 (vpages 0x40000000 8192) ≤
          room (pdirInitKern sampleLayout sampleMap blankVm) 1 ∧
        need (pdirInitKern sampleLayout sampleMap blankVm) 1 (vpages 0x40000000 8192) ≤
          (stock (pdirInitKern sampleLayout sampleMap blankVm)).card :=
  (userCopy_ownFrames_iff (pdirInitKern sampleLayout sampleMap blankVm) 1 0x40000000 8192 (.memset 0)).2
    sampleLayout (pdirInitKern_isolated ..) (by decide) (by decide) (by decide) trivial

theorem ptCopyout_pageZero :
    let vm : VmState := { blankVm with container := fun _ => ⟨100, 100, 0, 0, 1⟩ }
    (ptCopyout vm 0x200000 1 0x40000000 4).copied = 4 ∧
      (ptCopyout vm 0x200000 1 0x40000000 4).touched.map (fun t => (t.pa, t.size)) = [(0, 4)] ∧
      ¬OwnFrames (ptCopyout vm 0x200000 1 0x40000000 4) 1 4 := by
  refine ⟨by decide, by decide, fun own => ?_⟩
  have mapped := (own.1 _ List.mem_cons_self).1
  revert mapped
  decide

end Certikos
