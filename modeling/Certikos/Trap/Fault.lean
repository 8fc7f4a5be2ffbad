import Certikos.Memory.FlatMap
import Certikos.Memory.OwnFrames
import Certikos.Trap.Signals

/-!
# Page faults

`pgflt_handler` turns a forbidden access into a signal, and gives a page that is merely missing to the process.
-/

namespace Certikos
open Lib

section

variable {s : VmState} {pid : Nat} {va : Word}

/-! ## Allocation on demand -/

def ServedFresh (s s' : VmState) (pid : Nat) (va : Word) : Prop :=
  ∃ f, Available s f ∧ getPtblEntryByVa s' pid va = BitVec.ofNat 32 (f * pageSize + (pteW + pteU + pteP))

theorem mapPage_entry (s : VmState) (pid : Nat) (va : Word) (page perm : Nat) :
    ((mapPage s pid va page perm).2 = magicNumber ∧
      getPtblEntryByVa (mapPage s pid va page perm).1 pid va = getPtblEntryByVa s pid va) ∨
    ((mapPage s pid va page perm).2 ≠ magicNumber ∧
      getPtblEntryByVa (mapPage s pid va page perm).1 pid va = BitVec.ofNat 32 (page * pageSize + perm)) := by
  rcases mapPage_cases s pid va page perm with ⟨dir, mapped⟩ | ⟨-, ⟨-, mapped⟩ | ⟨-, mapped⟩⟩
  · rw [mapped]
    exact .inr ⟨show 0 ≠ magicNumber by decide, getPtblEntryByVa_set dir⟩
  · rw [mapped]
    exact .inl ⟨rfl, entryByVa_alloc ..⟩
  · have magic := containerAlloc_ne_magic s pid
    rw [mapped]
    revert magic
    generalize containerAlloc s pid = r
    intro magic
    exact .inr ⟨magic, getPtblEntryByVa_set pdir_installTable_self⟩

theorem allocPage_entry (missing : ¬present (getPtblEntryByVa s pid va)) :
    ((allocPage s pid va (pteW + pteU + pteP)).2 = magicNumber ∧
      ¬present (getPtblEntryByVa (allocPage s pid va (pteW + pteU + pteP)).1 pid va)) ∨
    ((allocPage s pid va (pteW + pteU + pteP)).2 ≠ magicNumber ∧
      ServedFresh s (allocPage s pid va (pteW + pteU + pteP)).1 pid va) := by
  have absent : ¬present (getPtblEntryByVa (containerAlloc s pid).1 pid va) := by
    rw [entryByVa_alloc]
    exact missing
  by_cases failed : (containerAlloc s pid).2 = 0
  · have result : allocPage s pid va (pteW + pteU + pteP) = ((containerAlloc s pid).1, magicNumber) := by
      simp [allocPage, failed]
    rw [result]
    exact .inl ⟨rfl, absent⟩
  · have result : allocPage s pid va (pteW + pteU + pteP) =
        mapPage (containerAlloc s pid).1 pid va (containerAlloc s pid).2 (pteW + pteU + pteP) := by
      simp [allocPage, failed]
    rw [result]
    rcases mapPage_entry (containerAlloc s pid).1 pid va (containerAlloc s pid).2 (pteW + pteU + pteP) with
      ⟨magic, entry⟩ | ⟨done, entry⟩
    · exact .inl ⟨magic, entry ▸ absent⟩
    · exact .inr ⟨done, _, available_alloc failed, entry⟩

theorem allocPage_served (missing : ¬present (getPtblEntryByVa s pid va)) :
    ((allocPage s pid va (pteW + pteU + pteP)).2 = magicNumber ∧ ¬Supplied s pid va) ∨
    ((allocPage s pid va (pteW + pteU + pteP)).2 ≠ magicNumber ∧ Supplied s pid va ∧
      ServedFresh s (allocPage s pid va (pteW + pteU + pteP)).1 pid va) := by
  rcases allocPage_entry missing with ⟨magic, absent⟩ | ⟨done, served⟩
  · rcases allocPage_supply (pteW + pteU + pteP) missing with ⟨short, -⟩ | ⟨⟨f, entry⟩, -⟩
    · exact .inl ⟨magic, short⟩
    · exact absurd (entry ▸ present_mk f (by decide)) absent
  · rcases allocPage_supply (pteW + pteU + pteP) missing with ⟨-, absent⟩ | ⟨-, room, stock⟩
    · obtain ⟨f, -, entry⟩ := served
      exact absurd (entry ▸ present_mk f (by decide)) absent
    · exact .inr ⟨done, ⟨by omega, by omega⟩, served⟩

end

/-! ## The handler -/

def FaultReport (s : VmState) (pid : Nat) (faultVa err : Word) : Prop :=
  err &&& pfePr = 0#32 → ¬present (getPtblEntryByVa s pid faultVa)

def Answers (k : KState) (tf : TrapFrame) (faultVa : Word) : Prop :=
  ∃ k', pgfltHandler k tf faultVa = .ok k' ∧
    (k'.thread = k.thread ∧ ServedFresh k.vm k'.vm (getCurid k.thread) faultVa ∨
      k' = { k with thread := tcbAddPendingSignal k.thread (getCurid k.thread) sigsegv })

section

variable {k k' : KState} {tf : TrapFrame} {faultVa : Word}

theorem pgfltHandler_forbidden (user : 1 ≤ getCurid k.thread)
    (forbidden : tf.err &&& pfePr ≠ 0#32 ∨ faultVa.toNat < vmUserlo) :
    pgfltHandler k tf faultVa = .ok { k with thread := tcbAddPendingSignal k.thread (getCurid k.thread) sigsegv } :=
  if_pos ⟨user, forbidden⟩

theorem pgfltHandler_missing (clear : tf.err &&& pfePr = 0#32) (high : vmUserlo ≤ faultVa.toNat) :
    pgfltHandler k tf faultVa =
      if (allocPage k.vm (getCurid k.thread) faultVa (pteW + pteU + pteP)).2 = magicNumber then
        .error (.panic "Page allocation failed: va = 0x%08x, errno = 0x%08x.\n"
          { k with vm := (allocPage k.vm (getCurid k.thread) faultVa (pteW + pteU + pteP)).1 })
      else .ok { k with vm := (allocPage k.vm (getCurid k.thread) faultVa (pteW + pteU + pteP)).1 } := by
  have allowed : ¬(getCurid k.thread > 0 ∧ (tf.err &&& pfePr ≠ 0#32 ∨ faultVa.toNat < vmUserlo)) := by
    rintro ⟨-, denied | low⟩
    · exact denied clear
    · omega
  unfold pgfltHandler
  rw [if_neg allowed, if_neg (not_not.2 clear)]

/-- The handler answers a fault of a process unless the page is missing from the user part of its address space
and its quota, or the free frames above the allocator's cursor, do not give the page and the table it takes. -/
theorem pgfltHandler_answers_iff (user : 1 ≤ getCurid k.thread)
    (report : FaultReport k.vm (getCurid k.thread) faultVa tf.err) :
    Answers k tf faultVa ↔ tf.err &&& pfePr ≠ 0#32 ∨ faultVa.toNat < vmUserlo ∨
      Supplied k.vm (getCurid k.thread) faultVa := by
  by_cases forbidden : tf.err &&& pfePr ≠ 0#32 ∨ faultVa.toNat < vmUserlo
  · refine iff_of_true ⟨_, pgfltHandler_forbidden user forbidden, .inr rfl⟩ ?_
    exact forbidden.imp id .inl
  · rw [not_or, not_not, Nat.not_lt] at forbidden
    obtain ⟨clear, high⟩ := forbidden
    have condition : (tf.err &&& pfePr ≠ 0#32 ∨ faultVa.toNat < vmUserlo ∨ Supplied k.vm (getCurid k.thread) faultVa) ↔
        Supplied k.vm (getCurid k.thread) faultVa := by
      rw [or_iff_right (not_not.2 clear), or_iff_right (Nat.not_lt.2 high)]
    rw [condition, Answers, pgfltHandler_missing clear high]
    rcases allocPage_served (report clear) with ⟨magic, short⟩ | ⟨done, supplied, served⟩
    · rw [if_pos magic]
      refine iff_of_false ?_ short
      rintro ⟨k', returned, -⟩
      cases returned
    · rw [if_neg done]
      exact iff_of_true ⟨_, rfl, .inl ⟨rfl, served⟩⟩ supplied

end

theorem pgfltHandler_answers_iff_small :
    let k : KState := ⟨setCurid idleThreads 1,
      { blankVm with numPages := 3, numPages_le := by decide, allocTable := fun _ => ⟨2, 0⟩, lastPallocIndex := 0 }⟩
    Answers k (syscallFrame .produce 0 0 0) 0x40000000#32 := by
  intro k
  have missing : ¬present (getPtblEntryByVa k.vm 1 0x40000000#32) := by decide
  have supplied : Supplied k.vm 1 0x40000000#32 := by decide
  have user : 1 ≤ getCurid k.thread := by decide
  exact (pgfltHandler_answers_iff user fun _ => missing).2 (.inr (.inr supplied))

/-! ## Running out of frames -/

def touchPage (tf : TrapFrame) (k : KState) (vpage : Nat) : Except (Halt KState) KState :=
  if present (getPtblEntryByVa k.vm (getCurid k.thread) (vaddr vpage)) then .ok k else pgfltHandler k tf (vaddr vpage)

def userPages : Finset Nat := Finset.Ico vmUserloPi vmUserhiPi

theorem userVa_vaddr {vpage : Nat} (member : vpage ∈ userPages) : userVa (vaddr vpage) := by
  rw [userPages, Finset.mem_Ico] at member
  rw [userVa, vaddr, BitVec.toNat_ofNat]
  simp only [vmUserloPi, vmUserhiPi, vmUserlo, vmUserhi, pageSize] at *
  omega

theorem vpage_vaddr {vpage : Nat} (member : vpage ∈ userPages) : (vaddr vpage).toNat / pageSize = vpage := by
  rw [userPages, Finset.mem_Ico] at member
  rw [vaddr, BitVec.toNat_ofNat]
  simp only [vmUserhiPi, vmUserhi, pageSize] at *
  omega

theorem valid_of_userPages {vpage pid : Nat} (hp : UserPid pid) (member : vpage ∈ userPages) :
    (Use.page pid vpage).Valid :=
  ⟨hp, Finset.mem_Ico.1 member⟩

section

variable {L : Layout} {k k' : KState} {tf : TrapFrame} {vpage : Nat}

structure Mapped (L : Layout) (pid : Nat) (pages : List Nat) (k : KState) : Prop where
  isolated : Isolated L k.vm
  current : getCurid k.thread = pid
  mapped : ∀ v ∈ pages, v ∈ userPages → present (getPtblEntryByVa k.vm pid (vaddr v))

theorem touchPage_mapped {pid : Nat} {pages : List Nat} (hp : UserPid pid)
    (clear : tf.err &&& pfePr = 0#32) (before : Mapped L pid pages k) (member : vpage ∈ userPages)
    (touched : touchPage tf k vpage = .ok k') : Mapped L pid (vpage :: pages) k' := by
  obtain ⟨isolated, rfl, mapped⟩ := before
  have user := userVa_vaddr member
  unfold touchPage at touched
  split at touched
  · rename_i there
    cases touched
    refine ⟨isolated, rfl, fun v among inside => ?_⟩
    rcases List.mem_cons.1 among with rfl | earlier
    · exact there
    · exact mapped v earlier inside
  · rename_i missing
    rw [pgfltHandler_missing clear user.1] at touched
    rcases allocPage_served missing with ⟨magic, -⟩ | ⟨done, -, f, -, entry⟩
    · rw [if_pos magic] at touched
      cases touched
    · rw [if_neg done] at touched
      cases touched
      refine ⟨isolated_allocPage isolated hp user (by decide), rfl, fun v among inside => ?_⟩
      by_cases same : v = vpage
      · subst same
        exact entry ▸ present_mk f (by decide)
      · have other : v ≠ (vaddr vpage).toNat / pageSize := by
          rw [vpage_vaddr member]
          exact same
        rw [isolated.entry_allocPage hp user (valid_of_userPages hp inside) fun same => other (Use.page.inj same).2]
        exact mapped v ((List.mem_cons.1 among).resolve_left same) inside

theorem run_touchPage_mapped {pid : Nat} {done pages : List Nat} (hp : UserPid pid)
    (clear : tf.err &&& pfePr = 0#32) (before : Mapped L pid done k) (inside : ∀ v ∈ pages, v ∈ userPages)
    (touched : run (touchPage tf) k pages = .ok k') : Mapped L pid (pages ++ done) k' := by
  induction pages generalizing k done with
  | nil =>
    cases touched
    exact before
  | cons v pages ih =>
    obtain ⟨k₁, first, rest⟩ := run_cons touched
    have after := ih (touchPage_mapped hp clear before (inside v List.mem_cons_self) first)
      (fun v among => inside v (.tail _ among)) rest
    refine ⟨after.isolated, after.current, fun v among => after.mapped v ?_⟩
    simp only [List.cons_append, List.mem_cons, List.mem_append] at among ⊢
    tauto

theorem Isolated.exists_missing {s : VmState} {pid : Nat} (isolated : Isolated L s) (hp : UserPid pid) :
    ∃ v ∈ userPages, ¬present (getPtblEntryByVa s pid (vaddr v)) := by
  by_contra none
  have all (v : Nat) (member : v ∈ userPages) : present (getPtblEntryByVa s pid (vaddr v)) := by
    by_contra missing
    exact none ⟨v, member, missing⟩
  have page (v : Nat) (member : v ∈ userPages) : ∃ f, frameOf s (.page pid v) = some f := by
    have frame := frameOf_va hp (userVa_vaddr member) (all v member)
    rw [vpage_vaddr member] at frame
    exact ⟨_, frame⟩
  have table : ∃ f, frameOf s (.table pid 256) = some f := by
    have first : vmUserloPi ∈ userPages := Finset.mem_Ico.2 ⟨le_rfl, by decide⟩
    have valid := valid_of_userPages hp first
    obtain ⟨f, frame⟩ := page vmUserloPi first
    exact ⟨_, (frameOf_table (table_valid valid)).2 ⟨((frameOf_page valid).1 frame).1, rfl⟩⟩
  let uses : Finset Use := insert (.table pid 256) (userPages.image (Use.page pid))
  have used (u : Use) (member : u ∈ uses) : ∃ f, frameOf s u = some f := by
    rcases Finset.mem_insert.1 member with rfl | member
    · exact table
    · obtain ⟨v, inside, rfl⟩ := Finset.mem_image.1 member
      exact page v inside
  have size : userPages.card < uses.card := by
    rw [Finset.card_insert_of_notMem (by simp), Finset.card_image_of_injective _ fun _ _ same => (Use.page.inj same).2]
    omega
  obtain ⟨u, hu, w, hw, ne, same⟩ := Finset.exists_ne_map_eq_of_card_lt_of_maps_to (t := userPages) size
    (f := fun u => (frameOf s u).getD 0) fun u member => by
      obtain ⟨f, frame⟩ := used u member
      have range := isolated.frame_range frame
      simpa [userPages, frame] using range
  obtain ⟨f, first⟩ := used u hu
  obtain ⟨g, second⟩ := used w hw
  simp only [first, second, Option.getD_some] at same
  exact ne (isolated.injective first (same ▸ second))

theorem touchPages_unanswered (hp : 1 ≤ getCurid k.thread ∧ getCurid k.thread < numIds) (isolated : Isolated L k.vm)
    (clear : tf.err &&& pfePr = 0#32) :
    ∃ before vpage k', run (touchPage tf) k before = .ok k' ∧ getCurid k'.thread = getCurid k.thread ∧
      Isolated L k'.vm ∧ FaultReport k'.vm (getCurid k'.thread) (vaddr vpage) tf.err ∧ ¬Answers k' tf (vaddr vpage) := by
  have start : Mapped L (getCurid k.thread) [] k := ⟨isolated, rfl, nofun⟩
  obtain ⟨pages, same⟩ : ∃ pages : List Nat, ∀ v, v ∈ pages ↔ v ∈ userPages :=
    ⟨userPages.toList, fun v => Finset.mem_toList⟩
  cases touched : run (touchPage tf) k pages with
  | ok k' =>
    obtain ⟨isolated', -, mapped⟩ := run_touchPage_mapped hp clear start (fun v => (same v).1) touched
    obtain ⟨v, member, missing⟩ := isolated'.exists_missing hp
    exact absurd (mapped v (List.mem_append_left _ ((same v).2 member)) member) missing
  | error halt =>
    obtain ⟨before, v, after, k', split, reached, stops⟩ := run_error touched
    have inside (w : Nat) (among : w ∈ before ++ v :: after) : w ∈ userPages := by
      rw [← split] at among
      exact (same w).1 among
    obtain ⟨isolated', current, -⟩ := run_touchPage_mapped hp clear start
      (fun w among => inside w (List.mem_append_left _ among)) reached
    unfold touchPage at stops
    split at stops
    · cases stops
    · rename_i missing
      refine ⟨before, v, k', reached, current, isolated', fun _ => missing, ?_⟩
      rintro ⟨k'', returned, -⟩
      rw [returned] at stops
      cases stops

end

theorem quota_runs_out :
    let k : KState := ⟨setCurid idleThreads 1,
      [MapOp.allocMemQuota 0 1000#32].foldl MapOp.exec (pdirInitKern sampleLayout sampleMap blankVm)⟩
    let tf := syscallFrame .produce 0 0 0
    ∃ before vpage k', run (touchPage tf) k before = .ok k' ∧ getCurid k'.thread = 1 ∧
      FaultReport k'.vm 1 (vaddr vpage) tf.err ∧ ¬Answers k' tf (vaddr vpage) := by
  intro k tf
  have isolated : Isolated sampleLayout k.vm :=
    foldl_isolated (pdirInitKern_isolated sampleLayout sampleMap blankVm) (by simp [MapOp.Allowed])
  have current : getCurid k.thread = 1 := rfl
  have clear : tf.err &&& pfePr = 0#32 := by decide
  obtain ⟨before, vpage, k', reached, same, -, report, unanswered⟩ :=
    touchPages_unanswered (by rw [current]; decide) isolated clear
  rw [same, current] at report
  exact ⟨before, vpage, k', reached, same.trans current, report, unanswered⟩

end Certikos
