import Certikos.Fs.Log
import Mathlib.Logic.Relation

/-!
# Transactions are atomic under crashes

A transaction is `begin_trans`, any calls on buffers, and `commit_trans`. The calls of one process
are followed; whatever they do, the drive recovers to its contents before the transaction until
`commit_trans` has written the header, and to its contents after it from then on.
-/

namespace Certikos.Fs
open Lib Function

variable {a : LogArea} {s t : State} {q : Word} {i : Fin nbuf} {before after X : Disk}

/-! ## Logging a block -/

def LogHeader.push (lh : LogHeader) (q : Word) : LogHeader where
  n := if (logSlot lh q : Int) = lh.n then lh.n + 1 else lh.n
  sector := update lh.sector (logSlot lh q) q

theorem findIdx_congr {α : Type*} {p r : α → Bool} {xs : List α} (same : ∀ x ∈ xs, p x = r x) :
    xs.findIdx p = xs.findIdx r := by
  induction xs with
  | nil => rfl
  | cons x xs ih =>
    rw [List.findIdx_cons, List.findIdx_cons, same x List.mem_cons_self,
      ih fun y member => same y (List.mem_cons_of_mem x member)]

variable {lh : LogHeader} {d : Disk}

theorem logSlot_eq_idxOf (low : ∀ k, k < lh.n.toNat → (lh.sector k).toNat < 2 ^ 28)
    (lowQ : q.toNat < 2 ^ 28) : logSlot lh q = lh.addrs.idxOf (ideAddr rootdev q) := by
  rw [LogHeader.addrs, List.idxOf, List.findIdx_map, logSlot]
  refine findIdx_congr ?_
  intro k member
  have lowK := low k (List.mem_range.mp member)
  simp only [Function.comp, ideAddr_low lowK, ideAddr_low lowQ, beq_eq_decide, Addr.mk.injEq, true_and]

theorem push_addrs_of_mem (slot : logSlot lh q = lh.addrs.idxOf (ideAddr rootdev q))
    (member : ideAddr rootdev q ∈ lh.addrs) : (lh.push q).addrs = lh.addrs ∧ (lh.push q).n = lh.n := by
  have lt := List.idxOf_lt_length_of_mem member
  have here : lh.addrs[lh.addrs.idxOf (ideAddr rootdev q)] = ideAddr rootdev q := List.getElem_idxOf lt
  rw [← slot] at lt
  simp only [← slot] at here
  have bound := lt
  rw [LogHeader.length_addrs] at bound
  have same : (lh.push q).n = lh.n := if_neg (by omega)
  refine ⟨?_, same⟩
  rw [LogHeader.addrs, same]
  refine List.map_congr_left ?_
  intro k _
  by_cases atSlot : k = logSlot lh q
  · subst atSlot
    simpa [LogHeader.push, LogHeader.addrs] using here.symm
  · simp [LogHeader.push, atSlot]

theorem push_addrs_of_notMem (count : 0 ≤ lh.n)
    (slot : logSlot lh q = lh.addrs.idxOf (ideAddr rootdev q)) (fresh : ideAddr rootdev q ∉ lh.addrs) :
    (lh.push q).addrs = lh.addrs ++ [ideAddr rootdev q] ∧ (lh.push q).n = lh.n + 1 := by
  rw [List.idxOf_eq_length fresh, LogHeader.length_addrs] at slot
  have next : (lh.push q).n = lh.n + 1 := if_pos (by omega)
  refine ⟨?_, next⟩
  rw [LogHeader.addrs, next, show (lh.n + 1).toNat = lh.n.toNat + 1 by omega, List.range_succ, List.map_append]
  congr 1
  · refine List.map_congr_left ?_
    intro k member
    have lt := List.mem_range.mp member
    simp only [LogHeader.push, slot]
    rw [update_of_ne (by omega)]
  · simp [LogHeader.push, slot]

structure Logging (a : LogArea) (before after : Disk) (s : State) : Prop where
  count : 0 ≤ s.lh.n
  empty : a.redoLog.entries (s.disk a.redoLog.header) = []
  fits : a.redoLog.Fits s.lh.addrs
  low : ∀ k, k < s.lh.n.toNat → (s.lh.sector k).toNat < 2 ^ 28
  old : ∀ p, a.redoLog.Home p → s.disk p = before p
  new : ∀ p, a.redoLog.Home p → a.redoLog.redo s.lh.addrs s.disk p = after p
  coherent : Coherent a.InLog s

theorem recoverable_of_empty (empty : a.redoLog.entries (d a.redoLog.header) = [])
    (old : ∀ p, a.redoLog.Home p → d p = before p) : Recoverable a before d := by
  refine ⟨?_, fun p home => ?_⟩
  · rw [RedoLog.WellFormed, empty]
    exact RedoLog.fits_nil
  · rw [RedoLog.view_of_empty empty]
    exact old p home

section

variable (log : Logging a before after s)
include log

theorem Logging.recoverable : Recoverable a before s.disk :=
  recoverable_of_empty log.empty log.old

theorem Logging.frame (disk : t.disk = s.disk) (lh : t.lh = s.lh)
    (coh : Coherent a.InLog t) : Logging a before after t where
  count := lh ▸ log.count
  empty := disk ▸ log.empty
  fits := lh ▸ log.fits
  low := lh ▸ log.low
  old := disk ▸ log.old
  new := by
    rw [disk, lh]
    exact log.new
  coherent := coh

theorem Logging.push {b : Block} (low : q.toNat < 2 ^ 28)
    (outside : ¬ a.InLog q) (room : s.lh.n < logsize ∧ s.lh.n < (a.size : Int) - 1) (lh : t.lh = s.lh.push q)
    (disk : t.disk = update s.disk (a.redoLog.slot (logSlot s.lh q)) b) (coh : Coherent a.InLog t) :
    Logging a before (update after (ideAddr rootdev q) b) t := by
  have home := home_of_low low outside
  have count := log.count
  have slot := logSlot_eq_idxOf log.low low
  have capacity : s.lh.addrs.length < a.redoLog.capacity := by
    simp only [LogHeader.length_addrs, LogArea.redoLog]
    omega
  have bound : logSlot s.lh q < a.redoLog.capacity := by
    rw [slot]
    exact lt_of_le_of_lt List.idxOf_le_length capacity
  have lows : ∀ k, k < (s.lh.push q).n.toNat → ((s.lh.push q).sector k).toNat < 2 ^ 28 := by
    intro k lt
    by_cases atSlot : k = logSlot s.lh q
    · subst atSlot
      simpa [LogHeader.push] using low
    · simp only [LogHeader.push] at lt ⊢
      rw [update_of_ne atSlot]
      refine log.low k ?_
      split at lt <;> omega
  have rest : ∀ p, a.redoLog.Home p → t.disk p = before p := by
    intro p homeP
    rw [disk, update_of_ne (homeP.ne_slot bound)]
    exact log.old p homeP
  have empty : a.redoLog.entries (t.disk a.redoLog.header) = [] := by
    rw [disk, update_of_ne (a.redoLog.slot_ne_header _ bound).symm]
    exact log.empty
  have overlaid : ∀ p, a.redoLog.Home p →
      update (a.redoLog.redo s.lh.addrs s.disk) (ideAddr rootdev q) b p =
        update after (ideAddr rootdev q) b p := by
    intro p homeP
    by_cases here : p = ideAddr rootdev q
    · rw [here, update_self, update_self]
    · rw [update_of_ne here, update_of_ne here, log.new p homeP]
  by_cases member : ideAddr rootdev q ∈ s.lh.addrs
  · obtain ⟨addrs, n⟩ := push_addrs_of_mem slot member
    rw [slot] at disk
    refine ⟨by rw [lh, n]; exact count, empty, by rw [lh, addrs]; exact log.fits, lh ▸ lows, rest, ?_, coh⟩
    intro p homeP
    rw [lh, addrs, disk, RedoLog.redo_absorb log.fits member homeP]
    exact overlaid p homeP
  · obtain ⟨addrs, n⟩ := push_addrs_of_notMem count slot member
    rw [slot, List.idxOf_eq_length member] at disk
    refine ⟨by rw [lh, n]; omega, empty, by rw [lh, addrs]; exact log.fits.snoc member home capacity, lh ▸ lows,
      rest, ?_, coh⟩
    intro p homeP
    rw [lh, addrs, disk, RedoLog.redo_snoc log.fits member homeP capacity]
    exact overlaid p homeP

theorem logWrite_wp (busy : (s.buf i).busy = true)
    (holds : (s.buf i).Holds rootdev q) (low : q.toNat < 2 ^ 28) (outside : ¬ a.InLog q) : wp (logWrite a i)
      (fun _ => Logging a before (update after (ideAddr rootdev q) (s.buf i).data))
      (fun _ t => Recoverable a before t.disk) s := by
  simp only [logWrite, wp_bind, wp_get, holds.1, holds.2]
  refine wp_ite (fun _ => log.recoverable) ?_
  intro room
  refine wp_ite (fun _ => log.recoverable) ?_
  intro _
  simp only [wp_bind, wp_modify, memmove, modifyBuf, holds.2]
  have slot := logSlot_eq_idxOf log.low low
  have inside : a.InLog (a.sector (logSlot s.lh q + 1)) := by
    have short : logSlot s.lh q ≤ s.lh.addrs.length := slot ▸ List.idxOf_le_length
    have count := log.count
    rw [LogHeader.length_addrs] at short
    exact a.sector_inLog (by omega)
  refine store_wp (f := fun t _ => (t.buf i).data) (b := (s.buf i).data) (log.coherent.withLh _) (apart_of_inLog inside) ?_ ?_ ?_
  · intro j t held
    rw [held.others (held.ne_of_busy busy)]
  · intro t stored
    have same : t.buf i = s.buf i := stored.kept i busy
    refine log.push low outside (by omega) ?_ stored.disk ?_
    · dsimp only [State.setBuf]
      rw [stored.lh]
      rfl
    · refine (stored.coherent.withLh _).setBuf ?_ (stored.coherent.alone ⟨rfl, rfl⟩) ?_
      · intro _
        exact stored.coherent.filled i (.inl (same ▸ busy))
      · intro p held inLog
        have sector : p = q := held.2.symm.trans (same ▸ holds.2)
        exact absurd (sector ▸ inLog) outside
  · rintro e t ⟨same, _⟩
    exact (show t.disk = s.disk from same) ▸ log.recoverable

theorem commitTrans_wp : wp (commitTrans a) (fun _ t => Cleared a after t ∧ t.busy = false)
      (fun _ t => Recoverable a before t.disk ∨ Recoverable a after t.disk) s := by
  simp only [commitTrans, wp_bind, wp_get]
  refine wp_ite ?_ ?_
  · intro some
    have small : s.lh.n ≤ logsize := by
      have short := fits_small log.fits
      rw [LogHeader.length_addrs] at short
      omega
    rw [wp_bind]
    refine wp_mono (writeHead_wp log.coherent small) ?_ ?_
    · intro _ t stored
      have header : t.disk a.redoLog.header = headBlock s.lh (s.disk a.redoLog.header) := by
        rw [stored.disk]
        exact update_self ..
      have entries : a.redoLog.entries (t.disk a.redoLog.header) = s.lh.addrs := by
        rw [header]
        exact entries_headBlock log.count small
      have wf : a.redoLog.WellFormed t.disk := by
        rw [RedoLog.WellFormed, entries]
        exact log.fits
      have view : ∀ p, a.redoLog.Home p → a.redoLog.view t.disk p = after p := by
        intro p home
        have fits := log.fits
        rw [← entries, header] at fits
        have committed := RedoLog.view_commit (d := s.disk) fits home
        rw [← header, entries] at committed
        rw [stored.disk, ← header]
        exact committed.trans (log.new p home)
      refine wp_mono (clearLog_wp (by rw [stored.lh, entries]) wf stored.coherent) ?_ ?_
      · rintro _ u ⟨cleared, _⟩
        exact ⟨{ none := cleared.none
                 empty := cleared.empty
                 home := fun p home => (cleared.home p home).trans (view p home)
                 coherent := cleared.coherent.withBusy false }, rfl⟩
      · rintro e u ⟨⟨wellFormed, same⟩, _⟩
        exact .inr ⟨wellFormed, fun p home => (same p home).trans (view p home)⟩
    · rintro e t ⟨same, _⟩
      exact .inl (same ▸ log.recoverable)
  · intro none
    have zero : s.lh.n = 0 := by
      have count := log.count
      omega
    have nil : s.lh.addrs = [] := by simp [LogHeader.addrs, zero]
    refine ⟨⟨zero, log.empty, fun p home => ?_, log.coherent.withBusy false⟩, rfl⟩
    rw [← log.new p home, nil, RedoLog.redo_nil]

end

/-! ## A process that uses the log -/

inductive ClientOp
  | read (dev sector : Word)
  | modify (i : Fin nbuf) (data : Block)
  | logWrite (i : Fin nbuf)
  | release (i : Fin nbuf)

def clientOp (a : LogArea) : ClientOp → FsM PUnit
  | .read dev sector => do
      let _ ← bufcacheRead dev sector
      pure ⟨⟩
  | .modify i data => modifyBuf i fun b => { b with data := data }
  | .logWrite i => logWrite a i
  | .release i => bufcacheRelease i

/-- The rules of `bufcache.c` and `log.h` for the process: it logs a buffer it holds, of a sector
outside the log, and leaves the contents of the log to `log.c`. -/
def Allowed (a : LogArea) (s : State) : ClientOp → Prop
  | .read _ _ => True
  | .modify i _ => ¬ ((s.buf i).dev = rootdev ∧ a.InLog (s.buf i).sector)
  | .logWrite i => (s.buf i).busy = true ∧ (s.buf i).dev = rootdev ∧ (s.buf i).sector.toNat < 2 ^ 28 ∧
      ¬ a.InLog (s.buf i).sector
  | .release _ => True

instance (a : LogArea) (s : State) (op : ClientOp) : Decidable (Allowed a s op) := by
  cases op <;> unfold Allowed <;> infer_instance

def logs (s : State) : ClientOp → List (Addr × Block)
  | .logWrite i => [((s.buf i).addr, (s.buf i).data)]
  | _ => []

def clientOps (a : LogArea) : List ClientOp → FsM PUnit
  | [] => pure ⟨⟩
  | op :: ops => do
      clientOp a op
      clientOps a ops

def Lawful (a : LogArea) : List ClientOp → State → Prop
  | [], _ => True
  | op :: ops, s => Allowed a s op ∧ wp (clientOp a op) (fun _ => Lawful a ops) (fun _ _ => True) s

instance decidableLawful (a : LogArea) : (ops : List ClientOp) → (s : State) → Decidable (Lawful a ops s)
  | [], _ => .isTrue trivial
  | op :: ops, s =>
    haveI : ∀ t, Decidable (Lawful a ops t) := decidableLawful a ops
    inferInstanceAs (Decidable (Allowed a s op ∧
      wp (clientOp a op) (fun _ => Lawful a ops) (fun _ _ => True) s))

def logged (a : LogArea) : List ClientOp → State → List (Addr × Block)
  | [], _ => []
  | op :: ops, s => logs s op ++ logged a ops (endState (clientOp a op) s)

def transaction (a : LogArea) (ops : List ClientOp) : FsM PUnit := do
  beginTrans
  clientOps a ops
  commitTrans a

def overlay (d : Disk) (ws : List (Addr × Block)) : Disk :=
  ws.foldl (fun d w => update d w.1 w.2) d

theorem overlay_append (d : Disk) (ws vs : List (Addr × Block)) :
    overlay d (ws ++ vs) = overlay (overlay d ws) vs := List.foldl_append

structure CacheOnly (a : LogArea) (s t : State) : Prop where
  disk : t.disk = s.disk
  lh : t.lh = s.lh
  coherent : Coherent a.InLog t

theorem clientOp_cacheOnly {op : ClientOp} (coh : Coherent a.InLog s) (allowed : Allowed a s op)
    (silent : logs s op = []) : wp (clientOp a op) (fun _ => CacheOnly a s) (fun _ t => t.disk = s.disk) s := by
  cases op with
  | read dev sector =>
    refine wp_seq (bufcacheRead_wp coh dev sector) ?_ fun _ _ h => h.1
    intro i t held
    exact ⟨held.disk, held.lh, held.coherent⟩
  | modify i data =>
    refine ⟨rfl, rfl, coh.setBuf (coh.filled i) (coh.alone ⟨rfl, rfl⟩) ?_⟩
    intro q holds inside
    exact absurd ⟨holds.1, holds.2 ▸ inside⟩ allowed
  | logWrite i => exact absurd silent (List.cons_ne_nil _ _)
  | release i =>
    cases busy : (s.buf i).busy with
    | true =>
      refine wp_mono (bufcacheRelease_wp busy) ?_ fun _ _ h => h
      rintro _ t rfl
      exact ⟨rfl, rfl, coh.released⟩
    | false =>
      simp only [clientOp, bufcacheRelease, wp_bind, wp_get]
      rw [if_pos busy]
      rfl

theorem clientOp_wp {op : ClientOp} (log : Logging a before after s) (allowed : Allowed a s op) :
    wp (clientOp a op) (fun _ => Logging a before (overlay after (logs s op)))
      (fun _ t => Recoverable a before t.disk) s := by
  by_cases silent : logs s op = []
  · rw [silent]
    refine wp_mono (clientOp_cacheOnly log.coherent allowed silent) ?_ fun _ _ same => same ▸ log.recoverable
    intro _ t kept
    exact log.frame kept.disk kept.lh kept.coherent
  · cases op with
    | logWrite i =>
      obtain ⟨busy, dev, low, outside⟩ := allowed
      have holds : (s.buf i).Holds rootdev (s.buf i).sector := ⟨dev, rfl⟩
      have written := logWrite_wp log busy holds low outside
      rw [← holds.addr] at written
      exact written
    | read dev sector => exact absurd rfl silent
    | modify i data => exact absurd rfl silent
    | release i => exact absurd rfl silent

theorem clientOps_wp {ops : List ClientOp} (log : Logging a before after s) (lawful : Lawful a ops s) :
    wp (clientOps a ops) (fun _ => Logging a before (overlay after (logged a ops s)))
      (fun _ t => Recoverable a before t.disk) s := by
  induction ops generalizing s after with
  | nil => exact log
  | cons op ops ih =>
    have one := clientOp_wp log lawful.1
    rw [clientOps, wp_bind]
    cases result : clientOp a op s with
    | ok x t =>
      have next := wp_ok one result
      have lawfulRest := wp_ok (Q := fun _ => Lawful a ops) lawful.2 result
      have rest := ih next lawfulRest
      have later : logged a (op :: ops) s = logs s op ++ logged a ops t := by
        simp only [logged, endState, result]
      rw [later, overlay_append, wp_of_ok result]
      exact rest
    | error e t =>
      have old := wp_error one result
      rw [wp_of_error result]
      exact old

theorem Cleared.begun (clear : Cleared a before s) : Logging a before before (begun s) := by
  have nil : (Fs.begun s).lh.addrs = [] := by simp [Fs.begun, LogHeader.addrs, clear.none]
  refine ⟨clear.none.ge, clear.empty, by rw [nil]; exact RedoLog.fits_nil, ?_, clear.home, ?_,
    clear.coherent.withBusy true⟩
  · intro k lt
    rw [show (Fs.begun s).lh.n = 0 from clear.none] at lt
    exact absurd lt (Nat.not_lt_zero k)
  · intro p home
    rw [nil, RedoLog.redo_nil]
    exact clear.home p home

theorem transaction_wp {ops : List ClientOp} (clear : Cleared a before s) (lawful : Lawful a ops (begun s)) :
    wp (transaction a ops) (fun _ t => Cleared a (overlay before (logged a ops (begun s))) t ∧
        ∃ u, clientOps a ops (begun s) = .ok ⟨⟩ u) (fun _ t => Recoverable a before t.disk ∨
        Recoverable a (overlay before (logged a ops (begun s))) t.disk ∧
          ∃ u, clientOps a ops (begun s) = .ok ⟨⟩ u) s := by
  have calls := clientOps_wp clear.begun lawful
  simp only [transaction, beginTrans, wp_bind, wp_get]
  refine wp_ite (fun _ => .inl (recoverable_of_empty clear.empty clear.home)) ?_
  intro _
  rw [wp_modify]
  cases result : clientOps a ops (begun s) with
  | ok _ u =>
    have log := wp_ok calls result
    rw [wp_of_ok result]
    refine wp_mono (commitTrans_wp log) ?_ ?_
    · rintro _ t ⟨cleared, _⟩
      exact ⟨cleared, u, rfl⟩
    · rintro _ t (old | new)
      · exact .inl old
      · exact .inr ⟨new, u, rfl⟩
  | error e t =>
    have old := wp_error calls result
    rw [wp_of_error result]
    exact .inl old

/-! ## Crashes -/

inductive Reachable (a : LogArea) : State → Prop
  | mount {d : Disk} {k : Nat} {s : State} : a.redoLog.WellFormed d →
      recoverFromLog a (boot d k) = .ok ⟨⟩ s → Reachable a s
  | call {s t : State} {op : ClientOp} : Reachable a s → Allowed a s op → logs s op = [] →
      clientOp a op s = .ok ⟨⟩ t → Reachable a t
  | transaction {s t : State} {ops : List ClientOp} : Reachable a s → Lawful a ops (begun s) →
      transaction a ops s = .ok ⟨⟩ t → Reachable a t

theorem Cleared.self (clear : Cleared a X s) : Cleared a s.disk s := { clear with home := fun _ _ => rfl }

def State.withPower (s : State) (k : Nat) : State := { s with power := k }

theorem Cleared.withPower (clear : Cleared a X s) (k : Nat) : Cleared a X (s.withPower k) :=
  ⟨clear.none, clear.empty, clear.home, clear.coherent.disk1, clear.coherent.listed, clear.coherent.filled,
    clear.coherent.unique, clear.coherent.clean⟩

theorem recoverFromLog_boot (recoverable : Recoverable a X d) (k : Nat) :
    wp (recoverFromLog a) (fun _ t => Cleared a X t ∧ t.busy = false)
      (fun e t => Recoverable a X t.disk ∧ e = .powerLoss ∧ k ≤ logsize) (boot d k) :=
  recoverFromLog_wp (boot_coherent d k) (boot_quiet d k) recoverable

theorem Reachable.cleared (reach : Reachable a s) : Cleared a s.disk s := by
  induction reach with
  | mount wf recovered => exact (wp_ok (recoverFromLog_boot ⟨wf, fun _ _ => rfl⟩ _) recovered).1.self
  | call _ allowed silent returned ih =>
    have kept := wp_ok (clientOp_cacheOnly ih.coherent allowed silent) returned
    exact ⟨by rw [kept.lh, ih.none], by rw [kept.disk, ih.empty], fun _ _ => rfl, kept.coherent⟩
  | transaction _ lawful returned ih => exact (wp_ok (transaction_wp ih lawful) returned).1.self

def Interrupted (a : LogArea) (d d' : Disk) : Prop :=
  ∃ k e t, recoverFromLog a (boot d k) = .error e t ∧ t.disk = d'

theorem Interrupted.recoverable {d d' : Disk} (recoverable : Recoverable a X d)
    (cut : Relation.ReflTransGen (Interrupted a) d d') : Recoverable a X d' := by
  induction cut with
  | refl => exact recoverable
  | tail _ last ih =>
    obtain ⟨k, e, t, stopped, rfl⟩ := last
    exact (wp_error (recoverFromLog_boot ih k) stopped).1

theorem Recoverable.completes (recoverable : Recoverable a X d) {k : Nat} (enough : logsize < k) :
    ∃ t, recoverFromLog a (boot d k) = .ok ⟨⟩ t := by
  have recovery := recoverFromLog_boot recoverable k
  cases result : recoverFromLog a (boot d k) with
  | ok _ t => exact ⟨t, rfl⟩
  | error e t => exact absurd (wp_error recovery result).2.2 (Nat.not_le.mpr enough)

theorem Recoverable.home {k : Nat} (recoverable : Recoverable a X d)
    (recovered : recoverFromLog a (boot d k) = .ok ⟨⟩ t) (p : Addr) (home : a.redoLog.Home p) : t.disk p = X p :=
  (wp_ok (recoverFromLog_boot recoverable k) recovered).1.home p home

/-- Crash atomicity: the power fails after `k` sector writes, or the transaction stops for another reason, and any number
of recoveries are cut, too. -/
theorem transaction_crashAtomic {ops : List ClientOp} (reach : Reachable a s) (k : Nat)
    (lawful : Lawful a ops (begun (s.withPower k))) {d : Disk}
    (cut : Relation.ReflTransGen (Interrupted a) (endState (transaction a ops) (s.withPower k)).disk d) :
    (∀ n, logsize < n → ∃ t, recoverFromLog a (boot d n) = .ok ⟨⟩ t) ∧
      ((∀ n t, recoverFromLog a (boot d n) = .ok ⟨⟩ t → ∀ p, a.redoLog.Home p → t.disk p = s.disk p) ∨
        (∃ u, clientOps a ops (begun (s.withPower k)) = .ok ⟨⟩ u) ∧
          ∀ n t, recoverFromLog a (boot d n) = .ok ⟨⟩ t → ∀ p, a.redoLog.Home p →
            t.disk p = overlay s.disk (logged a ops (begun (s.withPower k))) p) := by
  have outcome := transaction_wp (reach.cleared.withPower k) lawful
  have crash := wp_endState (I := fun t => Recoverable a s.disk t.disk ∨
    Recoverable a (overlay s.disk (logged a ops (begun (s.withPower k)))) t.disk ∧
      ∃ u, clientOps a ops (begun (s.withPower k)) = .ok ⟨⟩ u)
    (wp_mono outcome (fun _ t h => .inr ⟨recoverable_of_empty h.1.empty h.1.home, h.2⟩) fun _ _ h => h)
  rcases crash with old | ⟨new, returned⟩
  · have final := Interrupted.recoverable old cut
    exact ⟨fun n enough => final.completes enough, .inl fun n t recovered => final.home recovered⟩
  · have final := Interrupted.recoverable new cut
    exact ⟨fun n enough => final.completes enough, .inr ⟨returned, fun n t recovered => final.home recovered⟩⟩

def mkfsLog : LogArea := ⟨1014, 10, by decide, by decide⟩

def blankDisk : Disk := fun _ _ => 0

def mounted : State := endState (recoverFromLog mkfsLog) (boot blankDisk 11)

theorem mounted_reachable : Reachable mkfsLog mounted := by
  have blank : Recoverable mkfsLog blankDisk blankDisk := recoverable_of_empty rfl fun _ _ => rfl
  obtain ⟨t, recovered⟩ := blank.completes (k := 11) (by decide)
  have same : mounted = t := by rw [mounted, endState, recovered]
  rw [same]
  exact .mount blank.1 recovered

def absorbed : List ClientOp :=
  [.read 1 100, .read 1 101, .modify 1 fun _ => 7, .logWrite 1, .modify 2 fun _ => 8, .logWrite 2,
    .modify 1 fun _ => 9, .logWrite 1, .release 2, .release 1]

theorem transaction_crashAtomic_absorbed :
    Reachable mkfsLog mounted ∧ Lawful mkfsLog absorbed (begun (mounted.withPower 5)) ∧
      ∃ t, recoverFromLog mkfsLog
          (boot (endState (transaction mkfsLog absorbed) (mounted.withPower 5)).disk 11) = .ok ⟨⟩ t ∧
        ((∀ p, mkfsLog.redoLog.Home p → t.disk p = mounted.disk p) ∨
          ∀ p, mkfsLog.redoLog.Home p →
            t.disk p = overlay mounted.disk (logged mkfsLog absorbed (begun (mounted.withPower 5))) p) := by
  have lawful : Lawful mkfsLog absorbed (begun (mounted.withPower 5)) := by decide +kernel
  obtain ⟨completes, contents⟩ := transaction_crashAtomic mounted_reachable 5 lawful .refl
  obtain ⟨t, recovered⟩ := completes 11 (by decide)
  refine ⟨mounted_reachable, lawful, t, recovered, ?_⟩
  rcases contents with old | ⟨_, new⟩
  · exact .inl (old 11 t recovered)
  · exact .inr (new 11 t recovered)

def restored (w : Fin 128) (k : Nat) : Word × Word :=
  let crash := (endState (transaction mkfsLog absorbed) (mounted.withPower k)).disk
  let disk := (endState (recoverFromLog mkfsLog) (boot crash 11)).disk
  (disk ⟨1, 100⟩ w, disk ⟨1, 101⟩ w)

example : (List.range 8).map (restored 0) =
    [(0, 0), (0, 0), (0, 0), (0, 0), (9, 8), (9, 8), (9, 8), (9, 8)] := by decide +kernel

/-! ## Histories -/

/-- A run of a mounted system, and the blocks its transactions wrote. -/
inductive Commits (a : LogArea) (s : State) : List (Addr × Block) → State → Prop
  | start : Commits a s [] s
  | call {ws : List (Addr × Block)} {t u : State} {op : ClientOp} : Commits a s ws t → Allowed a t op →
      logs t op = [] → clientOp a op t = .ok ⟨⟩ u → Commits a s ws u
  | transaction {ws : List (Addr × Block)} {t u : State} {ops : List ClientOp} : Commits a s ws t →
      Lawful a ops (begun t) → transaction a ops t = .ok ⟨⟩ u → Commits a s (ws ++ logged a ops (begun t)) u

variable {ws : List (Addr × Block)} {ops : List ClientOp}

theorem Commits.cleared (commits : Commits a s ws t) (reach : Reachable a s) : Cleared a (overlay s.disk ws) t := by
  induction commits with
  | start => exact reach.cleared
  | call _ allowed silent returned ih =>
    have kept := wp_ok (clientOp_cacheOnly ih.coherent allowed silent) returned
    exact ⟨by rw [kept.lh, ih.none], by rw [kept.disk, ih.empty], kept.disk ▸ ih.home, kept.coherent⟩
  | transaction _ lawful returned ih =>
    rw [overlay_append]
    exact (wp_ok (transaction_wp ih lawful) returned).1

end Certikos.Fs
