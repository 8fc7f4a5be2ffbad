import Mathlib.Data.List.Basic

/-!
# Counted loops and runs of a step function

`loop` is the C idiom `for (i = 0; i < n; i++)`, and `run` executes a list of events with a step function that may
stop the machine.
-/

namespace Certikos.Lib

variable {σ ε η : Type*}

def loop (body : Nat → σ → σ) : Nat → σ → σ
  | 0, s => s
  | n + 1, s => body n (loop body n s)

variable {C : σ → ε → Prop} {es : List ε} {body : Nat → σ → σ} {s : σ}

theorem loop_invariant (P : Nat → σ → Prop) {n : Nat}
    (start : P 0 s) (step : ∀ i t, i < n → P i t → P (i + 1) (body i t)) : P n (loop body n s) := by
  induction n with
  | zero => exact start
  | succ n ih =>
    exact step n _ (Nat.lt_succ_self n)
      (ih fun i t hi ht => step i t (Nat.lt_succ_of_lt hi) ht)

theorem loop_preserves (P : σ → Prop) {n : Nat}
    (start : P s) (step : ∀ i t, i < n → P t → P (body i t)) : P (loop body n s) :=
  loop_invariant (fun _ => P) start step

theorem loop_related (R : σ → σ → Prop) {n : Nat} {s s' : σ} (start : R s s')
    (step : ∀ i t t', i < n → R t t' → R (body i t) (body i t')) : R (loop body n s) (loop body n s') := by
  induction n with
  | zero => exact start
  | succ n ih => exact step n _ _ (Nat.lt_succ_self n) (ih fun i t t' hi related => step i t t' (Nat.lt_succ_of_lt hi) related)

def run (step : σ → ε → Except η σ) : σ → List ε → Except η σ
  | s, [] => .ok s
  | s, e :: es =>
    match step s e with
    | .ok s' => run step s' es
    | .error halt => .error halt

def Along (step : σ → ε → Except η σ) (C : σ → ε → Prop) : σ → List ε → Prop
  | _, [] => True
  | s, e :: es => C s e ∧ ∀ s', step s e = .ok s' → Along step C s' es

instance decidableAlong (step : σ → ε → Except η σ) (C : σ → ε → Prop) [∀ s e, Decidable (C s e)] :
    (s : σ) → (es : List ε) → Decidable (Along step C s es)
  | _, [] => .isTrue trivial
  | s, e :: es =>
    match first : step s e with
    | .ok s' =>
      haveI := decidableAlong step C s' es
      decidable_of_iff (C s e ∧ Along step C s' es) (by simp [Along, first])
    | .error _ => decidable_of_iff (C s e) (by simp [Along, first])

def Reaches (r : Except η σ) (P : σ → Prop) : Prop := ∃ s, r = .ok s ∧ P s

instance decidableReaches (r : Except η σ) (P : σ → Prop) [DecidablePred P] : Decidable (Reaches r P) :=
  match r with
  | .ok s => decidable_of_iff (P s) (by simp [Reaches])
  | .error _ => .isFalse (by simp [Reaches])

def Halts (r : Except η σ) (P : η → Prop) : Prop := ∃ halt, r = .error halt ∧ P halt

instance decidableHalts (r : Except η σ) (P : η → Prop) [DecidablePred P] : Decidable (Halts r P) :=
  match r with
  | .ok _ => .isFalse (by simp [Halts])
  | .error halt => decidable_of_iff (P halt) (by simp [Halts])

variable {step : σ → ε → Except η σ}

theorem run_cons {s t : σ} {e : ε} (h : run step s (e :: es) = .ok t) :
    ∃ s', step s e = .ok s' ∧ run step s' es = .ok t := by
  unfold run at h
  cases first : step s e with
  | error halt => simp [first] at h
  | ok s' =>
    simp only [first] at h
    exact ⟨s', rfl, h⟩

theorem run_append {s t : σ} {es fs : List ε} (h : run step s (es ++ fs) = .ok t) :
    ∃ u, run step s es = .ok u ∧ run step u fs = .ok t := by
  induction es generalizing s with
  | nil => exact ⟨s, rfl, h⟩
  | cons e es ih =>
    obtain ⟨s', first, rest⟩ := run_cons h
    obtain ⟨u, before, after⟩ := ih rest
    exact ⟨u, by simpa only [run, first] using before, after⟩

theorem run_error {halt : η} (h : run step s es = .error halt) :
    ∃ before e after u, es = before ++ e :: after ∧ run step s before = .ok u ∧ step u e = .error halt := by
  induction es generalizing s with
  | nil => cases h
  | cons e es ih =>
    unfold run at h
    cases first : step s e with
    | error reason =>
      rw [first] at h
      exact ⟨[], e, es, s, rfl, rfl, first.trans h⟩
    | ok s' =>
      rw [first] at h
      obtain ⟨before, e', after, u, split, reached, stops⟩ := ih h
      exact ⟨e :: before, e', after, u, by rw [split, List.cons_append], by simp only [run, first, reached], stops⟩

theorem Along.append {s u : σ} {es fs : List ε}
    (h : Along step C s (es ++ fs)) (before : run step s es = .ok u) : Along step C u fs := by
  induction es generalizing s with
  | nil =>
    simp only [run, Except.ok.injEq] at before
    subst before
    exact h
  | cons e es ih =>
    obtain ⟨s', first, rest⟩ := run_cons before
    exact ih (h.2 s' first) rest

theorem Along.left {es fs : List ε} (h : Along step C s (es ++ fs)) : Along step C s es := by
  induction es generalizing s with
  | nil => trivial
  | cons e es ih => exact ⟨h.1, fun s' first => ih (h.2 s' first)⟩

theorem along_of_forall {C : ε → Prop} (each : ∀ e ∈ es, C e) (s : σ) : Along step (fun _ e => C e) s es := by
  induction es generalizing s with
  | nil => trivial
  | cons e es ih =>
    exact ⟨each e List.mem_cons_self, fun s' _ => ih (fun e' member => each e' (List.mem_cons_of_mem e member)) s'⟩

theorem along_iff :
    Along step C s es ↔ ∀ before e after, es = before ++ e :: after → ∀ u, run step s before = .ok u → C u e := by
  constructor
  · intro along before e after split u reached
    rw [split] at along
    exact (along.append reached).1
  · intro each
    induction es generalizing s with
    | nil => trivial
    | cons e es ih =>
      refine ⟨each [] e es rfl s rfl, fun s' first => ih fun before e' after split u reached => ?_⟩
      apply each (e :: before) e' after (by rw [split, List.cons_append]) u
      simp only [run, first, reached]

theorem run_invariant (I : σ → Prop) (keep : ∀ s e s', I s → C s e → step s e = .ok s' → I s') {s t : σ}
    (start : I s) (along : Along step C s es) (h : run step s es = .ok t) : I t := by
  induction es generalizing s with
  | nil =>
    simp only [run, Except.ok.injEq] at h
    exact h ▸ start
  | cons e es ih =>
    obtain ⟨s', first, rest⟩ := run_cons h
    exact ih (keep s e s' start along.1 first) (along.2 s' first) rest

end Certikos.Lib
