import Mathlib.Init

/-!
# Weakest preconditions of programs that may stop

`wp x Q E s` says what holds after running `x` from `s`: `Q` of the value and the state if `x` returns, `E` of the
reason and the state if it stops early.
-/

namespace Certikos.Lib

universe u
variable {ε σ α β : Type u}

def wp (x : EStateM ε σ α) (Q : α → σ → Prop) (E : ε → σ → Prop) (s : σ) : Prop :=
  match x s with
  | .ok a t => Q a t
  | .error e t => E e t

instance decidableWp (x : EStateM ε σ α) (Q : α → σ → Prop) (E : ε → σ → Prop) (s : σ)
    [∀ a t, Decidable (Q a t)] [∀ e t, Decidable (E e t)] : Decidable (wp x Q E s) := by
  unfold wp
  cases x s <;> infer_instance

variable {x : EStateM ε σ α} {Q Q' : α → σ → Prop} {E E' : ε → σ → Prop} {s t : σ}

theorem wp_mono (h : wp x Q E s) (onOk : ∀ a t, Q a t → Q' a t) (onError : ∀ e t, E e t → E' e t) : wp x Q' E' s := by
  unfold wp at *
  cases result : x s with
  | ok a t => simp only [result] at h; exact onOk a t h
  | error e t => simp only [result] at h; exact onError e t h

theorem wp_and (h : wp x Q E s) (h' : wp x Q' E' s) :
    wp x (fun a t => Q a t ∧ Q' a t) (fun e t => E e t ∧ E' e t) s := by
  unfold wp at *
  cases result : x s with
  | ok a t => simp only [result] at h h'; exact ⟨h, h'⟩
  | error e t => simp only [result] at h h'; exact ⟨h, h'⟩

variable {a : α} {e : ε} {f : α → EStateM ε σ β}

theorem wp_of_ok (returned : x s = .ok a t) : wp x Q E s ↔ Q a t := by
  rw [wp, returned]

theorem wp_of_error (stopped : x s = .error e t) : wp x Q E s ↔ E e t := by
  rw [wp, stopped]

theorem wp_ok (h : wp x Q E s) (returned : x s = .ok a t) : Q a t := (wp_of_ok returned).mp h

theorem wp_error (h : wp x Q E s) (stopped : x s = .error e t) : E e t := (wp_of_error stopped).mp h

def endState (x : EStateM ε σ α) (s : σ) : σ :=
  match x s with
  | .ok _ t => t
  | .error _ t => t

theorem wp_endState {I : σ → Prop} (h : wp x (fun _ => I) (fun _ => I) s) : I (endState x s) := by
  unfold endState
  cases result : x s with
  | ok a t => exact wp_ok h result
  | error e t => exact wp_error h result

@[simp] theorem wp_pure : wp (pure a) Q E s ↔ Q a s := Iff.rfl

@[simp] theorem wp_get {Q : σ → σ → Prop} : wp get Q E s ↔ Q s s := Iff.rfl

@[simp] theorem wp_modify {f : σ → σ} {Q : PUnit → σ → Prop} : wp (modify f) Q E s ↔ Q ⟨⟩ (f s) := Iff.rfl

@[simp] theorem wp_bind {Q : β → σ → Prop} :
    wp (x >>= f) Q E s ↔ wp x (fun a t => wp (f a) Q E t) E s := by
  simp only [wp, bind, EStateM.bind]
  cases x s <;> rfl

theorem wp_ite {c : Prop} [Decidable c] {y : EStateM ε σ α} (onTrue : c → wp x Q E s)
    (onFalse : ¬ c → wp y Q E s) : wp (if c then x else y) Q E s := by
  by_cases h : c
  · rw [if_pos h]
    exact onTrue h
  · rw [if_neg h]
    exact onFalse h

theorem wp_seq {R : β → σ → Prop} (first : wp x Q E' s) (next : ∀ a t, Q a t → wp (f a) R E t)
    (stopped : ∀ e t, E' e t → E e t) : wp (x >>= f) R E s :=
  wp_bind.mpr (wp_mono first next stopped)

def forLoop (body : Nat → EStateM ε σ PUnit) : Nat → EStateM ε σ PUnit
  | 0 => pure ⟨⟩
  | n + 1 => do
      forLoop body n
      body n

theorem wp_forLoop {body : Nat → EStateM ε σ PUnit} (I : Nat → σ → Prop) {n : Nat} (start : I 0 s)
    (step : ∀ i t, i < n → I i t → wp (body i) (fun _ => I (i + 1)) E t) :
    wp (forLoop body n) (fun _ => I n) E s := by
  induction n with
  | zero => exact start
  | succ n ih =>
    refine wp_seq (ih fun i t lt => step i t (Nat.lt_succ_of_lt lt)) ?_ fun _ _ h => h
    intro _ t held
    exact step n t (Nat.lt_succ_self n) held

end Certikos.Lib
