import Mathlib.Tactic.Basic

/-!
# Programs that ask

A program either returns, stops, or asks its environment and goes on with the answer. `exec` runs it against an
environment with a state of its own, and `Ends` is what a run that returns leaves behind.
-/

namespace Certikos.Lib

inductive Interact (κ ρ ε α : Type)
  | ret (a : α)
  | stop (e : ε)
  | ask (c : κ) (next : ρ → Interact κ ρ ε α)

namespace Interact

variable {κ ρ ε σ α β : Type}

def bind (f : α → Interact κ ρ ε β) : Interact κ ρ ε α → Interact κ ρ ε β
  | .ret a => f a
  | .stop e => .stop e
  | .ask c next => .ask c fun r => (next r).bind f

instance : Monad (Interact κ ρ ε) where
  pure := .ret
  bind m f := m.bind f

def call (c : κ) : Interact κ ρ ε ρ := .ask c .ret

def exec (serve : σ → κ → ρ × σ) : Interact κ ρ ε α → σ → Except ε (α × σ)
  | .ret a, s => .ok (a, s)
  | .stop e, _ => .error e
  | .ask c next, s => (next (serve s c).1).exec serve (serve s c).2

def Ends (serve : σ → κ → ρ × σ) (m : Interact κ ρ ε α) (s : σ) (Q : α → σ → Prop) : Prop :=
  ∃ a s', m.exec serve s = .ok (a, s') ∧ Q a s'

variable {serve : σ → κ → ρ × σ} {s : σ} {Q : α → σ → Prop}

variable {a : α} {c : κ} {m n : Interact κ ρ ε α} {f : α → Interact κ ρ ε β} {φ : α → Prop}

theorem ends_pure : (pure a : Interact κ ρ ε α).Ends serve s Q ↔ Q a s := by
  constructor
  · rintro ⟨b, t, done, holds⟩
    cases done
    exact holds
  · intro holds
    exact ⟨a, s, rfl, holds⟩

theorem ends_stop {e : ε} : ¬(Interact.stop e : Interact κ ρ ε α).Ends serve s Q := by
  rintro ⟨b, t, done, -⟩
  cases done

theorem ends_call {Q : ρ → σ → Prop} :
    (call c : Interact κ ρ ε ρ).Ends serve s Q ↔ Q (serve s c).1 (serve s c).2 := by
  constructor
  · rintro ⟨b, t, done, holds⟩
    cases done
    exact holds
  · intro holds
    exact ⟨_, _, rfl, holds⟩

theorem exec_bind (m : Interact κ ρ ε α) (f : α → Interact κ ρ ε β) (s : σ) :
    (m >>= f).exec serve s = (m.exec serve s).bind fun r => (f r.1).exec serve r.2 := by
  induction m generalizing s with
  | ret a => rfl
  | stop e => rfl
  | ask c next ih => exact ih (serve s c).1 (serve s c).2

theorem ends_bind {Q : β → σ → Prop} :
    (m >>= f).Ends serve s Q ↔ m.Ends serve s fun a t => (f a).Ends serve t Q := by
  unfold Ends
  rw [exec_bind]
  cases run : m.exec serve s with
  | error e =>
    constructor
    · rintro ⟨b, t, done, -⟩
      cases done
    · rintro ⟨a, t, done, -⟩
      cases done
  | ok r =>
    constructor
    · intro later
      exact ⟨r.1, r.2, rfl, later⟩
    · rintro ⟨a, t, done, later⟩
      cases done
      exact later

theorem Ends.mono {P Q : α → σ → Prop} (ends : m.Ends serve s P) (implies : ∀ a t, P a t → Q a t) :
    m.Ends serve s Q := by
  obtain ⟨a, t, run, holds⟩ := ends
  exact ⟨a, t, run, implies a t holds⟩

def Total : Interact κ ρ ε α → Prop
  | .ret _ => True
  | .stop _ => False
  | .ask _ next => ∀ r, (next r).Total

def Leaves (φ : α → Prop) : Interact κ ρ ε α → Prop
  | .ret a => φ a
  | .stop _ => True
  | .ask _ next => ∀ r, (next r).Leaves φ

theorem Total.bind (first : m.Total) (next : ∀ a, (f a).Total) :
    (m >>= f).Total := by
  induction m with
  | ret a => exact next a
  | stop e => exact first
  | ask c rest ih => exact fun r => ih r (first r)

theorem Total.call : (call c : Interact κ ρ ε ρ).Total := fun _ => trivial

theorem Total.pure : (Pure.pure a : Interact κ ρ ε α).Total := trivial

theorem Total.ite {c : Prop} [Decidable c] (onTrue : m.Total) (onFalse : n.Total) :
    (if c then m else n).Total := by
  split
  · exact onTrue
  · exact onFalse

theorem Total.forM {xs : List β} {f : β → Interact κ ρ ε PUnit} (each : ∀ x, (f x).Total) : (xs.forM f).Total := by
  induction xs with
  | nil => trivial
  | cons x xs ih => exact .bind (each x) fun _ => ih

theorem Leaves.bind {φ : β → Prop} (next : ∀ a, (f a).Leaves φ) :
    (m >>= f).Leaves φ := by
  induction m with
  | ret a => exact next a
  | stop e => trivial
  | ask c rest ih => exact ih

theorem Leaves.ite {c : Prop} [Decidable c] (onTrue : m.Leaves φ) (onFalse : n.Leaves φ) :
    (if c then m else n).Leaves φ := by
  split
  · exact onTrue
  · exact onFalse

theorem Total.ends (total : m.Total) (s : σ) : m.Ends serve s fun _ _ => True := by
  induction m generalizing s with
  | ret a => exact ⟨a, s, rfl, trivial⟩
  | stop e => exact total.elim
  | ask c next ih => exact ih _ (total _) _

theorem Leaves.ends_iff (leaves : m.Leaves φ) :
    (m.Ends serve s fun a _ => φ a) ↔ m.Ends serve s fun _ _ => True := by
  induction m generalizing s with
  | ret a => exact ⟨fun _ => ⟨a, s, rfl, trivial⟩, fun _ => ⟨a, s, rfl, leaves⟩⟩
  | stop e => exact iff_of_false ends_stop ends_stop
  | ask c next ih => exact ih _ (leaves _)

attribute [simp] ends_pure ends_stop ends_call ends_bind

end Interact

end Certikos.Lib
