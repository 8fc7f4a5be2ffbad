import Certikos.Lib.Turns

/-!
# What code may return

The values that code can return when, wherever it waits, the others may leave any state at all. What holds of all of
them holds in every run, and to know it only the ends of the code have to be looked at.
-/

namespace Certikos.Lib

variable {ι σ ε ω α β : Type}

def Turn.Yields (a : α) : Turn σ ε ω α → Prop
  | .done b _ => b = a
  | .stop _ _ => False
  | .note _ rest => rest.Yields a
  | .wait _ _ go => ∃ s, (go s).Yields a

theorem Turn.Yields.of_bind {t : Turn σ ε ω α} {f : α → σ → Turn σ ε ω β} {b : β} (yields : (t.bind f).Yields b) :
    ∃ a s, t.Yields a ∧ (f a s).Yields b := by
  induction t with
  | done a s => exact ⟨a, s, rfl, yields⟩
  | stop e s => exact yields.elim
  | note w rest ih => exact ih yields
  | wait s again go ih =>
    obtain ⟨s', later⟩ := yields
    obtain ⟨a, s, first, next⟩ := ih s' later
    exact ⟨a, s, ⟨s', first⟩, next⟩

variable {f : α → Code ι σ ε ω β}

namespace Code

def Yields (x : Code ι σ ε ω α) (a : α) : Prop := ∃ p s, (x p s).Yields a

theorem Yields.of_bind {x : Code ι σ ε ω α} {b : β} (yields : Yields (x >>= f) b) :
    ∃ a, Yields x a ∧ Yields (f a) b := by
  obtain ⟨p, s, yields⟩ := yields
  obtain ⟨a, s', first, next⟩ := Turn.Yields.of_bind yields
  exact ⟨a, ⟨p, s, first⟩, p, s', next⟩

theorem Yields.of_pure {a b : α} (yields : Yields (pure a : Code ι σ ε ω α) b) : b = a := by
  obtain ⟨p, s, yields⟩ := yields
  exact yields.symm

theorem not_yields_stop {e : ε} {a : α} : ¬Yields (stop e : Code ι σ ε ω α) a := by
  rintro ⟨p, s, yields⟩
  exact yields

def OnlyYields (φ : α → Prop) (x : Code ι σ ε ω α) : Prop := ∀ a, Yields x a → φ a

namespace OnlyYields

variable {φ : α → Prop} {ψ : β → Prop} {x y : Code ι σ ε ω α}

theorem bind (next : ∀ a, OnlyYields ψ (f a)) : OnlyYields ψ (x >>= f) := by
  intro b yields
  obtain ⟨a, -, last⟩ := yields.of_bind
  exact next a b last

theorem seq (next : ∀ {a}, OnlyYields ψ (f a)) : OnlyYields ψ (x >>= f) := bind fun _ => next

theorem bind_of (first : OnlyYields φ x) (next : ∀ a, φ a → OnlyYields ψ (f a)) : OnlyYields ψ (x >>= f) := by
  intro b yields
  obtain ⟨a, before, last⟩ := yields.of_bind
  exact next a (first a before) b last

theorem pure {a : α} (holds : φ a) : OnlyYields φ (Pure.pure a : Code ι σ ε ω α) := by
  intro b yields
  rw [yields.of_pure]
  exact holds

theorem stop {e : ε} : OnlyYields φ (Code.stop e : Code ι σ ε ω α) :=
  fun _ yields => (not_yields_stop yields).elim

theorem ite {c : Prop} [Decidable c] (onTrue : OnlyYields φ x) (onFalse : OnlyYields φ y) :
    OnlyYields φ (if c then x else y) := by
  split
  · exact onTrue
  · exact onFalse

end OnlyYields

end Code

end Certikos.Lib
