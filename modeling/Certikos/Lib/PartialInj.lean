import Mathlib.Logic.Function.Basic

/-!
# Exclusive ownership

A partial map from uses to resources in which no resource serves two uses. A use may be given a
resource that nobody has, and uses may be dropped.
-/

namespace Certikos.Lib

variable {κ φ : Type*} {m m' : κ → Option φ}

def PartialInj (m : κ → Option φ) : Prop := ∀ ⦃u v f⦄, m u = some f → m v = some f → u = v

theorem PartialInj.drop (h : PartialInj m) (sub : ∀ u f, m' u = some f → m u = some f) : PartialInj m' :=
  fun u v f hu hv => h (sub u f hu) (sub v f hv)

theorem PartialInj.grant (h : PartialInj m) {u : κ} {f : φ} (fresh : ∀ v, m v ≠ some f)
    (sub : ∀ v g, m' v = some g → v = u ∧ g = f ∨ m v = some g) : PartialInj m' := by
  intro v w g hv hw
  rcases sub v g hv with ⟨rfl, rfl⟩ | hv <;> rcases sub w g hw with ⟨rfl, e⟩ | hw
  · rfl
  · exact absurd hw (fresh w)
  · exact absurd (e ▸ hv) (fresh v)
  · exact h hv hw

end Certikos.Lib
