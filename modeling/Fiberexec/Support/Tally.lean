import Mathlib.Algebra.BigOperators.Group.Finset.Basic
import Mathlib.Algebra.Order.BigOperators.Group.Finset

/-!
# Totals over a family of components

The state of a pool or of a bulk operation is a finite family of local states,
of which one step changes one member.  These lemmas say how a total over the
family moves with such a step.
-/

namespace Fiberexec.Support

variable {ι α : Type*} [Fintype ι]

theorem le_total (g : α → ℕ) (W : ι → α) (w : ι) :
    g (W w) ≤ ∑ x, g (W x) :=
  Finset.single_le_sum (f := fun x => g (W x))
    (fun _ _ => Nat.zero_le _) (Finset.mem_univ w)

/-- When two families differ at one member only, as far as `g` can tell, their
totals differ by that member's share. -/
theorem total_add_of_agree_off [DecidableEq ι]
    {g : α → ℕ} {W W' : ι → α} (w : ι)
    (hagree : ∀ x, x ≠ w → g (W' x) = g (W x)) :
    ∑ x, g (W' x) + g (W w) = ∑ x, g (W x) + g (W' w) := by
  have hrest :
      ∑ x ∈ Finset.univ.erase w, g (W' x) =
        ∑ x ∈ Finset.univ.erase w, g (W x) :=
    Finset.sum_congr rfl
      (fun x hx => hagree x (Finset.ne_of_mem_erase hx))
  have hnew := Finset.add_sum_erase Finset.univ
    (fun x => g (W' x)) (Finset.mem_univ w)
  have hold := Finset.add_sum_erase Finset.univ
    (fun x => g (W x)) (Finset.mem_univ w)
  omega

end Fiberexec.Support
