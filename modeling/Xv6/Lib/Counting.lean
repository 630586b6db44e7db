import Mathlib.Algebra.Order.BigOperators.Group.Finset

/-!
# Counting over the processes

Sums over a finite type of which one term changes.
-/

namespace Xv6.Lib

open Finset

variable {π : Type} [Fintype π]

theorem le_sum (f : π → ℕ) (p : π) : f p ≤ ∑ q, f q :=
  Finset.single_le_sum (fun _ _ => Nat.zero_le _) (mem_univ p)

variable [DecidableEq π]

theorem add_le_sum (f : π → ℕ) {p q : π} (hq : q ≠ p) : f q + f p ≤ ∑ r, f r := by
  rw [← Finset.sum_pair hq]
  exact Finset.sum_le_sum_of_subset (subset_univ _)

theorem sum_eq_off {f g : π → ℕ} (p : π) (h : ∀ q, q ≠ p → f q = g q) :
    (∑ q, f q) + g p = (∑ q, g q) + f p := by
  have hf := Finset.add_sum_erase univ f (mem_univ p)
  have hg := Finset.add_sum_erase univ g (mem_univ p)
  have he : ∑ q ∈ univ.erase p, f q = ∑ q ∈ univ.erase p, g q :=
    Finset.sum_congr rfl fun q hq => h q (ne_of_mem_erase hq)
  omega

end Xv6.Lib
