import Mathlib.Algebra.BigOperators.Group.Finset.Piecewise
import Mathlib.Tactic.Abel

/-!
# Units held at places

Places `ι`, each of which holds at most one unit. `held s g` collects the units at the places of a
finite set `s`, one entry for each place, so that a unit that is held twice occurs twice in it. An
allocator moves units between such places and a pool of free ones, and conserves their sum.
-/

namespace Xv6.Lib

variable {ι α : Type} {s : Finset ι} {g g' : ι → Option α} {i j : ι} {x : α}

def unit (o : Option α) : Multiset α := o.elim 0 fun x => {x}

@[simp] theorem unit_none : unit (none : Option α) = 0 := rfl

@[simp] theorem unit_some (x : α) : unit (some x) = {x} := rfl

theorem card_unit_le (o : Option α) : (unit o).card ≤ 1 := by
  cases o <;> simp

/-- The units at the places of `s`. -/
def held (s : Finset ι) (g : ι → Option α) : Multiset α := ∑ i ∈ s, unit (g i)

theorem held_congr (h : ∀ i ∈ s, g' i = g i) : held s g' = held s g :=
  Finset.sum_congr rfl fun i hi => by rw [h i hi]

@[simp] theorem held_none : held s (fun _ => (none : Option α)) = 0 := by
  simp [held]

theorem held_update [DecidableEq ι] (hi : i ∈ s) (g : ι → Option α) (o : Option α) :
    held s (Function.update g i o) + unit (g i) = held s g + unit o := by
  have h1 := Finset.add_sum_erase s (fun j => unit (Function.update g i o j)) hi
  have h2 := Finset.add_sum_erase s (fun j => unit (g j)) hi
  have h3 : ∑ j ∈ s.erase i, unit (Function.update g i o j) = ∑ j ∈ s.erase i, unit (g j) :=
    Finset.sum_congr rfl fun j hj => by rw [Function.update_of_ne (Finset.ne_of_mem_erase hj)]
  rw [held, held, ← h1, ← h2, h3, Function.update_self]
  abel

theorem held_put [DecidableEq ι] (hi : i ∈ s) (hg : g i = none) (x : α) :
    held s (Function.update g i (some x)) = held s g + {x} := by
  have h := held_update hi g (some x)
  rwa [hg, unit_none, add_zero] at h

theorem held_take [DecidableEq ι] (hi : i ∈ s) (hg : g i = some x) :
    held s (Function.update g i none) + {x} = held s g := by
  have h := held_update hi g none
  rwa [hg, unit_none, add_zero] at h

theorem mem_held : x ∈ held s g ↔ ∃ i ∈ s, g i = some x := by
  rw [held, Multiset.mem_sum]
  refine exists_congr fun i => and_congr_right fun _ => ?_
  cases g i with
  | none => simp
  | some y => simp [eq_comm]

theorem card_held : (held s g).card = (s.filter fun i => (g i).isSome).card := by
  rw [held, Multiset.card_sum, Finset.card_filter]
  refine Finset.sum_congr rfl fun i _ => ?_
  cases g i <;> simp

theorem nodup_add_singleton {m : Multiset α} : (m + {x}).Nodup ↔ m.Nodup ∧ x ∉ m := by
  rw [add_comm, Multiset.singleton_add, Multiset.nodup_cons, and_comm]

end Xv6.Lib
