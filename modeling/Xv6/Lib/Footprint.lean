import Mathlib.Data.Finset.Card

/-!
# Footprints

A record of elements grows at its front while code runs. `Adds F n` counts the distinct elements
that were added, those of a set `F` apart; the counts of the parts of a computation add up.
-/

namespace Xv6.Lib

section Adds

variable {α : Type} [DecidableEq α] {F F' : Finset α} {n m : Nat} {l l1 l2 k : List α} {a : α}

/-- Between `l` and `l'` elements of `F` and at most `n` others were added. -/
def Adds (F : Finset α) (n : Nat) (l l' : List α) : Prop :=
  ∃ k, l' = k ++ l ∧ (k.toFinset \ F).card ≤ n

theorem Adds.refl (F : Finset α) (n : Nat) (l : List α) : Adds F n l l :=
  ⟨[], rfl, by simp⟩

theorem Adds.trans (h : Adds F n l l1) (h' : Adds F m l1 l2) : Adds F (n + m) l l2 := by
  obtain ⟨k, rfl, hk⟩ := h
  obtain ⟨k', rfl, hk'⟩ := h'
  refine ⟨k' ++ k, (List.append_assoc _ _ _).symm, ?_⟩
  rw [List.toFinset_append, Finset.union_sdiff_distrib]
  have := Finset.card_union_le (k'.toFinset \ F) (k.toFinset \ F)
  omega

theorem Adds.mono (h : Adds F n l l1) (hF : F ⊆ F') (hn : n ≤ m) : Adds F' m l l1 := by
  obtain ⟨k, rfl, hk⟩ := h
  refine ⟨k, rfl, ?_⟩
  have := Finset.card_le_card (Finset.sdiff_subset_sdiff (Finset.Subset.refl k.toFinset) hF)
  omega

theorem Adds.of_forall {G : Finset α} (hk : ∀ b ∈ k, b ∈ F ∨ b ∈ G) (hG : G.card ≤ n) :
    Adds F n l (k ++ l) := by
  refine ⟨k, rfl, le_trans (Finset.card_le_card fun b hb => ?_) hG⟩
  simp only [Finset.mem_sdiff, List.mem_toFinset] at hb
  exact (hk b hb.1).resolve_left hb.2

theorem Adds.of_subset (hk : ∀ b ∈ k, b ∈ F) : Adds F 0 l (k ++ l) :=
  .of_forall (G := ∅) (fun b hb => .inl (hk b hb)) le_rfl

theorem Adds.card (h : Adds F n l l1) : ∃ k, l1 = k ++ l ∧ k.toFinset.card ≤ F.card + n := by
  obtain ⟨k, rfl, hk⟩ := h
  refine ⟨k, rfl, ?_⟩
  have h1 : k.toFinset.card ≤ (F ∪ k.toFinset).card := Finset.card_le_card Finset.subset_union_right
  rw [← Finset.union_sdiff_self_eq_union] at h1
  have := Finset.card_union_le F (k.toFinset \ F)
  omega

end Adds

end Xv6.Lib
