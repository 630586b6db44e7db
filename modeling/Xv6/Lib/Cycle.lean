import Mathlib.Data.Finset.Card
import Mathlib.Data.List.Chain
import Mathlib.Data.Nat.ModEq

/-!
# Turns in a circle

A finite set `B` of a linear order is run through in a circle: after an element comes the next
larger one, and after the largest the smallest. Whoever is served in this order is served once in
any `B.card` turns.
-/

namespace Xv6.Lib

variable {α : Type} [LinearOrder α] {B : Finset α} {x y : α}

/-- `y` comes after `x` in the circle. -/
def Follows (B : Finset α) (x y : α) : Prop :=
  y ∈ B ∧ (x < y ∧ (∀ z ∈ B, x < z → y ≤ z) ∨ (∀ z ∈ B, z ≤ x) ∧ ∀ z ∈ B, y ≤ z)

/-- The number of elements before `x`. -/
def rank (B : Finset α) (x : α) : Nat := (B.filter (· < x)).card

theorem rank_lt_card (hx : x ∈ B) : rank B x < B.card :=
  Finset.card_lt_card ⟨Finset.filter_subset _ _, fun hsub =>
    lt_irrefl x (Finset.mem_filter.1 (hsub hx)).2⟩

theorem Follows.rank (h : Follows B x y) (hx : x ∈ B) :
    rank B y = (rank B x + 1) % B.card := by
  obtain ⟨hy, ⟨hlt, hnext⟩ | ⟨hlast, hfirst⟩⟩ := h
  · have hins : B.filter (· < y) = insert x (B.filter (· < x)) := by
      ext z
      rw [Finset.mem_filter, Finset.mem_insert, Finset.mem_filter]
      constructor
      · rintro ⟨hz, hzy⟩
        rcases lt_trichotomy z x with hzx | hzx | hzx
        · exact .inr ⟨hz, hzx⟩
        · exact .inl hzx
        · exact absurd hzy (not_lt.2 (hnext z hz hzx))
      · rintro (rfl | ⟨hz, hzx⟩)
        · exact ⟨hx, hlt⟩
        · exact ⟨hz, hzx.trans hlt⟩
    have hnot : x ∉ B.filter (· < x) := fun hmem => lt_irrefl x (Finset.mem_filter.1 hmem).2
    have hcard : Lib.rank B y = Lib.rank B x + 1 := by
      unfold Lib.rank
      rw [hins, Finset.card_insert_of_notMem hnot]
    rw [← hcard, Nat.mod_eq_of_lt (rank_lt_card hy)]
  · have hzero : Lib.rank B y = 0 := by
      refine Finset.card_eq_zero.2 (Finset.filter_eq_empty_iff.2 fun {z} hz => ?_)
      exact not_lt.2 (hfirst z hz)
    have herase : B.filter (· < x) = B.erase x := by
      ext z
      rw [Finset.mem_filter, Finset.mem_erase]
      exact ⟨fun ⟨hz, hzx⟩ => ⟨hzx.ne, hz⟩, fun ⟨hne, hz⟩ => ⟨hz, lt_of_le_of_ne (hlast z hz) hne⟩⟩
    have hlast' : Lib.rank B x + 1 = B.card := by
      unfold Lib.rank
      rw [herase, Finset.card_erase_add_one hx]
    rw [hzero, hlast', Nat.mod_self]

theorem rank_getElem {l : List α} (hmem : ∀ x ∈ l, x ∈ B)
    (hl : l.IsChain fun a b => Follows B b a) {a : α} (ha : l.head? = some a) {j : Nat}
    (hj : l[j]? = some y) : (rank B y + j) % B.card = rank B a := by
  induction l generalizing a j with
  | nil => cases ha
  | cons b l ih =>
    obtain rfl : b = a := Option.some.inj ha
    cases j with
    | zero =>
      obtain rfl : b = y := Option.some.inj hj
      exact Nat.mod_eq_of_lt (rank_lt_card (hmem b List.mem_cons_self))
    | succ j =>
      rw [List.getElem?_cons_succ] at hj
      cases l with
      | nil => cases hj
      | cons d l =>
        rw [List.isChain_cons_cons] at hl
        have hrest := ih (fun x hx => hmem x (List.mem_cons_of_mem _ hx)) hl.2 rfl hj
        rw [hl.1.rank (hmem d (by simp)), ← hrest, ← Nat.add_assoc, Nat.mod_add_mod]

theorem count_turns {l : List α} (hmem : ∀ x ∈ l, x ∈ B)
    (hl : l.IsChain fun a b => Follows B b a) (hlen : l.length = B.card) (hx : x ∈ B) :
    l.count x = 1 := by
  have hnd : l.Nodup := by
    rw [List.nodup_iff_injective_get]
    rintro ⟨i, hi⟩ ⟨j, hj⟩ heq
    obtain ⟨a, ha⟩ : ∃ a, l.head? = some a := by
      cases l with
      | nil => exact absurd hi (Nat.not_lt_zero _)
      | cons a l => exact ⟨a, rfl⟩
    have h1 := rank_getElem hmem hl ha (List.getElem?_eq_getElem hi)
    have h2 := rank_getElem hmem hl ha (List.getElem?_eq_getElem hj)
    simp only [List.get_eq_getElem] at heq
    rw [heq, ← h2] at h1
    have hmod : i % B.card = j % B.card := Nat.ModEq.add_left_cancel' (rank B l[j]) h1
    rw [Nat.mod_eq_of_lt (hlen ▸ hi), Nat.mod_eq_of_lt (hlen ▸ hj)] at hmod
    exact Fin.ext hmod
  have hfin : l.toFinset = B := by
    refine Finset.eq_of_subset_of_card_le (fun z hz => hmem z (List.mem_toFinset.1 hz)) ?_
    rw [List.toFinset_card_of_nodup hnd, hlen]
  exact List.count_eq_one_of_mem hnd (List.mem_toFinset.1 (hfin ▸ hx))

end Xv6.Lib
