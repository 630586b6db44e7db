import Mathlib.Logic.Function.Basic

/-!
# Units with at most one owner, and a map of the units in use

Places `κ` refer to units, numbers from `lo` to below `hi`; a place that refers to none holds 0.
A map of marks says which units are in use. `Owned` is the invariant of an allocator over them:
no unit is referred to from two places, and the marked units are those below `lo`, those that are
referred to and those in transit, which have been taken and not yet attached to a place, or
detached and not yet given back.
-/

namespace Xv6.Lib

open Function (update update_of_ne update_self)

variable {κ : Type} {lo hi : Nat} {R R' : κ → Nat} {E E' : Nat → Prop} {mark mark' : Nat → Bool}
  {b : Nat} {k : κ}

/-- Every unit has at most one owner and the marks are exact; the units in `E` are in transit. -/
structure Owned (lo hi : Nat) (R : κ → Nat) (E : Nat → Prop) (mark : Nat → Bool) : Prop where
  pos : 0 < lo
  range : ∀ k, R k ≠ 0 → lo ≤ R k ∧ R k < hi
  inj : ∀ k k', R k = R k' → R k ≠ 0 → k = k'
  transit : ∀ b, E b → lo ≤ b ∧ b < hi ∧ ∀ k, R k ≠ b
  marks : ∀ b < hi, mark b = true ↔ b < lo ∨ E b ∨ ∃ k, R k = b

namespace Owned

section

variable (h : Owned lo hi R E mark)

include h

theorem congr (hR : ∀ k, R' k = R k) (hE : ∀ b, E' b ↔ E b) (hm : ∀ b < hi, mark' b = mark b) :
    Owned lo hi R' E' mark' := by
  obtain rfl : R' = R := funext hR
  obtain rfl : E' = E := funext fun b => propext (hE b)
  refine ⟨h.pos, h.range, h.inj, h.transit, fun b hb => ?_⟩
  rw [hm b hb]
  exact h.marks b hb

theorem unmarked (hb : b < hi) (hm : mark b = false) : lo ≤ b ∧ ¬ E b ∧ ∀ k, R k ≠ b := by
  have hnot : ¬ (b < lo ∨ E b ∨ ∃ k, R k = b) := by
    rw [← h.marks b hb, hm]
    decide
  refine ⟨?_, fun hE => hnot (.inr (.inl hE)), fun k hk => hnot (.inr (.inr ⟨k, hk⟩))⟩
  by_contra hlt
  exact hnot (.inl (by omega))

theorem take (hb : b < hi) (hm : mark b = false) :
    Owned lo hi R (fun c => c = b ∨ E c) (update mark b true) := by
  obtain ⟨hlo, -, hR⟩ := h.unmarked hb hm
  refine ⟨h.pos, h.range, h.inj, fun c hc => ?_, fun c hc => ?_⟩
  · rcases hc with rfl | hc
    · exact ⟨hlo, hb, hR⟩
    · exact h.transit c hc
  · by_cases hcb : c = b
    · subst hcb
      simp
    · rw [update_of_ne hcb, h.marks c hc]
      simp [hcb]

theorem attach [DecidableEq κ] (hE : E b) (hk : R k = 0) :
    Owned lo hi (update R k b) (fun c => E c ∧ c ≠ b) mark := by
  obtain ⟨hlo, hhi, hR⟩ := h.transit b hE
  refine ⟨h.pos, fun j hj => ?_, fun j j' he hj => ?_, fun c hc => ?_, fun c hc => ?_⟩
  · by_cases hjk : j = k
    · subst hjk
      rw [update_self]
      exact ⟨hlo, hhi⟩
    · rw [update_of_ne hjk] at hj ⊢
      exact h.range j hj
  · by_cases hjk : j = k <;> by_cases hjk' : j' = k
    · rw [hjk, hjk']
    · subst hjk
      rw [update_self, update_of_ne hjk'] at he
      exact absurd he.symm (hR j')
    · subst hjk'
      rw [update_self, update_of_ne hjk] at he
      exact absurd he (hR j)
    · rw [update_of_ne hjk] at he hj
      rw [update_of_ne hjk'] at he
      exact h.inj j j' he hj
  · obtain ⟨hclo, hchi, hcR⟩ := h.transit c hc.1
    refine ⟨hclo, hchi, fun j => ?_⟩
    by_cases hjk : j = k
    · subst hjk
      rw [update_self]
      exact hc.2.symm
    · rw [update_of_ne hjk]
      exact hcR j
  · rw [h.marks c hc]
    by_cases hcb : c = b
    · subst hcb
      exact ⟨fun _ => .inr (.inr ⟨k, update_self ..⟩), fun _ => .inr (.inl hE)⟩
    · constructor
      · rintro (hlt | hE | ⟨j, hj⟩)
        · exact .inl hlt
        · exact .inr (.inl ⟨hE, hcb⟩)
        · by_cases hjk : j = k
          · -- the place was empty, so `c` is 0
            subst hjk
            have := h.pos
            exact .inl (by omega)
          · exact .inr (.inr ⟨j, by rw [update_of_ne hjk, hj]⟩)
      · rintro (hlt | ⟨hE, -⟩ | ⟨j, hj⟩)
        · exact .inl hlt
        · exact .inr (.inl hE)
        · by_cases hjk : j = k
          · subst hjk
            rw [update_self] at hj
            exact absurd hj.symm hcb
          · exact .inr (.inr ⟨j, by rwa [update_of_ne hjk] at hj⟩)

theorem detach (S : κ → Prop) [DecidablePred S] : Owned lo hi (fun k => if S k then 0 else R k)
      (fun c => E c ∨ (c ≠ 0 ∧ ∃ k, S k ∧ R k = c)) mark := by
  refine ⟨h.pos, fun j hj => ?_, fun j j' he hj => ?_, fun c hc => ?_, fun c hc => ?_⟩
  · split at hj
    · exact absurd rfl hj
    · next hS =>
      rw [if_neg hS]
      exact h.range j hj
  · split at he
    · next hS => simp [hS] at hj
    · next hS =>
      rw [if_neg hS] at hj
      split at he
      · exact absurd he hj
      · exact h.inj j j' he hj
  · rcases hc with hc | ⟨hc0, k, hS, rfl⟩
    · obtain ⟨h1, h2, h3⟩ := h.transit c hc
      refine ⟨h1, h2, fun j => ?_⟩
      have := h.pos
      split
      · omega
      · exact h3 j
    · obtain ⟨h1, h2⟩ := h.range k hc0
      refine ⟨h1, h2, fun j => ?_⟩
      have := h.pos
      split
      · omega
      · next hj =>
        intro he
        exact hj (h.inj k j he.symm hc0 ▸ hS)
  · rw [h.marks c hc]
    by_cases hcl : c < lo
    · simp [hcl]
    · have hpos := h.pos
      refine or_congr_right ⟨?_, ?_⟩
      · rintro (hE | ⟨k, hk⟩)
        · exact .inl (.inl hE)
        · by_cases hS : S k
          · exact .inl (.inr ⟨by omega, k, hS, hk⟩)
          · exact .inr ⟨k, by rw [if_neg hS, hk]⟩
      · rintro ((hE | ⟨-, k, -, hk⟩) | ⟨k, hk⟩)
        · exact .inl hE
        · exact .inr ⟨k, hk⟩
        · split at hk
          · omega
          · exact .inr ⟨k, hk⟩

theorem release (hE : E b) :
    mark b = true ∧ Owned lo hi R (fun c => E c ∧ c ≠ b) (update mark b false) := by
  obtain ⟨hlo, hhi, hR⟩ := h.transit b hE
  refine ⟨(h.marks b hhi).2 (.inr (.inl hE)), h.pos, h.range, h.inj, fun c hc => h.transit c hc.1,
    fun c hc => ?_⟩
  by_cases hcb : c = b
  · subst hcb
    rw [update_self]
    simp only [Bool.false_eq_true, false_iff, not_or, not_exists]
    exact ⟨by omega, fun hc => hc.2 rfl, hR⟩
  · rw [update_of_ne hcb, h.marks c hc]
    simp [hcb]

end

end Owned

end Xv6.Lib
