import Mathlib.Order.Basic

/-!
# The two `memmove`s

The kernel's `memmove` (`string.c`) copies downwards where the destination starts inside the source,
and upwards elsewhere. The one for user programs (`ulib.c`) always copies upwards: where the
destination starts inside the source, it repeats the bytes before the destination.
-/

namespace Xv6.Ulib

open Function (update update_self update_of_ne)

abbrev Memory := Nat → UInt8

/-- `while(n-- > 0) *d++ = *s++;` -/
def copyUp : Nat → Memory → Nat → Nat → Memory
  | 0, m, _, _ => m
  | n + 1, m, d, s => copyUp n (update m d (m s)) (d + 1) (s + 1)

/-- `while(n-- > 0) *--d = *--s;` -/
def copyDown : Nat → Memory → Nat → Nat → Memory
  | 0, m, _, _ => m
  | n + 1, m, d, s => copyDown n (update m (d - 1) (m (s - 1))) (d - 1) (s - 1)

/-- `memmove` of `string.c`: the result and the memory, for ranges that do not wrap. -/
def kernelMemmove (m : Memory) (dst src n : Nat) : Nat × Memory :=
  (dst, if src < dst ∧ src + n > dst then copyDown n m (dst + n) (src + n) else copyUp n m dst src)

/-- `memmove` of `ulib.c`. -/
def userMemmove (m : Memory) (vdst vsrc n : Nat) : Nat × Memory :=
  (vdst, copyUp n m vdst vsrc)

variable {m : Memory} {d s n i a : Nat}

theorem copyUp_of_out (h : a < d ∨ d + n ≤ a) : copyUp n m d s a = m a := by
  induction n generalizing m d s with
  | zero => rfl
  | succ n ih => rw [copyUp, ih (by omega), update_of_ne (by omega)]

theorem copyDown_of_out (h : a < d ∨ d + n ≤ a) : copyDown n m (d + n) (s + n) a = m a := by
  induction n generalizing m with
  | zero => rfl
  | succ n ih =>
    show copyDown n (update m (d + n) (m (s + n))) (d + n) (s + n) a = m a
    rw [ih (by omega), update_of_ne (by omega)]

/-- The byte of the source that the upward loop copies to place `i`. A destination above the source
receives the bytes between the two again and again. -/
def source (d s i : Nat) : Nat := if s < d then s + i % (d - s) else s + i

theorem copyUp_at (hi : i < n) : copyUp n m d s (d + i) = m (source d s i) := by
  induction n generalizing m d s i with
  | zero => exact absurd hi (Nat.not_lt_zero i)
  | succ n ih =>
    rw [copyUp]
    cases i with
    | zero =>
      have hfirst : source d s 0 = s := by simp [source]
      rw [copyUp_of_out (by omega), Nat.add_zero, update_self, hfirst]
    | succ i =>
      rw [show d + (i + 1) = d + 1 + i by omega, ih (by omega)]
      unfold source
      by_cases hsd : s < d
      · -- the loop has just copied the byte at `s` to `d`, and comes to `d` when the remainder
        -- is full
        have hr := Nat.mod_lt i (show d - s > 0 by omega)
        rw [if_pos (by omega), if_pos hsd, show d + 1 - (s + 1) = d - s by omega,
          Nat.add_mod_eq_ite]
        by_cases hone : d - s = 1
        · rw [show s + 1 + i % (d - s) = d by omega, update_self, hone]
          simp [Nat.mod_one]
        · rw [Nat.mod_eq_of_lt (show 1 < d - s by omega)]
          by_cases hfull : d - s ≤ i % (d - s) + 1
          · rw [if_pos hfull, show s + 1 + i % (d - s) = d by omega, update_self]
            congr 1
            omega
          · rw [if_neg hfull, update_of_ne (by omega)]
            congr 1
            omega
      · rw [if_neg (by omega), if_neg hsd, update_of_ne (by omega)]
        congr 1
        omega

theorem copyDown_at (hsd : s < d) (hi : i < n) :
    copyDown n m (d + n) (s + n) (d + i) = m (s + i) := by
  induction n generalizing m with
  | zero => exact absurd hi (Nat.not_lt_zero i)
  | succ n ih =>
    show copyDown n (update m (d + n) (m (s + n))) (d + n) (s + n) (d + i) = m (s + i)
    by_cases hin : i < n
    · rw [ih hin, update_of_ne (by omega)]
    · obtain rfl : i = n := by omega
      rw [copyDown_of_out (by omega), update_self]

theorem source_eq (h : ¬ (s < d ∧ d < s + n)) (hi : i < n) : source d s i = s + i := by
  unfold source
  split
  · rw [Nat.mod_eq_of_lt (by omega)]
  · rfl

theorem kernelMemmove_at (hi : i < n) : (kernelMemmove m d s n).2 (d + i) = m (s + i) := by
  unfold kernelMemmove
  dsimp only
  split
  · next h => exact copyDown_at h.1 hi
  · next h => rw [copyUp_at hi, source_eq h hi]

theorem kernelMemmove_of_out (h : a < d ∨ d + n ≤ a) : (kernelMemmove m d s n).2 a = m a := by
  unfold kernelMemmove
  dsimp only
  split
  · exact copyDown_of_out h
  · exact copyUp_of_out h

theorem userMemmove_at (hi : i < n) : (userMemmove m d s n).2 (d + i) = m (source d s i) :=
  copyUp_at hi

/-- The kernel's `memmove` copies the bytes of the source as they were, for all ranges. The other
one copies the byte `source dst src i` to place `i`, so that the two agree on every memory if and
only if the destination does not start inside the source. -/
theorem memmove_copies (dst src n : Nat) :
    (∀ m i, i < n → (kernelMemmove m dst src n).2 (dst + i) = m (src + i) ∧
      (userMemmove m dst src n).2 (dst + i) = m (source dst src i)) ∧
    (∀ m a, a < dst ∨ dst + n ≤ a →
      (kernelMemmove m dst src n).2 a = m a ∧ (userMemmove m dst src n).2 a = m a) ∧
    ((∀ m, userMemmove m dst src n = kernelMemmove m dst src n) ↔
      ¬ (src < dst ∧ dst < src + n)) := by
  refine ⟨fun m i hi => ⟨kernelMemmove_at hi, userMemmove_at hi⟩,
    fun m a ha => ⟨kernelMemmove_of_out ha, copyUp_of_out ha⟩, fun h hover => ?_, fun h m => ?_⟩
  · -- a memory with a byte of its own at the source
    have hbyte := congrArg (fun r => r.2 (dst + (dst - src))) (h (update (fun _ => 0) src 1))
    have hsource : source dst src (dst - src) = src := by
      simp [source, hover.1]
    rw [kernelMemmove_at (by omega), userMemmove_at (by omega), hsource, update_self,
      update_of_ne (by omega)] at hbyte
    exact absurd hbyte (by decide)
  · unfold kernelMemmove
    rw [if_neg h]
    rfl

/-- The two bytes 7, 8 at address 0 are moved up by one. -/
theorem memmove_differ :
    (kernelMemmove (fun a => [7, 8, 9].getD a 0) 1 0 2).2 2 = 8 ∧
    (userMemmove (fun a => [7, 8, 9].getD a 0) 1 0 2).2 2 = 7 := by
  decide

end Xv6.Ulib
