import Xv6.Lib.Interleave

/-!
# Paths through a program, and automata on their labels

A `Path` is a way through the actions of one process, from any states that satisfy an assumption:
between two actions the others may have done anything that keeps it. An automaton reads the labels
on the way. `Guided x o o'` says that on no path through `x` it gets stuck from state `o` on, and
that it is in `o'` at the end.
-/

namespace Xv6.Lib

variable {π σ ℓ ω α β γ : Type}

namespace Prog

/-- The labels on a way through a program, and its answer if the way leads to the end. The last
action of another way may be one that panics or never finishes. -/
inductive Path (I : σ → Prop) (p : π) : Prog π σ ℓ α → List ℓ → Option α → Prop
  | stop (x : Prog π σ ℓ α) : Path I p x [] none
  | ret (a : α) : Path I p (.ret a) [] (some a)
  | tried {β : Type} (l : ℓ) (f : π → σ → Outcome σ β) (k : β → Prog π σ ℓ α) :
    Path I p (.act l f k) [l] none
  | act {β : Type} {l : ℓ} {f : π → σ → Outcome σ β} {k : β → Prog π σ ℓ α} {s s' : σ} {b : β}
    {tr : List ℓ} {r : Option α} (hI : I s) (hf : f p s = .done b s') (h : Path I p (k b) tr r) :
    Path I p (.act l f k) (l :: tr) r

variable {next : ω → ℓ → Option ω} {I : σ → Prop} {p : π} {o u o' : ω}

/-- The automaton reads every path through `x` from `o` on, and is in `o'` at the end. -/
def Guided (next : ω → ℓ → Option ω) (I : σ → Prop) (p : π) (o o' : ω) (x : Prog π σ ℓ α) : Prop :=
  ∀ tr r, Path I p x tr r → ∃ o1, tr.foldlM next o = some o1 ∧ (r.isSome → o1 = o')

theorem guided_ret (a : α) : Guided next I p o o (.ret a : Prog π σ ℓ α) := by
  intro tr r h
  cases h with
  | stop => exact ⟨o, rfl, nofun⟩
  | ret => exact ⟨o, rfl, fun _ => rfl⟩

variable {l : ℓ} {f : π → σ → Outcome σ β}

theorem guided_act {k : β → Prog π σ ℓ α} (hl : next o l = some u)
    (hk : ∀ b, (∃ s s', I s ∧ f p s = .done b s') → Guided next I p u o' (k b)) :
    Guided next I p o o' (.act l f k) := by
  intro tr r h
  cases h with
  | stop => exact ⟨o, rfl, nofun⟩
  | tried => exact ⟨u, by simp [hl], nofun⟩
  | act hI hf h =>
    obtain ⟨o2, htr, hr⟩ := hk _ ⟨_, _, hI, hf⟩ _ _ h
    exact ⟨o2, by simp [hl, htr], hr⟩

theorem guided_step (hl : next o l = some o') : Guided next I p o o' (step l f : Prog π σ ℓ β) :=
  guided_act hl fun b _ => guided_ret b

theorem guided_step_bind {g : β → Prog π σ ℓ γ} (hl : next o l = some u)
    (hg : ∀ b, (∃ s s', I s ∧ f p s = .done b s') → Guided next I p u o' (g b)) :
    Guided next I p o o' (step l f >>= g) :=
  guided_act hl hg

theorem guided_bind {x : Prog π σ ℓ α} {g : α → Prog π σ ℓ γ} (hx : Guided next I p o u x)
    (hg : ∀ a, Guided next I p u o' (g a)) : Guided next I p o o' (x >>= g) := by
  induction x generalizing o with
  | ret a =>
    obtain ⟨o2, h2, hr⟩ := hx [] _ (.ret a)
    cases h2
    cases hr rfl
    exact hg a
  | act l f k ih =>
    rw [act_bind]
    obtain ⟨o2, h2, -⟩ := hx [l] _ (.tried l f k)
    have hl : next o l = some o2 := by simpa using h2
    refine guided_act hl fun b hb => ih b fun tr r h => ?_
    obtain ⟨s, s', hI, hf⟩ := hb
    obtain ⟨o3, h3, hr⟩ := hx (l :: tr) r (.act hI hf h)
    exact ⟨o3, by simpa [hl] using h3, hr⟩

end Prog

end Xv6.Lib
