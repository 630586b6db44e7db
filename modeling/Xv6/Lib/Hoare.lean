import Mathlib.Init

/-!
# Postconditions for stateful code that may fail

`Sat x s Q E`: the code `x` started in `s` either ends in a state with an answer that satisfy
`Q`, or fails with an error that satisfies `E`.
-/

namespace Xv6.Lib

variable {σ ε α β : Type}

/-- What running `x` from `s` comes to. -/
def Sat (x : StateT σ (Except ε) α) (s : σ) (Q : α → σ → Prop) (E : ε → Prop) : Prop :=
  match x s with
  | .ok (a, s') => Q a s'
  | .error e => E e

variable {x : StateT σ (Except ε) α} {s s' : σ} {Q R : α → σ → Prop} {E : ε → Prop} {a : α}

theorem Sat.ok (h : Sat x s Q E) (hx : x s = .ok (a, s')) : Q a s' := by
  unfold Sat at h
  rw [hx] at h
  exact h

theorem Sat.error {e : ε} (h : Sat x s Q E) (hx : x s = .error e) : E e := by
  unfold Sat at h
  rw [hx] at h
  exact h

theorem Sat.of_ok (hx : x s = .ok (a, s')) (h : Q a s') : Sat x s Q E := by
  unfold Sat
  rw [hx]
  exact h

theorem Sat.mono (h : Sat x s Q E) (hQR : ∀ a s', Q a s' → R a s') : Sat x s R E := by
  unfold Sat at h ⊢
  cases hx : x s with
  | error e => rw [hx] at h; exact h
  | ok r => rw [hx] at h; exact hQR _ _ h

theorem Sat.and {E' : ε → Prop} (h : Sat x s Q E) (h' : Sat x s R E') :
    Sat x s (fun a s' => Q a s' ∧ R a s') (fun e => E e ∧ E' e) := by
  unfold Sat at h h' ⊢
  cases hx : x s with
  | error e =>
    rw [hx] at h h'
    exact ⟨h, h'⟩
  | ok r =>
    rw [hx] at h h'
    exact ⟨h, h'⟩

theorem Sat.monoError {F : ε → Prop} (h : Sat x s Q E) (hE : ∀ e, E e → F e) : Sat x s Q F := by
  unfold Sat at h ⊢
  cases hx : x s with
  | error e =>
    rw [hx] at h
    exact hE e h
  | ok r =>
    rw [hx] at h
    exact h

theorem Sat.bind {f : α → StateT σ (Except ε) β} {R : β → σ → Prop} (h : Sat x s Q E)
    (hf : ∀ a s', Q a s' → Sat (f a) s' R E) : Sat (x >>= f) s R E := by
  unfold Sat at h
  have hb : (x >>= f) s = match x s with
      | .ok (a, s') => f a s'
      | .error e => .error e := by
    simp only [Bind.bind, StateT.bind, Except.bind]
    cases x s <;> rfl
  unfold Sat
  rw [hb]
  cases hx : x s with
  | error e => rw [hx] at h; exact h
  | ok r =>
    rw [hx] at h
    exact hf _ _ h

theorem Sat.returns (h : Sat x s Q fun _ => False) : ∃ a s', x s = .ok (a, s') ∧ Q a s' := by
  unfold Sat at h
  cases hx : x s with
  | error e =>
    rw [hx] at h
    exact h.elim
  | ok r =>
    rw [hx] at h
    exact ⟨r.1, r.2, rfl, h⟩

theorem sat_pure (h : Q a s) : Sat (pure a : StateT σ (Except ε) α) s Q E := h

theorem sat_get {f : σ → StateT σ (Except ε) α} (h : Sat (f s) s Q E) : Sat (get >>= f) s Q E := h

theorem sat_modify {f : σ → σ} {g : PUnit → StateT σ (Except ε) α} (h : Sat (g ⟨⟩) (f s) Q E) :
    Sat (modify f >>= g) s Q E := h

theorem sat_modify_end {f : σ → σ} {Q : PUnit → σ → Prop} (h : Q ⟨⟩ (f s)) :
    Sat (modify f : StateT σ (Except ε) PUnit) s Q E := h

end Xv6.Lib
