import Mathlib.Order.Basic

/-!
# Interleaved programs over a shared state

A process runs a `Prog`: a tree of atomic actions on a shared state. An action finishes
with an answer, goes back to sleep and will be tried again, cannot run now, panics, or has
no defined behaviour. A `Config` holds the shared state and what is left of every process's
program, and a run is made of actions of single processes, starts of new calls by processes
whose programs are finished, and moves of the environment.

Safety over all interleavings is proved thread by thread. A `Proto` gives an invariant of
the shared state and, for each process, a view of it that the other processes leave alone.
`wp` says of one program that each of its actions keeps the invariant and every other view,
whatever the rest of the state is; `reach_sound` turns this into an invariant of every
reachable configuration.
-/

namespace Xv6.Lib

/-! ## Programs -/

/-- What one atomic action does. `again` is a process that went to sleep inside a retry
loop: the state changed and the same action is tried again later. `fault` is undefined
behaviour of the source. -/
inductive Outcome (σ β : Type) where
  | done (b : β) (s : σ)
  | again (s : σ)
  | blocked
  | panic (msg : String)
  | fault

/-- Programs of processes `π` over the shared state `σ`; every action carries a label. -/
inductive Prog (π σ ℓ α : Type) : Type 1 where
  | ret (a : α)
  | act {β : Type} (l : ℓ) (f : π → σ → Outcome σ β) (k : β → Prog π σ ℓ α)

namespace Prog

variable {π σ ℓ α β γ : Type}

protected def bind : Prog π σ ℓ α → (α → Prog π σ ℓ γ) → Prog π σ ℓ γ
  | .ret a, g => g a
  | .act l f k, g => .act l f (fun b => (k b).bind g)

instance : Monad (Prog π σ ℓ) where
  pure := .ret
  bind := Prog.bind

@[simp] theorem pure_eq (a : α) : (pure a : Prog π σ ℓ α) = .ret a := rfl

@[simp] theorem ret_bind (a : α) (g : α → Prog π σ ℓ γ) : (Prog.ret a >>= g) = g a := rfl

@[simp] theorem act_bind (l : ℓ) (f : π → σ → Outcome σ β) (k : β → Prog π σ ℓ α)
    (g : α → Prog π σ ℓ γ) : (Prog.act l f k >>= g) = .act l f (fun b => k b >>= g) := rfl

def step (l : ℓ) (f : π → σ → Outcome σ β) : Prog π σ ℓ β := .act l f .ret

def run (p : π) : Prog π σ ℓ α → σ → Option (α × σ)
  | .ret a, s => some (a, s)
  | .act _ f k, s =>
    match f p s with
    | .done b s' => (k b).run p s'
    | _ => none

/-- The state after at most `n` actions of a program that runs alone. -/
def runFor (p : π) : Nat → Prog π σ ℓ α → σ → σ
  | 0, _, s => s
  | _ + 1, .ret _, s => s
  | n + 1, .act _ f k, s =>
    match f p s with
    | .done b s' => (k b).runFor p n s'
    | _ => s

/-- Total correctness of a program that runs alone: it finishes, `I` holds at every
point of the run, and the end satisfies `Q`. -/
def seq (p : π) (I : σ → Prop) : Prog π σ ℓ α → (α → σ → Prop) → σ → Prop
  | .ret a, Q, s => I s ∧ Q a s
  | .act _ f k, Q, s => I s ∧
    match f p s with
    | .done b s' => (k b).seq p I Q s'
    | .again _ => False
    | .blocked => False
    | .panic _ => False
    | .fault => False

variable {p : π} {x : Prog π σ ℓ α} {g : α → Prog π σ ℓ γ} {I : σ → Prop} {Q R : α → σ → Prop}
  {E : Prop}
  {s s' : σ} {l : ℓ} {f : π → σ → Outcome σ β} {a : α} {b : β} {m : String}

theorem seq_inv (h : x.seq p I Q s) : I s := by
  cases x with
  | ret a => exact h.1
  | act l f k =>
    simp only [seq] at h
    exact h.1

theorem seq_done {k : β → Prog π σ ℓ α} (h : (act l f k).seq p I Q s) :
    ∃ b s', f p s = .done b s' ∧ (k b).seq p I Q s' := by
  simp only [seq] at h
  cases hf : f p s with
  | done b s' =>
    rw [hf] at h
    exact ⟨b, s', rfl, h.2⟩
  | again s' => rw [hf] at h; exact h.2.elim
  | blocked => rw [hf] at h; exact h.2.elim
  | panic m => rw [hf] at h; exact h.2.elim
  | fault => rw [hf] at h; exact h.2.elim

theorem seq_bind {Q : γ → σ → Prop} (h : x.seq p I (fun a s' => (g a).seq p I Q s') s) :
    (x >>= g).seq p I Q s := by
  induction x generalizing s with
  | ret a => exact h.2
  | act l f k ih =>
    obtain ⟨b, s', hf, hk⟩ := seq_done h
    simp only [act_bind, seq, hf]
    exact ⟨seq_inv h, ih b hk⟩

theorem seq_step {g : β → Prog π σ ℓ γ} {Q : γ → σ → Prop} (hI : I s)
    (hf : f p s = .done b s') (h : (g b).seq p I Q s') : (step l f >>= g).seq p I Q s := by
  simp only [step, act_bind, ret_bind, seq, hf]
  exact ⟨hI, h⟩

theorem seq_last {Q : β → σ → Prop} (hI : I s) (hf : f p s = .done b s') (hI' : I s')
    (h : Q b s') : (step l f).seq p I Q s := by
  simp only [step, seq, hf]
  exact ⟨hI, hI', h⟩

theorem seq_mono {J : σ → Prop} (h : x.seq p I Q s) (hIJ : ∀ s, I s → J s)
    (hQR : ∀ a s, I s → Q a s → R a s) : x.seq p J R s := by
  induction x generalizing s with
  | ret a => exact ⟨hIJ s h.1, hQR a s h.1 h.2⟩
  | act l f k ih =>
    obtain ⟨b, s', hf, hk⟩ := seq_done h
    simp only [seq, hf]
    exact ⟨hIJ s (seq_inv h), ih b hk⟩

theorem run_done {k : β → Prog π σ ℓ α} (h : (act l f k).run p s = some (a, s')) :
    ∃ b s₁, f p s = .done b s₁ ∧ (k b).run p s₁ = some (a, s') := by
  simp only [run] at h
  cases hf : f p s with
  | done b s₁ =>
    rw [hf] at h
    exact ⟨b, s₁, rfl, h⟩
  | again s₁ => rw [hf] at h; cases h
  | blocked => rw [hf] at h; cases h
  | panic m => rw [hf] at h; cases h
  | fault => rw [hf] at h; cases h

theorem seq_runFor (h : x.seq p I Q s) (n : Nat) : I (x.runFor p n s) := by
  induction x generalizing s n with
  | ret a => cases n with
    | zero => exact h.1
    | succ n => exact h.1
  | act l f k ih =>
    cases n with
    | zero => exact seq_inv h
    | succ n =>
      obtain ⟨b, s', hf, hk⟩ := seq_done h
      simp only [runFor, hf]
      exact ih b hk n

theorem seq_run (h : x.seq p I Q s) : ∃ a s', x.run p s = some (a, s') ∧ I s' ∧ Q a s' := by
  induction x generalizing s with
  | ret a => exact ⟨a, s, rfl, h.1, h.2⟩
  | act l f k ih =>
    obtain ⟨b, s', hf, hk⟩ := seq_done h
    simp only [run, hf]
    exact ih b hk

theorem run_bind (h : x.run p s = some (a, s')) : (x >>= g).run p s = (g a).run p s' := by
  induction x generalizing s with
  | ret b =>
    cases h
    rfl
  | act l f k ih =>
    obtain ⟨b, s1, hf, hk⟩ := run_done h
    simp only [act_bind, run, hf]
    exact ih b hk

theorem run_step (h : f p s = .done b s') :
    (step l f : Prog π σ ℓ β).run p s = some (b, s') := by
  simp only [step, run, h]

def panicOf (p : π) : Prog π σ ℓ α → σ → Option String
  | .ret _, _ => none
  | .act _ f k, s =>
    match f p s with
    | .done b s' => (k b).panicOf p s'
    | .panic msg => some msg
    | _ => none

/-- Partial correctness of a program that runs alone: if it finishes, the end satisfies `Q`. -/
def after (p : π) (x : Prog π σ ℓ α) (Q : α → σ → Prop) (s : σ) : Prop :=
  ∀ a s', x.run p s = some (a, s') → Q a s'

theorem after_of_run (hx : x.run p s = some (a, s')) (h : Q a s') : x.after p Q s := by
  intro b t hb
  cases hx.symm.trans hb
  exact h

theorem after_ret (h : Q a s) : (.ret a : Prog π σ ℓ α).after p Q s := by
  rintro _ _ ⟨⟩
  exact h

theorem after_step {Q : β → σ → Prop} (h : ∀ b s', f p s = .done b s' → Q b s') :
    (step l f).after p Q s := by
  intro b s' hrun
  obtain ⟨b', s1, hf, hk⟩ := run_done hrun
  cases hk
  exact h b s' hf

theorem after_bind {Q : γ → σ → Prop} (h : x.after p (fun a s' => (g a).after p Q s') s) :
    (x >>= g).after p Q s := by
  induction x generalizing s with
  | ret a => exact h a s rfl
  | act l f k ih =>
    intro c s' hrun
    obtain ⟨b, s1, hf, hrest⟩ := run_done hrun
    refine ih b (fun a s2 hk => h a s2 ?_) c s' hrest
    simp only [run, hf]
    exact hk

theorem after_mono (h : x.after p Q s) (hQR : ∀ a s, Q a s → R a s) : x.after p R s :=
  fun a s' hrun => hQR a s' (h a s' hrun)

/-- A program that runs alone finishes with `Q`, or there is the excuse `E`. -/
def ends (p : π) (E : Prop) (x : Prog π σ ℓ α) (Q : α → σ → Prop) (s : σ) : Prop :=
  match x.run p s with
  | some (a, s') => Q a s'
  | none => E

theorem ends_run (h : x.ends p E Q s) (hE : ¬ E) :
    ∃ a s', x.run p s = some (a, s') ∧ Q a s' := by
  unfold ends at h
  cases hx : x.run p s with
  | none =>
    rw [hx] at h
    exact absurd h hE
  | some r =>
    rw [hx] at h
    exact ⟨r.1, r.2, rfl, h⟩

theorem ends_after (h : x.ends p E Q s) : x.after p Q s := by
  intro a s' hrun
  unfold ends at h
  rw [hrun] at h
  exact h

theorem ends_ret (h : Q a s) : (.ret a : Prog π σ ℓ α).ends p E Q s := h

theorem ends_step {Q : β → σ → Prop} (hf : f p s = .done b s') (h : Q b s') :
    (step l f).ends p E Q s := by
  unfold ends
  rw [run_step hf]
  exact h

theorem ends_excuse (hx : x.run p s = none) (h : E) : x.ends p E Q s := by
  unfold ends
  rw [hx]
  exact h

theorem run_bind_none (h : x.run p s = none) : (x >>= g).run p s = none := by
  induction x generalizing s with
  | ret b => cases h
  | act l f k ih =>
    simp only [act_bind, run] at h ⊢
    cases hf : f p s with
    | done b s1 =>
      rw [hf] at h
      exact ih b h
    | again s1 => rfl
    | blocked => rfl
    | panic m => rfl
    | fault => rfl

theorem ends_bind {R : γ → σ → Prop} (h : x.ends p E Q s)
    (hg : ∀ a s', Q a s' → (g a).ends p E R s') : (x >>= g).ends p E R s := by
  unfold ends at h
  cases hx : x.run p s with
  | none =>
    rw [hx] at h
    exact ends_excuse (run_bind_none hx) h
  | some r =>
    rw [hx] at h
    have := hg r.1 r.2 h
    unfold ends at this ⊢
    rw [run_bind hx]
    exact this

theorem ends_mono (h : x.ends p E Q s) (hQR : ∀ a s, Q a s → R a s) : x.ends p E R s := by
  unfold ends at h ⊢
  cases hx : x.run p s with
  | none =>
    rw [hx] at h
    exact h
  | some r =>
    rw [hx] at h
    exact hQR _ _ h

end Prog

/-! ## Configurations and their steps -/

structure Config (π σ ℓ : Type) where
  shared : σ
  prog : π → Prog π σ ℓ Unit

/-- The calls a process may make when its program is finished, and the moves the
environment makes by itself. -/
structure Sys (π σ ℓ : Type) where
  calls : π → σ → Prog π σ ℓ Unit → Prop
  env : σ → σ → Prop

section Steps

variable {π σ ℓ : Type} {c c' : Config π σ ℓ}

/-- The next action of process `p` panics. -/
def Config.Panics (c : Config π σ ℓ) (p : π) (msg : String) : Prop :=
  match c.prog p with
  | .ret _ => False
  | .act _ f _ => match f p c.shared with
    | .panic m => m = msg
    | _ => False

instance (c : Config π σ ℓ) (p : π) (msg : String) : Decidable (c.Panics p msg) := by
  unfold Config.Panics
  split
  · exact inferInstanceAs (Decidable False)
  · split
    · infer_instance
    · exact inferInstanceAs (Decidable False)

/-- The label of the next action of process `p`. -/
def Config.next (c : Config π σ ℓ) (p : π) : Option ℓ :=
  match c.prog p with
  | .ret _ => none
  | .act l _ _ => some l

def Config.start (s : σ) : Config π σ ℓ := ⟨s, fun _ => .ret ()⟩

variable [DecidableEq π]

/-- One action of process `p`. -/
def Config.exec (c : Config π σ ℓ) (p : π) : Option (Config π σ ℓ) :=
  match c.prog p with
  | .ret _ => none
  | .act _ f k =>
    match f p c.shared with
    | .done b s => some ⟨s, Function.update c.prog p (k b)⟩
    | .again s => some ⟨s, c.prog⟩
    | _ => none

theorem Config.exec_act {p : π} {β : Type} {l : ℓ} {f : π → σ → Outcome σ β}
    {k : β → Prog π σ ℓ Unit} (hx : c.prog p = .act l f k) (he : c.exec p = some c') :
    (∃ b s, f p c.shared = .done b s ∧ c' = ⟨s, Function.update c.prog p (k b)⟩) ∨
      ∃ s, f p c.shared = .again s ∧ c' = ⟨s, c.prog⟩ := by
  simp only [Config.exec, hx] at he
  cases hf : f p c.shared with
  | done b s =>
    simp only [hf, Option.some.injEq] at he
    exact .inl ⟨b, s, rfl, he.symm⟩
  | again s =>
    simp only [hf, Option.some.injEq] at he
    exact .inr ⟨s, rfl, he.symm⟩
  | blocked => simp only [hf, reduceCtorEq] at he
  | panic m => simp only [hf, reduceCtorEq] at he
  | fault => simp only [hf, reduceCtorEq] at he

/-- Process `p` starts the call `x`. -/
def Config.call (c : Config π σ ℓ) (p : π) (x : Prog π σ ℓ Unit) : Config π σ ℓ :=
  { c with prog := Function.update c.prog p x }

/-- Runs in which every action satisfies `ok` in the configuration it starts from. -/
inductive Run (S : Sys π σ ℓ) (ok : Config π σ ℓ → π → Prop) (c : Config π σ ℓ) :
    Config π σ ℓ → Prop
  | refl : Run S ok c c
  | call {c₁ p x} : Run S ok c c₁ → c₁.prog p = .ret () → S.calls p c₁.shared x →
    Run S ok c (c₁.call p x)
  | exec {c₁ c2 p} : Run S ok c c₁ → ok c₁ p → c₁.exec p = some c2 → Run S ok c c2
  | env {c₁ s} : Run S ok c c₁ → S.env c₁.shared s → Run S ok c { c₁ with shared := s }

def Reach (S : Sys π σ ℓ) (c c' : Config π σ ℓ) : Prop := Run S (fun _ _ => True) c c'

theorem Run.reach {S : Sys π σ ℓ} {ok : Config π σ ℓ → π → Prop} (h : Run S ok c c') :
    Reach S c c' := by
  induction h with
  | refl => exact .refl
  | call _ hp hx ih => exact .call ih hp hx
  | exec _ _ he ih => exact .exec ih trivial he
  | env _ he ih => exact .env ih he

/-! ## Scripts -/

/-- In a script a process starts a call, named by a `κ`, or takes `n` actions. -/
inductive Move (π κ : Type) where
  | call (p : π) (k : κ)
  | act (p : π) (n : Nat)

variable (ok : Config π σ ℓ → π → Prop) [∀ c p, Decidable (ok c p)]

/-- `n` actions of process `p`, each of which satisfies `ok`. -/
def Config.execN (p : π) : Nat → Config π σ ℓ → Option (Config π σ ℓ)
  | 0, c => some c
  | n + 1, c =>
    match c.exec p with
    | some c' => if ok c p then c'.execN p n else none
    | none => none

/-- Play a script; `mk` says which program a named call stands for. -/
def Config.play {κ : Type} (mk : π → σ → κ → Option (Prog π σ ℓ Unit)) :
    List (Move π κ) → Config π σ ℓ → Option (Config π σ ℓ)
  | [], c => some c
  | .act p n :: ms, c =>
    match c.execN ok p n with
    | some c' => c'.play mk ms
    | none => none
  | .call p k :: ms, c =>
    match c.prog p, mk p c.shared k with
    | .ret _, some x => (c.call p x).play mk ms
    | _, _ => none

variable {ok}

theorem Run.execN {S : Sys π σ ℓ} {c0 : Config π σ ℓ} {p : π} {n : Nat} (hr : Run S ok c0 c)
    (h : c.execN ok p n = some c') : Run S ok c0 c' := by
  induction n generalizing c with
  | zero =>
    cases h
    exact hr
  | succ n ih =>
    simp only [Config.execN] at h
    cases he : c.exec p with
    | none => rw [he] at h; cases h
    | some c1 =>
      simp only [he, Option.ite_none_right_eq_some] at h
      exact ih (.exec hr h.1 he) h.2

variable {κ : Type}

theorem Run.play {S : Sys π σ ℓ} {mk : π → σ → κ → Option (Prog π σ ℓ Unit)}
    (hmk : ∀ p s k x, mk p s k = some x → S.calls p s x) {c0 : Config π σ ℓ} {ms : List (Move π κ)}
    (hr : Run S ok c0 c) (h : c.play ok mk ms = some c') : Run S ok c0 c' := by
  induction ms generalizing c with
  | nil =>
    cases h
    exact hr
  | cons m ms ih =>
    cases m with
    | act p n =>
      simp only [Config.play] at h
      cases he : c.execN ok p n with
      | none => rw [he] at h; cases h
      | some c1 =>
        rw [he] at h
        exact ih (hr.execN he) h
    | call p k =>
      simp only [Config.play] at h
      split at h
      · rename_i a x hp hx
        exact ih (.call hr hp (hmk _ _ _ _ hx)) h
      · cases h

theorem Run.of_play (S : Sys π σ ℓ) (ok : Config π σ ℓ → π → Prop) [∀ c p, Decidable (ok c p)]
    {mk : π → σ → κ → Option (Prog π σ ℓ Unit)} (hmk : ∀ p s k x, mk p s k = some x → S.calls p s x)
    (ms : List (Move π κ)) {P : Config π σ ℓ → Prop} [DecidablePred P]
    (h : ((c.play ok mk ms).any fun c' => P c') = true) : ∃ c', Run S ok c c' ∧ P c' := by
  cases hc : c.play ok mk ms with
  | none => rw [hc] at h; cases h
  | some c' =>
    rw [hc] at h
    exact ⟨c', Run.play hmk .refl hc, of_decide_eq_true h⟩

/-! ## A process that runs alone -/

section Alone

variable {S : Sys π σ ℓ} {c0 : Config π σ ℓ} {p : π}

theorem Reach.run {a : Unit} (hr : Reach S c0 c) (h : (c.prog p).run p c.shared = some (a, s')) :
    Reach S c0 ⟨s', Function.update c.prog p (.ret ())⟩ := by
  generalize hx : c.prog p = x at h
  induction x generalizing c with
  | ret b =>
    cases h
    rw [show Prog.ret () = c.prog p from hx.symm, Function.update_eq_self]
    exact hr
  | act l f k ih =>
    rw [Prog.run] at h
    split at h
    · rename_i b s1 hf
      have he : c.exec p = some ⟨s1, Function.update c.prog p (k b)⟩ := by
        simp only [Config.exec, hx, hf]
      have := ih b (.exec hr trivial he) (Function.update_self ..) h
      rwa [Function.update_idem] at this
    · cases h

theorem Reach.panicOf (hr : Reach S c0 c) (h : (c.prog p).panicOf p c.shared = some m) :
    ∃ c', Reach S c0 c' ∧ c'.Panics p m := by
  generalize hx : c.prog p = x at h
  induction x generalizing c with
  | ret b => cases h
  | act l f k ih =>
    rw [Prog.panicOf] at h
    split at h
    · rename_i b s1 hf
      have he : c.exec p = some ⟨s1, Function.update c.prog p (k b)⟩ := by
        simp only [Config.exec, hx, hf]
      exact ih b (.exec hr trivial he) (Function.update_self ..) h
    · rename_i msg hf
      cases h
      refine ⟨c, hr, ?_⟩
      simp only [Config.Panics, hx, hf]
    · cases h

theorem Reach.call_run {x : Prog π σ ℓ Unit} {a : Unit} (hr : Reach S c0 (.start s))
    (hx : S.calls p s x) (h : x.run p s = some (a, s')) : Reach S c0 (.start s') := by
  have hcall : Reach S c0 ((Config.start s).call p x) := .call hr rfl hx
  have hprog : (((Config.start s).call p x).prog p).run p ((Config.start s).call p x).shared =
      some (a, s') := by
    simpa only [Config.call, Config.start, Function.update_self] using h
  have hrun := hcall.run hprog
  simpa only [Config.call, Config.start, Function.update_idem, Function.update_eq_self] using hrun

theorem Reach.call_panics {x : Prog π σ ℓ Unit} (hr : Reach S c0 (.start s)) (hx : S.calls p s x)
    (h : x.panicOf p s = some m) : ∃ c, Reach S c0 c ∧ c.Panics p m := by
  have hcall : Reach S c0 ((Config.start s).call p x) := .call hr rfl hx
  exact hcall.panicOf (by simpa only [Config.call, Config.start, Function.update_self] using h)

end Alone

end Steps

/-! ## Thread-modular proofs -/

/-- An invariant of the shared state with one stable view for every process. `guar` is what
every action guarantees of the states before and after it. `lab` is what
the view satisfies whenever an action with that label is next, `cond` is what may be assumed
of the state an action with that label starts from, `panics` are the panics that are not
excluded in a state, `faults` says whether undefined behaviour is not excluded, `idle` is what
the view satisfies between two calls. A process with an `unborn` view runs nothing, and may be
given another idle view by the action that starts it. -/
structure Proto (π σ ℓ ν : Type) where
  inv : σ → Prop
  guar : σ → σ → Prop
  view : π → σ → ν
  lab : π → ℓ → ν → Prop
  cond : π → ℓ → σ → Prop
  panics : σ → String → Prop
  faults : Prop
  idle : π → ν → Prop
  unborn : π → ν → Prop := fun _ _ => False
  born : ∀ p l v, lab p l v → ¬ unborn p v := by
    intro _ _ _ _ h
    exact h

section Wp

variable {π σ ℓ ν α β γ : Type}

/-- A change by process `p` that keeps the invariant and what the others see, or starts them. -/
structure Proto.Keeps (L : Proto π σ ℓ ν) (p : π) (s s' : σ) : Prop where
  inv : L.inv s'
  others : ∀ q, q ≠ p → L.view q s' = L.view q s ∨
    (L.unborn q (L.view q s) ∧ L.idle q (L.view q s'))
  guar : L.guar s s'

/-- What an action of process `p` from the state `s` may come to, if `K` is asked of its
answer and of the view afterwards. -/
def Proto.Ok (L : Proto π σ ℓ ν) (p : π) (s : σ) (K : β → ν → Prop) : Outcome σ β → Prop
  | .done b s' => L.Keeps p s s' ∧ K b (L.view p s')
  | .again s' => L.Keeps p s s' ∧ L.view p s' = L.view p s
  | .blocked => True
  | .panic m => L.panics s m
  | .fault => L.faults

/-- Process `p` may run the program from any state in which its view is `v`. -/
def wp (L : Proto π σ ℓ ν) (p : π) : Prog π σ ℓ α → (α → ν → Prop) → ν → Prop
  | .ret a, Q, v => Q a v
  | .act l f k, Q, v => L.lab p l v ∧ ∀ s, L.inv s → L.view p s = v → L.cond p l s →
    L.Ok p s (fun b v' => wp L p (k b) Q v') (f p s)

variable {L : Proto π σ ℓ ν} {p : π} {v : ν} {x : Prog π σ ℓ α} {g : α → Prog π σ ℓ γ} {s s' : σ}
  {l : ℓ} {f : π → σ → Outcome σ β} {a : α}

@[simp] theorem wp_ret {Q : α → ν → Prop} : wp L p (.ret a : Prog π σ ℓ α) Q v ↔ Q a v := Iff.rfl

theorem wp_step {Q : β → ν → Prop} (hl : L.lab p l v)
    (h : ∀ s, L.inv s → L.view p s = v → L.cond p l s → L.Ok p s Q (f p s)) :
    wp L p (.step l f) Q v := ⟨hl, h⟩

theorem Proto.Ok.mono {K K' : β → ν → Prop} {o : Outcome σ β} (h : L.Ok p s K o)
    (hK : ∀ b v, K b v → K' b v) : L.Ok p s K' o := by
  cases o with
  | done b s' => exact ⟨h.1, hK _ _ h.2⟩
  | again s' => exact h
  | blocked => exact h
  | panic m => exact h
  | fault => exact h

theorem wp_bind {Q : γ → ν → Prop} (h : wp L p x (fun a v' => wp L p (g a) Q v') v) :
    wp L p (x >>= g) Q v := by
  induction x generalizing v with
  | ret a => exact h
  | act l f k ih =>
    exact ⟨h.1, fun s hs hv hc => (h.2 s hs hv hc).mono fun b _ hb => ih b hb⟩

theorem wp_mono {Q R : α → ν → Prop} (h : wp L p x Q v) (hQR : ∀ a v, Q a v → R a v) :
    wp L p x R v := by
  induction x generalizing v with
  | ret a => exact hQR a v h
  | act l f k ih =>
    exact ⟨h.1, fun s hs hv hc => (h.2 s hs hv hc).mono fun b _ hb => ih b hb⟩

theorem wp_others {q : π} {x : Prog π σ ℓ Unit} (hk : L.Keeps p s s') (hq : q ≠ p)
    (h : wp L q x (fun _ => L.idle q) (L.view q s)) :
    wp L q x (fun _ => L.idle q) (L.view q s') := by
  rcases hk.others q hq with he | ⟨hu, hi⟩
  · rwa [he]
  · cases x with
    | ret a => exact hi
    | act l f k => exact absurd hu (L.born q l _ h.1)

/-! ## Code that one process runs alone -/

/-- A program over a part of the state, as a program over the whole. -/
def Prog.lift {δ ℓ' : Type} (get : σ → δ) (put : δ → σ → σ) (lab : ℓ' → ℓ) :
    Prog π δ ℓ' α → Prog π σ ℓ α
  | .ret a => .ret a
  | .act l f k => .act (lab l) (fun p s =>
      match f p (get s) with
      | .done b d => .done b (put d s)
      | .again d => .again (put d s)
      | .blocked => .blocked
      | .panic m => .panic m
      | .fault => .fault) (fun b => (k b).lift get put lab)

theorem wp_lift {δ ℓ' : Type} {get : σ → δ} {put : δ → σ → σ} {lab : ℓ' → ℓ} {V : δ → ν}
    {I : δ → Prop} {x : Prog π δ ℓ' α} {Q : α → δ → Prop}
    (hlab : ∀ l d, I d → L.lab p (lab l) (V d))
    (hget : ∀ s d, L.inv s → L.view p s = V d → get s = d)
    (hput : ∀ s d d', L.inv s → L.view p s = V d → I d' →
      L.Keeps p s (put d' s) ∧ L.view p (put d' s) = V d') {d : δ} (h : x.seq p I Q d) :
    wp L p (x.lift get put lab) (fun a v => ∃ d', v = V d' ∧ Q a d') (V d) := by
  induction x generalizing d with
  | ret a => exact ⟨d, rfl, h.2⟩
  | act l f k ih =>
    obtain ⟨b, d', hf, hseq⟩ := Prog.seq_done h
    refine ⟨hlab l d (Prog.seq_inv h), fun s hs hv _ => ?_⟩
    simp only [hget s d hs hv, hf]
    obtain ⟨hk, hv'⟩ := hput s d d' hs hv (Prog.seq_inv hseq)
    exact ⟨hk, by rw [hv']; exact ih b hseq⟩

/-! ## Every reachable configuration -/

/-- The shared invariant holds and every process may run what is left of its program. -/
def Proto.Holds (L : Proto π σ ℓ ν) (c : Config π σ ℓ) : Prop :=
  L.inv c.shared ∧ ∀ p, wp L p (c.prog p) (fun _ => L.idle p) (L.view p c.shared)

/-- What makes a protocol sound for a system: every call may be run from every state with
an idle caller, and the environment keeps the invariant and all views. -/
structure Proto.Sound (L : Proto π σ ℓ ν) (S : Sys π σ ℓ) : Prop where
  calls : ∀ p s x, L.inv s → L.idle p (L.view p s) → S.calls p s x →
    wp L p x (fun _ => L.idle p) (L.view p s)
  env : ∀ s s', L.inv s → S.env s s' → L.inv s' ∧ ∀ p, L.view p s' = L.view p s

/-- The next action of process `p` starts from a state that its condition allows. -/
def Proto.Allows (L : Proto π σ ℓ ν) (c : Config π σ ℓ) (p : π) : Prop :=
  ∀ l, c.next p = some l → L.cond p l c.shared

theorem Proto.Holds.start (hs : L.inv (σ := σ) s) (hi : ∀ p, L.idle p (L.view p s)) :
    L.Holds (Config.start s) := ⟨hs, hi⟩

theorem Proto.Holds.lab_next (h : L.Holds c) (hl : c.next p = some l) :
    L.lab p l (L.view p c.shared) := by
  have hp := h.2 p
  unfold Config.next at hl
  cases hx : c.prog p with
  | ret a => rw [hx] at hl; cases hl
  | act l' f k =>
    rw [hx] at hl hp
    cases hl
    exact hp.1

theorem Proto.Holds.idle_next (h : L.Holds c) (hn : c.next p = none) :
    L.idle p (L.view p c.shared) := by
  have hp := h.2 p
  unfold Config.next at hn
  cases hx : c.prog p with
  | ret a =>
    rw [hx] at hp
    exact hp
  | act l f k => rw [hx] at hn; cases hn

theorem Proto.Holds.panics_of (h : L.Holds c) (hc : L.Allows c p) (hm : c.Panics p m) :
    L.panics c.shared m := by
  have hp := h.2 p
  unfold Config.Panics at hm
  cases hx : c.prog p with
  | ret a => rw [hx] at hm; exact hm.elim
  | act l f k =>
    have hl : c.next p = some l := by rw [Config.next, hx]
    rw [hx] at hm hp
    have hk := hp.2 c.shared h.1 rfl (hc l hl)
    cases hf : f p c.shared with
    | panic m' =>
      rw [hf] at hk
      simp only [hf] at hm
      exact hm ▸ hk
    | done b s => simp only [hf] at hm
    | again s => simp only [hf] at hm
    | blocked => simp only [hf] at hm
    | fault => simp only [hf] at hm

variable [DecidableEq π]

theorem Proto.Holds.keeps_exec (h : L.Holds c) (hc : L.Allows c p) (he : c.exec p = some c') :
    L.Keeps p c.shared c'.shared := by
  have hp := h.2 p
  cases hx : c.prog p with
  | ret a => simp only [Config.exec, hx, reduceCtorEq] at he
  | act l f k =>
    have hl : c.next p = some l := by rw [Config.next, hx]
    rw [hx] at hp
    have hk := hp.2 c.shared h.1 rfl (hc l hl)
    rcases Config.exec_act hx he with ⟨b, s, hf, rfl⟩ | ⟨s, hf, rfl⟩
    · rw [hf] at hk
      exact hk.1
    · rw [hf] at hk
      exact hk.1

theorem Proto.Holds.guar_exec (h : L.Holds c) (hc : L.Allows c p) (he : c.exec p = some c') :
    L.guar c.shared c'.shared := (h.keeps_exec hc he).guar

theorem Proto.Holds.exec (h : L.Holds c) (hc : L.Allows c p) (he : c.exec p = some c') :
    L.Holds c' := by
  obtain ⟨hi, hw⟩ := h
  have hp := hw p
  cases hx : c.prog p with
  | ret a => simp only [Config.exec, hx, reduceCtorEq] at he
  | act l f k =>
    have hl : c.next p = some l := by rw [Config.next, hx]
    rw [hx] at hp
    have hk := hp.2 c.shared hi rfl (hc l hl)
    rcases Config.exec_act hx he with ⟨b, s, hf, rfl⟩ | ⟨s, hf, rfl⟩
    · rw [hf] at hk
      refine ⟨hk.1.inv, fun q => ?_⟩
      by_cases hq : q = p
      · subst hq
        simpa using hk.2
      · simpa [Function.update_of_ne hq] using wp_others hk.1 hq (hw q)
    · rw [hf] at hk
      refine ⟨hk.1.inv, fun q => ?_⟩
      by_cases hq : q = p
      · subst hq
        simpa [hk.2] using hw q
      · exact wp_others hk.1 hq (hw q)

theorem Proto.Holds.call {S : Sys π σ ℓ} {x : Prog π σ ℓ Unit} (hL : L.Sound S) (h : L.Holds c)
    (hret : c.prog p = .ret ()) (hx : S.calls p c.shared x) : L.Holds (c.call p x) := by
  obtain ⟨hi, hw⟩ := h
  refine ⟨hi, fun q => ?_⟩
  by_cases hq : q = p
  · subst hq
    have hidle := hw q
    rw [hret] at hidle
    simpa [Config.call] using hL.calls q c.shared x hi hidle hx
  · simpa [Config.call, Function.update_of_ne hq] using hw q

theorem reach_sound {S : Sys π σ ℓ} {ok : Config π σ ℓ → π → Prop} (hL : L.Sound S)
    (hok : ∀ c p, ok c p → L.Allows c p) (h : L.Holds c) (hr : Run S ok c c') : L.Holds c' := by
  induction hr with
  | refl => exact h
  | call _ hp hx ih => exact ih.call hL hp hx
  | exec _ hc he ih => exact ih.exec (hok _ _ hc) he
  | env _ he ih =>
    obtain ⟨hi, hv⟩ := hL.env _ _ ih.1 he
    exact ⟨hi, fun q => by simpa [hv q] using ih.2 q⟩

end Wp

end Xv6.Lib
