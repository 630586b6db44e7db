import Xv6.Log.GroupCommit

/-!
# The space `begin_op` reserves

`begin_op` admits an operation when `MAXOPBLOCKS` blocks for it and for every open operation
still fit into `LOGSIZE`. If every operation keeps to that, the header never overflows
(`reserved_space`). But `mkfs` makes `LOGSIZE` blocks of log *including the header*, and
`log_write` refuses to go on when `LOGSIZE - 1` blocks are logged, before it looks whether the
block is logged already; so the operations that `begin_op` admits can make it panic
(`reservation_exceeded`). `too_big_iff` says exactly when.
-/

namespace Xv6.Log

open Lib

variable {π : Type} [Fintype π] [DecidableEq π] {start size : Nat} {d : Nat → Block}
  {c : Config π (LogSt π) Lab}

/-- The action process `p` takes next keeps its operation within `MAXOPBLOCKS` blocks. -/
def KeepsBudget (c : Config π (LogSt π) Lab) (p : π) : Prop :=
  ∀ l ∈ c.next p, Within p l c.shared

instance (p : π) (l : Lab) (s : LogSt π) : Decidable (Within p l s) :=
  match l with
  | .append _ => Nat.decLe _ _
  | .enter | .test | .leave | .commit | .finish => instDecidableTrue

instance (c : Config π (LogSt π) Lab) (p : π) : Decidable (KeepsBudget c p) := by
  unfold KeepsBudget; infer_instance

/-- As long as no operation logs more than `MAXOPBLOCKS` blocks, the blocks logged and all
those that the open operations may still log fit into the header. -/
theorem reserved_space (hr : Run (logSys π) KeepsBudget (.start (bootLog start size d)) c)
    (hc : c.shared.committing = false) : reserved c.shared.role c.shared.hist ≤ LOGSIZE := by
  have hH : (logProto start size d False True).Holds c :=
    reach_sound logProto_sound (fun _ _ h l hl => ⟨fun h => h.elim, fun _ => h l hl⟩)
      (Proto.Holds.start (inv_bootLog fun h => h.elim) fun _ => Or.inl rfl) hr
  exact hH.1.space trivial hc

theorem reserved_space_three : ∃ c, Run (logSys (Fin 3)) KeepsBudget mkfsLog c ∧
    (∀ p, c.shared.role p = .inOp) ∧ reserved c.shared.role c.shared.hist ≤ LOGSIZE := by
  obtain ⟨c, hc, hin, hidle⟩ := Run.of_play (logSys (Fin 3)) KeepsBudget callOf_calls
    (c := mkfsLog) threeBegin
    (P := fun c => (∀ p, c.shared.role p = .inOp) ∧ c.shared.committing = false)
    (by decide +kernel)
  exact ⟨c, hc, hin, reserved_space hc hidle⟩

theorem tooBig_iff_full {s : LogSt π} {p : π} (hI : Inv start LOGSIZE d False False s)
    (hp : s.role p = .inOp) : s.TooBig ↔ LOGSIZE - 1 ≤ (logged s.hist).card := by
  rw [hI.card_logged (hI.roles.not_committing hp), LogSt.TooBig, hI.size]
  simp only [LOGSIZE, MAXOPBLOCKS]
  omega

/-- **When `log_write` panics.** On a log of `LOGSIZE` blocks, a process that is about to
panic finds `LOGSIZE - 1` distinct blocks logged since the last commit, and a call of
`log_write` panics in exactly the states in which there are so many. -/
theorem too_big_iff (hr : Reach (logSys π) (.start (bootLog start LOGSIZE d)) c) :
    (∀ p, c.Panics p "too big a transaction" →
      LOGSIZE - 1 ≤ (logged c.shared.hist).card) ∧
    (∀ p b v, c.shared.role p = .inOp →
      ((c.call p (logWrite b v)).Panics p "too big a transaction" ↔
        LOGSIZE - 1 ≤ (logged c.shared.hist).card)) := by
  have hH := reach_inv hr
  refine ⟨fun p hp => ?_, fun p b v hp => ?_⟩
  · have := (hH.panics_of (fun _ _ => ⟨fun h => h.elim, fun h => h.elim⟩) hp).2
    simp only [Full, LOGSIZE, MAXOPBLOCKS] at this ⊢
    omega
  · rw [← tooBig_iff_full hH.1 hp]
    have hpos := hH.1.roles.pos hp
    simp only [Config.Panics, Config.call, Function.update_self, logWrite, Prog.step,
      Prog.act_bind]
    by_cases hbig : c.shared.TooBig
    · simp [hbig]
    · simp [hbig, show ¬ c.shared.outstanding < 1 by omega]

theorem too_big_iff_after_begin : ∃ c, Reach (logSys (Fin 3)) mkfsLog c ∧
    ¬ (c.call 0 (logWrite 100 (fill 100))).Panics 0 "too big a transaction" := by
  obtain ⟨c, hc, h1, h2⟩ := Run.of_play (logSys (Fin 3)) (fun _ _ => True)
    callOf_calls (c := mkfsLog) threeBegin
    (P := fun c => c.shared.role 0 = .inOp ∧ ¬ LOGSIZE - 1 ≤ (logged c.shared.hist).card)
    (by decide +kernel)
  exact ⟨c, hc, fun h => h2 (((too_big_iff hc).2 0 100 (fill 100) h1).mp h)⟩

/-- Three operations of 10, 10 and 9 blocks fill the log; the third then writes again a block
that it has logged already, and panics. -/
theorem reservation_exceeded : ∃ c, Run (logSys (Fin 3)) KeepsBudget mkfsLog c ∧
    (∀ p, (opBlocks p c.shared.hist).card ≤ MAXOPBLOCKS) ∧
    (opBlocks 2 c.shared.hist).card = 9 ∧ c.Panics 2 "too big a transaction" :=
  Run.of_play (logSys (Fin 3)) KeepsBudget callOf_calls (c := mkfsLog)
    (threeBegin ++ logAll 0 (List.range' 100 10) ++ logAll 1 (List.range' 110 10) ++
      logAll 2 (List.range' 120 9) ++ [.call 2 (.write 128)])
    (P := fun c => (∀ p, (opBlocks p c.shared.hist).card ≤ MAXOPBLOCKS) ∧
      (opBlocks 2 c.shared.hist).card = 9 ∧ c.Panics 2 "too big a transaction")
    (by decide +kernel)

end Xv6.Log
