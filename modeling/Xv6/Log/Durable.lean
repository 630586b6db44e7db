import Xv6.Log.GroupCommit

/-!
# A crash at any point of a concurrent run

The machine stops anywhere in a run of concurrent operations, also while one of them commits. `Code`
says what every process has still to do; for the committer this is a rest of `commit` whose
transaction takes the disk from `installed` to `contents`.
-/

namespace Xv6.Log

open Lib Prog

variable {π : Type} {start size : Nat} {d : Nat → Block} {p q : π} {s s' : LogSt π}

namespace Txn

variable {t : Txn} {e : Nat → Block}

theorem Before.recovers (h : t.Before e) (p : π) (ks : List Nat) :
    ∃ m, (recoverFromLog (π := π)).run p (t.boot (t.recovered p e ks)) = some ((), m) ∧
      t.Before m.disk := by
  have h' := before_recovered (p := p) h ks
  obtain ⟨⟨⟩, m, hrun, hm, -⟩ := seq_run (seq_recover_clean (p := p) h'.1 h'.2)
  exact ⟨m, hrun, hm⟩

theorem committed_recovers (h : t.Between e ∨ t.After e) (p : π) (ks : List Nat) :
    ∃ m, (recoverFromLog (π := π)).run p (t.boot (t.recovered p e ks)) = some ((), m) ∧
      t.After m.disk := by
  rcases committed_recovered (p := p) h ks with hM | hA
  · obtain ⟨⟨⟩, m, hrun, -, hm⟩ := seq_run (seq_recover_between (p := p) hM)
    exact ⟨m, hrun, hm⟩
  · obtain ⟨⟨⟩, m, hrun, hm, -⟩ := seq_run (seq_recover_clean (p := p) hA.1 hA.2)
    exact ⟨m, hrun, hm⟩

end Txn

/-! ## What every process has still to do -/

/-- `x` is a rest of `commit`, for a transaction that brings the disk from the writes up to the last
commit to all those of the history. -/
def Commits (start size : Nat) (d : Nat → Block) (p : π) (s : LogSt π)
    (x : Prog π LogMem Unit Unit) : Prop :=
  ∃ t : Txn, t.start = start ∧ t.size = size ∧
    (∀ a, ¬ t.InLog a → t.old a = installed d s.hist a ∧ t.post a = contents d s.hist a) ∧
    x.seq p t.Stage (fun _ => t.Finished) s.mem

variable [DecidableEq π]

/-- The second section of `log_write`. -/
def appendOp (b : BitVec 32) (v : Block) : Prog π (LogSt π) Lab Unit :=
  .step (.append b) fun p s =>
    match s.mem.lh.record b with
    | none => .fault
    | some lh => .done () (s.append p b v lh)

/-- What is left of `end_op` when `x` is left of `commit`. -/
def commitRest (x : Prog π LogMem Unit Unit) : Prog π (LogSt π) Lab Unit :=
  x.lift LogSt.mem (fun mem s => { s with mem }) (fun _ => .commit) >>= fun _ =>
    .step .finish fun p s =>
      .done () ({ s with committing := false }.wakeup.note p .outside .committed)

/-- What is left of a call of a process that does not commit. -/
inductive Plain : Prog π (LogSt π) Lab Unit → Prop
  | idle : Plain (.ret ())
  | begin : Plain beginOp
  | write (b : BitVec 32) (v : Block) : Plain (logWrite b v)
  | append (b : BitVec 32) (v : Block) : Plain (appendOp b v)
  | end : Plain endOp

/-- What is left of a call of process `p`. -/
def Code (start size : Nat) (d : Nat → Block) (s : LogSt π) (p : π)
    (x : Prog π (LogSt π) Lab Unit) : Prop :=
  Plain x ∨ s.role p = .committer ∧ ∃ y, Commits start size d p s y ∧ x = commitRest y

theorem Code.others {x : Prog π (LogSt π) Lab Unit} (h : Code start size d s q x)
    (hv : view q s' = view q s) : Code start size d s' q x := by
  rcases h with h | ⟨hrole, y, hy, rfl⟩
  · exact .inl h
  · -- nobody else changes the memory of the committer
    rw [view_of_committer hrole] at hv
    obtain ⟨hrole', hmem, hhist⟩ := role_of_view_committer hv
    refine .inr ⟨hrole', y, ?_, rfl⟩
    unfold Commits
    rw [hmem, hhist]
    exact hy

variable [Fintype π] {c c' : Config π (LogSt π) Lab}

theorem Inv.commits (h : Inv start size d True False s) (hc : s.committing = false)
    (hsize : 0 < size)
    (hmem : s'.mem = { s.mem with writes := [] }) (hhist : s'.hist = .ended p :: s.hist) :
    Commits start size d p s' commit := by
  obtain ⟨⟨hfits, hout, hclean⟩, hcached, hdisk⟩ := h.data trivial hc
  have hn : (s.mem.lh.n : Int) ≤ s.mem.size - 1 := by
    have := h.size
    by_cases h0 : 0 < s.mem.lh.n
    · exact hfits h0
    · omega
  let t : Txn := ⟨s.mem.start, s.mem.size, s.mem.lh, s.mem.disk, s.mem.buf, h.nodup, hn,
    hout, hclean⟩
  refine ⟨t, h.start, h.size, fun a ha => ?_, by rw [hmem]; exact t.seq_commit⟩
  rw [hhist]
  refine ⟨hdisk a ha, ?_⟩
  change (if a ∈ s.mem.lh.block.map BitVec.toNat then s.mem.buf a else s.mem.disk a) =
    contents d s.hist a
  split
  · exact hcached a ha
  · next hmem =>
    -- not in the transaction: nothing was written since the last commit
    rw [hdisk a ha, contents_eq_installed fun b hb he => hmem ?_]
    exact he ▸ List.mem_map_of_mem ((h.header hc b).2 hb)

omit [Fintype π] in
theorem Commits.exec {x : Prog π LogMem Unit Unit} (hrole : c.shared.role p = .committer)
    (h : Commits start size d p c.shared x) (hx : c.prog p = commitRest x)
    (he : c.exec p = some c') : Code start size d c'.shared p (c'.prog p) := by
  cases x with
  | ret a =>
    -- the section that ends the commit
    rcases Config.exec_act hx he with ⟨b, s, hf, rfl⟩ | ⟨s, hf, rfl⟩
    · simp only [Function.update_self]
      exact .inl .idle
    · cases hf
  | act l f k =>
    obtain ⟨t, hstart, hsize, hdata, hseq⟩ := h
    obtain ⟨b, m, hf, hrest⟩ := seq_done hseq
    rcases Config.exec_act hx he with ⟨b', s, hf', rfl⟩ | ⟨s, hf', rfl⟩
    · simp only [hf, Outcome.done.injEq] at hf'
      obtain ⟨rfl, rfl⟩ := hf'
      simp only [Function.update_self]
      exact .inr ⟨hrole, k b, ⟨t, hstart, hsize, hdata, hrest⟩, rfl⟩
    · simp only [hf, reduceCtorEq] at hf'

theorem Plain.exec (hsize : 0 < size) (hI : Inv start size d True False c.shared)
    (h : Plain (c.prog p)) (he : c.exec p = some c') :
    Code start size d c'.shared p (c'.prog p) := by
  generalize hx : c.prog p = x at h
  -- a process that goes to sleep will take the same action again
  have hsame : ∀ s, Code start size d s p (c.prog p) := fun s => .inl (hx ▸ h)
  cases h with
  | idle => simp only [Config.exec, hx, reduceCtorEq] at he
  | begin =>
    rcases Config.exec_act hx he with ⟨_, s, hf, rfl⟩ | ⟨s, hf, rfl⟩
    · simp only [Function.update_self]
      exact .inl .idle
    · exact hsame s
  | write b v =>
    rcases Config.exec_act hx he with ⟨_, s, hf, rfl⟩ | ⟨s, hf, rfl⟩
    · simp only [Function.update_self]
      exact .inl (.append b v)
    · exact hsame s
  | append b v =>
    rcases Config.exec_act hx he with ⟨_, s, hf, rfl⟩ | ⟨s, hf, rfl⟩
    · simp only [Function.update_self]
      exact .inl .idle
    · exact hsame s
  | «end» =>
    rcases Config.exec_act hx he with ⟨_, s, hf, rfl⟩ | ⟨s, hf, rfl⟩
    · simp only [Function.update_self]
      dsimp only at hf
      split at hf
      · cases hf
      next hc =>
      split at hf
      · cases hf
        exact .inr ⟨Function.update_self .., commit,
          hI.commits (Bool.eq_false_iff.2 hc) hsize rfl rfl, rfl⟩
      · cases hf
        exact .inl .idle
    · exact hsame s

/-! ## Crashes -/

theorem codes (hd : headN (d start) = 0) (hsize : 0 < size)
    (hr : Run (logSys π) FindsRoom (.start (bootLog start size d)) c) :
    (logProto start size d True False).Holds c ∧
      ∀ q, Code start size d c.shared q (c.prog q) := by
  have hallows : ∀ (c : Config π (LogSt π) Lab) p, FindsRoom c p →
      (logProto start size d True False).Allows c p := fun _ _ h l hl =>
    ⟨fun _ => h l hl, fun h => h.elim⟩
  have hholds {c : Config π (LogSt π) Lab}
      (hr : Run (logSys π) FindsRoom (.start (bootLog start size d)) c) :
      (logProto start size d True False).Holds c :=
    reach_sound logProto_sound hallows
      (Proto.Holds.start (inv_bootLog fun _ => hd) fun _ => Or.inl rfl) hr
  refine ⟨hholds hr, ?_⟩
  induction hr with
  | refl => exact fun _ => .inl .idle
  | @call c1 p x hr hp hx ih =>
    intro q
    by_cases hq : q = p
    · subst hq
      simp only [Config.call, Function.update_self]
      cases hrole : c1.shared.role q with
      | outside =>
        simp only [logSys, hrole] at hx
        exact hx ▸ .inl .begin
      | inOp =>
        simp only [logSys, hrole] at hx
        rcases hx with rfl | ⟨b, v, -, rfl⟩
        · exact .inl .end
        · exact .inl (.write b v)
      | committer => simp only [logSys, hrole] at hx
    · simpa only [Config.call, Function.update_of_ne hq] using ih q
  | @exec c1 c2 p hr hok he ih =>
    intro q
    have hH := hholds hr
    by_cases hq : q = p
    · subst hq
      rcases ih q with h | ⟨hrole, y, hy, hx⟩
      · exact h.exec hsize hH.1 he
      · exact hy.exec hrole hx he
    · have hprog : c2.prog q = c1.prog q := by
        cases hx : c1.prog p with
        | ret a => simp only [Config.exec, hx, reduceCtorEq] at he
        | act l f k =>
          rcases Config.exec_act hx he with ⟨b, s, -, rfl⟩ | ⟨s, -, rfl⟩
          · exact Function.update_of_ne hq _ _
          · rfl
      have hk := (hH.keeps_exec (hallows _ _ hok) he).others q hq
      rw [hprog]
      exact (ih q).others (hk.resolve_right fun h => h.1)
  | env hr he ih =>
    obtain ⟨p, rfl⟩ := he
    exact fun q => (ih q).others rfl

theorem Code.commits (hH : (logProto start size d True False).Holds c)
    (h : Code start size d c.shared p (c.prog p)) (hp : c.shared.role p = .committer) :
    ∃ y, Commits start size d p c.shared y := by
  rcases h with h | ⟨-, y, hy, -⟩
  · -- a process that runs anything else is in its operation, or outside
    have hlab : ∀ l, c.next p = some l → l = .commit ∨ l = .finish := fun l hl => by
      have hv := hH.lab_next hl
      simp only [logProto, view_of_committer hp] at hv
      cases l <;> simp at hv ⊢
    have hidle : c.next p ≠ none := fun hn => by
      have hv := hH.idle_next hn
      simp only [logProto, view_of_committer hp, reduceCtorEq, or_self] at hv
    generalize hx : c.prog p = x at h
    unfold Config.next at hlab hidle
    rw [hx] at hlab hidle
    cases h with
    | idle => exact absurd rfl hidle
    | begin => simpa using hlab .enter rfl
    | write b v => simpa using hlab .test rfl
    | append b v => simpa using hlab (.append b) rfl
    | «end» => simpa using hlab .leave rfl
  · exact ⟨y, hy⟩

/-- The disk after a crash and any number of recoveries that crash as well. -/
def crashed (start size : Nat) (p : π) (d : Nat → Block) (ks : List Nat) : Nat → Block :=
  ks.foldl (fun d k => (recoverFromLog.runFor p k (bootLog start size d : LogSt π).mem).disk) d

/-- **Crashes of concurrent operations.** Stop the machine anywhere in a run, in the middle of a
commit or not, crash any number of recoveries, and let one finish. It does finish, the log is empty
again, and outside the log the disk has the writes of the operations up to the last commit and no
others, or all writes so far, if a commit was under way; and then no operation was open. -/
theorem concurrent_crash (hd : headN (d start) = 0) (hsize : 0 < size)
    (hr : Run (logSys π) FindsRoom (.start (bootLog start size d)) c) (p : π) (ks : List Nat) :
    Whole c.shared.hist ∧ ∃ m, recoverFromLog.run p
        (bootLog start size (crashed start size p c.shared.mem.disk ks) : LogSt π).mem =
        some ((), m) ∧ headN (m.disk start) = 0 ∧
      ((∀ a, ¬ (start ≤ a ∧ a < start + size) → m.disk a = installed d c.shared.hist a) ∨
        c.shared.committing = true ∧ (∀ q, ¬ Open q c.shared.hist) ∧
          ∀ a, ¬ (start ≤ a ∧ a < start + size) → m.disk a = contents d c.shared.hist a) := by
  obtain ⟨hH, hcode⟩ := codes hd hsize hr
  have hI : Inv start size d True False c.shared := hH.1
  refine ⟨hI.roles.whole, ?_⟩
  cases hc : c.shared.committing with
  | false =>
    obtain ⟨⟨-, -, hclean⟩, -, hdisk⟩ := hI.data trivial hc
    simp only [LogMem.InLog, hI.start, hI.size] at hclean hdisk
    let t : Txn := ⟨start, size, .empty, c.shared.mem.disk, c.shared.mem.disk, List.nodup_nil,
      Int.le_sub_one_of_lt (Int.natCast_pos.2 hsize), by simp, hclean⟩
    have hbefore : t.Before c.shared.mem.disk := ⟨hclean, fun _ _ => rfl⟩
    obtain ⟨m, hrun, hhead, hm⟩ := hbefore.recovers p ks
    exact ⟨m, hrun, hhead, .inl fun a ha => (hm a ha).trans (hdisk a ha)⟩
  | true =>
    obtain ⟨q, hq⟩ := hI.roles.committer.1 hc
    obtain ⟨x, t, rfl, rfl, hdata, hseq⟩ := (hcode q).commits hH hq
    have hopen : ∀ r, ¬ Open r c.shared.hist := fun r hr => by
      have hin := (hI.roles.opened r).1 hr
      rw [hI.roles.alone q r hq (by simp [hin]), hq] at hin
      cases hin
    rcases (seq_inv hseq).2 with ⟨hB, -⟩ | ⟨hC, -⟩
    · obtain ⟨m, hrun, hhead, hm⟩ := hB.recovers p ks
      exact ⟨m, hrun, hhead, .inl fun a ha => (hm a ha).trans (hdata a ha).1⟩
    · obtain ⟨m, hrun, hhead, hm⟩ := Txn.committed_recovers hC p ks
      exact ⟨m, hrun, hhead, .inr ⟨rfl, hopen, fun a ha => (hm a ha).trans (hdata a ha).2⟩⟩

theorem concurrent_crash_commit : ∃ c, Run (logSys (Fin 3)) FindsRoom mkfsLog c ∧
    c.shared.committing = true ∧ ∃ m, recoverFromLog.run (0 : Fin 3)
      (bootLog 2 LOGSIZE (crashed 2 LOGSIZE (0 : Fin 3) c.shared.mem.disk [5])
        : LogSt (Fin 3)).mem =
        some ((), m) ∧ headN (m.disk 2) = 0 := by
  obtain ⟨c, hc, hcommit⟩ := Run.of_play (logSys (Fin 3)) FindsRoom
    callOf_calls (c := mkfsLog)
    ([.call 0 .begin, .act 0 1] ++ logAll 0 [100] ++ [.call 0 .end, .act 0 12])
    (P := fun c => c.shared.committing = true) (by decide +kernel)
  obtain ⟨-, m, hrun, hhead, -⟩ := concurrent_crash (by decide) (by decide) hc 0 [5]
  exact ⟨c, hc, hcommit, m, hrun, hhead⟩

end Xv6.Log
