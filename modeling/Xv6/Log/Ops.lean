import Xv6.Log.Crash

/-!
# Operations on the log: `begin_op`, `log_write`, `end_op`

Every critical section under `log.lock` is one action, and so is every call of `bread` and
`bwrite` inside `commit`, which runs without the lock. `log_write` tests the size of the
transaction before it takes the lock, so the test is an action of its own.

A process that sleeps on `&log` is marked in `asleep`; it runs the test of `begin_op` again
after a `wakeup`, or after a `kill`, which is a move of the environment. The caller of
`log_write` holds the buffer's lock and has changed `b->data`; that change takes effect here
together with the append.

`role` and `hist` are not in the source: where each process is between `begin_op` and the
end of `end_op`, and what has happened so far, newest first.
-/

namespace Xv6.Log

open Lib

/-- Where a process is: not in an operation, between `begin_op` and `end_op`, or running
the commit at the end of its operation. -/
inductive Role where
  | outside
  | inOp
  | committer
deriving DecidableEq

inductive Ev (π : Type) where
  | began (p : π)
  | wrote (p : π) (b : BitVec 32) (v : Block)
  | ended (p : π)
  | committed

/-- `struct log`, with the sleepers on its address. -/
structure LogSt (π : Type) where
  mem : LogMem
  outstanding : Int
  committing : Bool
  asleep : π → Bool
  role : π → Role
  hist : List (Ev π)

/-- The actions: the section of `begin_op`, the test and the section of `log_write`, the two
sections of `end_op` and the commit between them. -/
inductive Lab where
  | enter
  | test
  | append (b : BitVec 32)
  | leave
  | commit
  | finish
deriving DecidableEq

/-- The body of the critical section of `log_write`: the number is found in the header, or
stored behind the last one, for which the array has to have room. -/
def LogHeader.record (lh : LogHeader) (b : BitVec 32) : Option LogHeader :=
  if b ∈ lh.block then some lh
  else if h : lh.n < LOGSIZE then some ⟨lh.block ++ [b], by rw [List.length_append]; exact h⟩
  else none

variable {lh lh' : LogHeader} {b : BitVec 32}

theorem LogHeader.record_some (h : lh.record b = some lh') :
    (b ∈ lh.block ∧ lh' = lh) ∨ (b ∉ lh.block ∧ lh'.block = lh.block ++ [b]) := by
  unfold record at h
  split at h
  · rename_i hb
    cases h
    exact Or.inl ⟨hb, rfl⟩
  · rename_i hb
    split at h
    · cases h
      exact Or.inr ⟨hb, rfl⟩
    · cases h

theorem LogHeader.mem_record (h : lh.record b = some lh') (a : BitVec 32) :
    a ∈ lh'.block ↔ a = b ∨ a ∈ lh.block := by
  rcases record_some h with ⟨hb, rfl⟩ | ⟨-, he⟩
  · constructor
    · exact Or.inr
    · rintro (rfl | ha)
      · exact hb
      · exact ha
  · rw [he, List.mem_append, List.mem_singleton, or_comm]

theorem LogHeader.nodup_record (h : lh.record b = some lh') (hnd : lh.block.Nodup) :
    lh'.block.Nodup := by
  rcases record_some h with ⟨-, rfl⟩ | ⟨hb, he⟩
  · exact hnd
  · rw [he, ← List.concat_eq_append]
    exact hnd.concat hb

theorem LogHeader.n_record (h : lh.record b = some lh') :
    lh.n ≤ lh'.n ∧ lh'.n ≤ lh.n + 1 ∧ (b ∈ lh.block → lh'.n = lh.n) := by
  rcases record_some h with ⟨hb, rfl⟩ | ⟨hb, he⟩
  · exact ⟨le_rfl, Nat.le_succ _, fun _ => rfl⟩
  · have : lh'.n = lh.n + 1 := by rw [n, he, List.length_append]; rfl
    exact ⟨by omega, by omega, fun h => absurd h hb⟩

section Ops

variable {π : Type} [DecidableEq π]

namespace LogSt

def sleep (s : LogSt π) (p : π) : LogSt π := { s with asleep := Function.update s.asleep p true }

def wakeup (s : LogSt π) : LogSt π := { s with asleep := fun _ => false }

/-- Process `p` moves on, and the history records it. -/
def note (s : LogSt π) (p : π) (r : Role) (e : Ev π) : LogSt π :=
  { s with role := Function.update s.role p r, hist := e :: s.hist }

section

variable (s : LogSt π) (p : π) (r : Role) (e : Ev π)

@[simp] theorem note_mem : (s.note p r e).mem = s.mem := rfl

@[simp] theorem note_outstanding : (s.note p r e).outstanding = s.outstanding := rfl

@[simp] theorem note_role : (s.note p r e).role = Function.update s.role p r := rfl

@[simp] theorem note_hist : (s.note p r e).hist = e :: s.hist := rfl

end

/-- The test of `log_write`, made without the lock. -/
def TooBig (s : LogSt π) : Prop :=
  LOGSIZE ≤ s.mem.lh.n ∨ (s.mem.size : Int) - 1 ≤ s.mem.lh.n

instance (s : LogSt π) : Decidable s.TooBig := by unfold TooBig; infer_instance

/-- The test of `begin_op`: this operation might exhaust the log space. -/
def NoSpace (s : LogSt π) : Prop :=
  (s.mem.lh.n : Int) + (s.outstanding + 1) * MAXOPBLOCKS > LOGSIZE

instance (s : LogSt π) : Decidable s.NoSpace := by unfold NoSpace; infer_instance

/-- The state after the block `b` is recorded in the header `lh`. -/
def append (s : LogSt π) (p : π) (b : BitVec 32) (v : Block) (lh : LogHeader) : LogSt π :=
  { s with
    mem := { s.mem with lh, buf := Function.update s.mem.buf b.toNat v }
    hist := .wrote p b v :: s.hist }

end LogSt

def beginOp : Prog π (LogSt π) Lab Unit := .step .enter fun p s =>
  if s.asleep p then .blocked
  else if s.committing then .again (s.sleep p)
  else if s.NoSpace then .again (s.sleep p)
  else .done () ({ s with outstanding := s.outstanding + 1 }.note p .inOp (.began p))

def logWrite (b : BitVec 32) (v : Block) : Prog π (LogSt π) Lab Unit := do
  .step .test fun _ s =>
    if s.TooBig then .panic "too big a transaction"
    else if s.outstanding < 1 then .panic "log_write outside of trans"
    else .done () s
  .step (.append b) fun p s =>
    match s.mem.lh.record b with
    | none => .fault
    | some lh => .done () (s.append p b v lh)

/-- `commit`, seen from the whole state. -/
def commitOp : Prog π (LogSt π) Lab Unit :=
  commit.lift LogSt.mem (fun mem s => { s with mem }) (fun _ => .commit)

def endOp : Prog π (LogSt π) Lab Unit := do
  let doCommit ← .step .leave fun p s =>
    let s := { s with outstanding := s.outstanding - 1 }
    if s.committing then .panic "log.committing"
    else if s.outstanding = 0 then
      .done true ({ s with committing := true, mem := { s.mem with writes := [] } }.note p
        .committer (.ended p))
    else .done false (s.wakeup.note p .outside (.ended p))
  if doCommit then
    commitOp
    .step .finish fun p s =>
      .done () ({ s with committing := false }.wakeup.note p .outside .committed)

/-- Processes bracket their `log_write`s with `begin_op` and `end_op`, and the blocks they
log are not in the log area. A sleeping process can be woken by `kill`. -/
def logSys (π : Type) [DecidableEq π] : Sys π (LogSt π) Lab where
  calls p s x :=
    match s.role p with
    | .outside => x = beginOp
    | .inOp => x = endOp ∨ ∃ b v, ¬ s.mem.InLog b.toNat ∧ x = logWrite b v
    | .committer => False
  env s s' := ∃ p, s' = { s with asleep := Function.update s.asleep p false }

/-- The log after `initlog` on the disk `d`, whose log `recover_from_log` has left empty. -/
def bootLog (start size : Nat) (d : Nat → Block) : LogSt π :=
  ⟨⟨start, size, .empty, d, d, []⟩, 0, false, fun _ => false, fun _ => .outside, []⟩

end Ops

/-! ## Scripts, and the log of the disk that `mkfs` makes -/

section Scripts

variable {π : Type} [DecidableEq π]

/-- The calls of a script. A block is logged with its own number in every byte. -/
inductive Call where
  | begin
  | write (b : BitVec 32)
  | end

def fill (b : BitVec 32) : Block := fun _ => UInt8.ofNat b.toNat

def callOf (p : π) (s : LogSt π) : Call → Option (Prog π (LogSt π) Lab Unit)
  | .begin => if s.role p = .outside then some beginOp else none
  | .write b =>
    if s.role p = .inOp ∧ ¬ s.mem.InLog b.toNat then some (logWrite b (fill b)) else none
  | .end => if s.role p = .inOp then some endOp else none

theorem callOf_calls (p : π) (s : LogSt π) (k : Call) (x : Prog π (LogSt π) Lab Unit)
    (h : callOf p s k = some x) : (logSys π).calls p s x := by
  unfold logSys
  cases k with
  | begin =>
    simp only [callOf, Option.ite_none_right_eq_some, Option.some.injEq] at h
    simp only [h.1]
    exact h.2.symm
  | write b =>
    simp only [callOf, Option.ite_none_right_eq_some, Option.some.injEq] at h
    simp only [h.1.1]
    exact Or.inr ⟨b, fill b, h.1.2, h.2.symm⟩
  | «end» =>
    simp only [callOf, Option.ite_none_right_eq_some, Option.some.injEq] at h
    simp only [h.1]
    exact Or.inl h.2.symm

/-- The log of a fresh disk: `logstart` is 2 and `nlog` is `LOGSIZE`. -/
def mkfsLog : Config (Fin 3) (LogSt (Fin 3)) Lab :=
  .start (bootLog 2 LOGSIZE fun _ => Bytes.zero)

def threeBegin : List (Move (Fin 3) Call) :=
  (List.finRange 3).flatMap fun p => [.call p .begin, .act p 1]

/-- Process `p` logs the given blocks. -/
def logAll (p : Fin 3) (bs : List Nat) : List (Move (Fin 3) Call) :=
  bs.flatMap fun b => [.call p (.write b), .act p 2]

end Scripts

/-! ## Reading the history -/

section History

variable {π : Type}

def contents (d : Nat → Block) : List (Ev π) → Nat → Block
  | [] => d
  | .wrote _ b v :: h => Function.update (contents d h) b.toNat v
  | _ :: h => contents d h

/-- What a block holds when the writes up to the last commit have been made, and no others. -/
def installed (d : Nat → Block) : List (Ev π) → Nat → Block
  | [] => d
  | .committed :: h => contents d h
  | _ :: h => installed d h

def logged : List (Ev π) → Finset (BitVec 32)
  | [] => ∅
  | .committed :: _ => ∅
  | .wrote _ b _ :: h => insert b (logged h)
  | _ :: h => logged h

/-- The operation of process `p` has begun and not ended. -/
def Open (p : π) : List (Ev π) → Prop
  | [] => False
  | .began q :: h => q = p ∨ Open p h
  | .ended q :: h => q ≠ p ∧ Open p h
  | _ :: h => Open p h

/-- The blocks that process `p` has written in its operation. -/
def opBlocks [DecidableEq π] (p : π) : List (Ev π) → Finset (BitVec 32)
  | [] => ∅
  | .began q :: h => if q = p then ∅ else opBlocks p h
  | .wrote q b _ :: h => if q = p then insert b (opBlocks p h) else opBlocks p h
  | _ :: h => opBlocks p h

def Whole : List (Ev π) → Prop
  | [] => True
  | .committed :: h => (∀ p, ¬ Open p h) ∧ Whole h
  | _ :: h => Whole h

theorem open_ended [DecidableEq π] (p q : π) (h : List (Ev π)) : Open q (.ended p :: h) ↔
    if q = p then False else Open q h := by
  by_cases hq : q = p
  · simp [Open, hq]
  · simp [Open, hq, Ne.symm hq]

variable {h : List (Ev π)}

theorem contents_eq_installed {d : Nat → Block} {a : Nat} (ha : ∀ b ∈ logged h, b.toNat ≠ a) :
    contents d h a = installed d h a := by
  induction h with
  | nil => rfl
  | cons e h ih =>
    cases e with
    | began p => exact ih ha
    | ended p => exact ih ha
    | committed => rfl
    | wrote p b v =>
      simp only [logged, Finset.mem_insert, forall_eq_or_imp] at ha
      rw [contents, Function.update_of_ne (Ne.symm ha.1)]
      exact ih ha.2

theorem opBlocks_subset [DecidableEq π] {p : π} (hw : Whole h) (ho : Open p h) :
    opBlocks p h ⊆ logged h := by
  induction h with
  | nil => exact ho.elim
  | cons e h ih =>
    cases e with
    | began q =>
      simp only [opBlocks, logged]
      split
      · exact Finset.empty_subset _
      · rename_i hq
        exact ih hw (ho.resolve_left hq)
    | wrote q b v =>
      simp only [opBlocks, logged]
      split
      · exact Finset.insert_subset_insert b (ih hw ho)
      · exact (ih hw ho).trans (Finset.subset_insert b _)
    | ended q => exact ih hw ho.2
    | committed => exact absurd ho (hw.1 p)

end History

end Xv6.Log
