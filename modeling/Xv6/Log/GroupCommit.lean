import Xv6.Log.Ops
import Xv6.Lib.Counting
import Mathlib.Algebra.BigOperators.Ring.Finset

/-!
# The group-commit protocol

The invariant of `log.c` over all interleavings of operations. Most of `Inv` needs nothing
but the code: who may commit, what `outstanding` counts, which blocks the header holds and who
sleeps. What it says of the contents of the disk holds as long as every `log_write` that
appends a block still finds the room it has tested for (`Room`), and is under the hypothesis
`strict`. What it says of the reserved space holds as long as no operation logs more than
`MAXOPBLOCKS` blocks (`Within`), and is under the hypothesis `budget`. With both false the
protocol says what holds in every run.

The committer's view of the state is the whole memory of the log, since no other process
touches it during a commit. So `commit` is run as if it were alone, and what it does is taken
from `Txn.seq_commit`.
-/

namespace Xv6.Log

open Lib Prog
open Function (update update_of_ne update_self)

/-! ## Commit, run by one process -/

/-- The transaction in memory can be committed: the copies fit into the log, the homes are
not in it, and the log on disk is empty. -/
structure Fits (m : LogMem) : Prop where
  fits : 0 < m.lh.n → (m.lh.n : Int) ≤ m.size - 1
  outside : ∀ b ∈ m.lh.block, ¬ m.InLog b.toNat
  clean : headN (m.disk m.start) = 0

/-- What `commit` makes of the memory `m0`. -/
structure Settled (m0 m : LogMem) : Prop where
  clean : headN (m.disk m0.start) = 0
  homes : ∀ b ∈ m0.lh.block, m.disk b.toNat = m0.buf b.toNat
  rest : ∀ a, ¬ m0.InLog a → (∀ b ∈ m0.lh.block, b.toNat ≠ a) → m.disk a = m0.disk a
  cached : ∀ a, ¬ m0.InLog a → m.buf a = m0.buf a

variable {π : Type} {p : π}

theorem seq_commit_frame {m0 : LogMem} :
    (commit (π := π)).seq p (InCommit m0) (fun _ m => InCommit m0 m ∧ m.lh = .empty) m0 := by
  have h0 : InCommit m0 m0 := ⟨rfl, rfl, Or.inl rfl⟩
  have hloop : ∀ (m : LogMem) (a b c : LogMem → Nat → BitVec 32 → Nat) (f : Block → Block → Block),
      InCommit m0 m ∧ m.lh = m0.lh →
      (forTail (π := π) (fun i blk => Log.mem >>= fun m => bread (a m i blk) >>= fun v =>
        bread (b m i blk) >>= fun w => bwrite (c m i blk) (f v w)) (LOGSIZE + 1) 0).seq p
        (InCommit m0) (fun _ m => InCommit m0 m ∧ m.lh = m0.lh) m := by
    intro m a b c f hm
    refine seq_forTail m0.lh (J := fun _ m => InCommit m0 m ∧ m.lh = m0.lh) (fun _ _ h => h.1)
      (fun _ _ h => h.2) (fun i blk m h _ => ?_) hm
    exact seq_mem h.1 (seq_copy h.1 (h.1.put _ _) ⟨h.1.put _ _, h.2⟩)
  have hwrite : ∀ m, InCommit m0 m → (writeHead (π := π)).seq p (InCommit m0)
      (fun _ m' => InCommit m0 m' ∧ m'.lh = m.lh) m := fun m h =>
    seq_writeHead h (h.put _ _) ⟨h.put _ _, rfl⟩
  refine seq_mem h0 ?_
  by_cases hn : 0 < m0.lh.n
  · rw [if_pos hn]
    refine seq_bind (seq_mono (hloop m0 (fun m i _ => m.start + i + 1) (fun _ _ b => b.toNat)
      (fun m i _ => m.start + i + 1) (fun _ v => v) ⟨h0, rfl⟩) (fun _ h => h) ?_)
    rintro - m1 - ⟨h1, hl1⟩
    refine seq_bind (seq_mono (hwrite m1 h1) (fun _ h => h) ?_)
    rintro - m2 - ⟨h2, hl2⟩
    refine seq_bind (seq_mono (hloop m2 (fun m i _ => m.start + i + 1) (fun _ _ b => b.toNat)
      (fun _ _ b => b.toNat) (fun v _ => v) ⟨h2, hl2.trans hl1⟩) (fun _ h => h) ?_)
    rintro - m3 - ⟨h3, -⟩
    exact seq_step h3 rfl (hwrite _ ⟨h3.start, h3.size, Or.inr rfl⟩)
  · rw [if_neg hn]
    exact ⟨h0, h0, LogHeader.eq_empty (Nat.eq_zero_of_not_pos hn)⟩

theorem seq_commit_settled {m0 : LogMem} (h : Fits m0) (hnd : m0.lh.block.Nodup)
    (hw : m0.writes = []) :
    (commit (π := π)).seq p (InCommit m0)
      (fun _ m => (InCommit m0 m ∧ m.lh = .empty) ∧ Settled m0 m) m0 := by
  by_cases hn : 0 < m0.lh.n
  · let t : Txn := ⟨m0.start, m0.size, m0.lh, m0.disk, m0.buf, hnd, h.fits hn, h.outside, h.clean⟩
    have ht : t.mem = m0 := by
      rw [Txn.mem, ← hw]
    rw [← ht]
    refine seq_mono (Txn.seq_commit t) (fun _ hm => hm.1) ?_
    rintro - m - hF
    refine ⟨⟨⟨hF.start, hF.size, Or.inr hF.lh⟩, hF.lh⟩, hF.disk.1, fun b hb => ?_,
      fun a ha hne => ?_, hF.cached⟩
    · have hmem : b.toNat ∈ t.lh.block.map BitVec.toNat := List.mem_map_of_mem hb
      rw [hF.disk.2 _ (t.outside b hb), Txn.post, if_pos hmem]
      rfl
    · rw [hF.disk.2 a ha, Txn.post, if_neg]
      · rfl
      · intro hmem
        obtain ⟨b, hb, rfl⟩ := List.mem_map.mp hmem
        exact hne b hb rfl
  · have h0 : m0.lh = .empty := LogHeader.eq_empty (Nat.eq_zero_of_not_pos hn)
    refine seq_mem ⟨rfl, rfl, Or.inl rfl⟩ ?_
    rw [if_neg hn]
    refine ⟨⟨rfl, rfl, Or.inl rfl⟩, ⟨⟨rfl, rfl, Or.inl rfl⟩, h0⟩, h.clean, ?_, fun _ _ _ => rfl,
      fun _ _ => rfl⟩
    simp [h0]

/-! ## The invariant -/

structure Content (d : Nat → Block) (m : LogMem) (h : List (Ev π)) : Prop where
  fits : Fits m
  cached : ∀ a, ¬ m.InLog a → m.buf a = contents d h a
  disk : ∀ a, ¬ m.InLog a → m.disk a = installed d h a

/-- How many processes are between `begin_op` and `end_op`. -/
def opens [Fintype π] (role : π → Role) : Nat := ∑ q, if role q = .inOp then 1 else 0

/-- Who is doing what: `outstanding` counts the open operations, and a commit is run by one
process while no operation is open. -/
structure Roles [Fintype π] (role : π → Role) (outstanding : Int) (committing : Bool)
    (h : List (Ev π)) : Prop where
  count : outstanding = opens role
  committer : committing = true ↔ ∃ q, role q = .committer
  alone : ∀ q r, role q = .committer → role r ≠ .outside → r = q
  opened : ∀ q, Open q h ↔ role q = .inOp
  whole : Whole h

/-- The log space in use, with what the open operations may still take. -/
def reserved [Fintype π] [DecidableEq π] (role : π → Role) (h : List (Ev π)) : Nat :=
  (logged h).card + ∑ q, if role q = .inOp then MAXOPBLOCKS - (opBlocks q h).card else 0

structure Inv [Fintype π] [DecidableEq π] (start size : Nat) (d : Nat → Block)
    (strict budget : Prop) (s : LogSt π) : Prop where
  start : s.mem.start = start
  size : s.mem.size = size
  nodup : s.mem.lh.block.Nodup
  roles : Roles s.role s.outstanding s.committing s.hist
  asleep : ∀ q, s.asleep q = true → s.committing = true ∨ s.NoSpace
  idle : s.committing = false → s.outstanding = 0 → s.mem.lh.n = 0
  header : s.committing = false → ∀ b, b ∈ s.mem.lh.block ↔ b ∈ logged s.hist
  data : strict → s.committing = false → Content d s.mem s.hist
  space : budget → s.committing = false → reserved s.role s.hist ≤ LOGSIZE

/-- What a process sees: the committer sees the whole memory of the log. -/
inductive View (π : Type) where
  | outside
  | inOp
  | committer (m : LogMem) (h : List (Ev π))

def view (p : π) (s : LogSt π) : View π :=
  match s.role p with
  | .outside => .outside
  | .inOp => .inOp
  | .committer => .committer s.mem s.hist

/-- A `log_write` that appends a block finds the room it has tested for. -/
def Room (l : Lab) (s : LogSt π) : Prop :=
  match l with
  | .append b => b ∈ s.mem.lh.block ∨ ¬ s.TooBig
  | _ => True

theorem room_append_iff (b : BitVec 32) (s : LogSt π) :
    (s.mem.lh.block.contains b || !decide s.TooBig) = true ↔ Room (.append b) s := by
  simp [Room]

/-- A `log_write` of process `p` keeps the operation within `MAXOPBLOCKS` blocks. -/
def Within [DecidableEq π] (p : π) (l : Lab) (s : LogSt π) : Prop :=
  match l with
  | .append b => (insert b (opBlocks p s.hist)).card ≤ MAXOPBLOCKS
  | _ => True

/-- The distinct blocks written since the last commit fill the log. -/
def Full (size : Nat) (s : LogSt π) : Prop :=
  LOGSIZE ≤ (logged s.hist).card ∨ (size : Int) - 1 ≤ (logged s.hist).card

def logProto [Fintype π] [DecidableEq π] (start size : Nat) (d : Nat → Block)
    (strict budget : Prop) : Proto π (LogSt π) Lab (View π) where
  inv := Inv start size d strict budget
  guar _ _ := True
  view := view
  lab _ l v :=
    match l with
    | .enter => v = .outside
    | .test | .append _ | .leave => v = .inOp
    | .commit | .finish => ∃ m h, v = .committer m h
  cond p l s := (strict → Room l s) ∧ (budget → Within p l s)
  panics s m := m = "too big a transaction" ∧ Full size s
  faults := ¬ strict ∧ ¬ budget
  idle _ v := v = .outside ∨ v = .inOp

theorem view_congr {q : π} {s s' : LogSt π} (hr : s'.role q = s.role q)
    (hc : s.role q = .committer → s'.mem = s.mem ∧ s'.hist = s.hist) : view q s' = view q s := by
  unfold view
  rw [hr]
  cases h : s.role q with
  | outside => rfl
  | inOp => rfl
  | committer => rw [(hc h).1, (hc h).2]

theorem role_of_view_outside {s : LogSt π} (h : view p s = .outside) : s.role p = .outside := by
  unfold view at h
  cases hr : s.role p <;> rw [hr] at h <;> first | rfl | cases h

theorem role_of_view_inOp {s : LogSt π} (h : view p s = .inOp) : s.role p = .inOp := by
  unfold view at h
  cases hr : s.role p <;> rw [hr] at h <;> first | rfl | cases h

theorem role_of_view_committer {s : LogSt π} {m : LogMem} {h : List (Ev π)}
    (hv : view p s = .committer m h) : s.role p = .committer ∧ s.mem = m ∧ s.hist = h := by
  unfold view at hv
  cases hr : s.role p with
  | outside => rw [hr] at hv; cases hv
  | inOp => rw [hr] at hv; cases hv
  | committer =>
    rw [hr] at hv
    cases hv
    exact ⟨rfl, rfl, rfl⟩

theorem view_of_outside {s : LogSt π} (h : s.role p = .outside) : view p s = .outside := by
  rw [view, h]

theorem view_of_inOp {s : LogSt π} (h : s.role p = .inOp) : view p s = .inOp := by
  rw [view, h]

theorem view_of_committer {s : LogSt π} (h : s.role p = .committer) :
    view p s = .committer s.mem s.hist := by
  rw [view, h]

/-! ## Who is doing what -/

section Roles

variable [Fintype π] {role : π → Role} {o : Int} {committing : Bool} {h : List (Ev π)}

theorem Roles.no_committer (hR : Roles role o false h) (q : π) : role q ≠ .committer :=
  fun hq => absurd (hR.committer.mpr ⟨q, hq⟩) Bool.false_ne_true

theorem Roles.not_committing (hR : Roles role o committing h) (hp : role p = .inOp) :
    committing = false := by
  cases committing with
  | false => rfl
  | true =>
    obtain ⟨q, hq⟩ := hR.committer.mp rfl
    obtain rfl := hR.alone q p hq (by rw [hp]; decide)
    rw [hp] at hq
    cases hq

theorem Roles.pos (hR : Roles role o committing h) (hp : role p = .inOp) : 1 ≤ o := by
  have := le_sum (fun q => if role q = .inOp then 1 else 0) p
  rw [hR.count, opens]
  simp only [hp, if_true] at this
  exact_mod_cast this

theorem Roles.others_outside (hR : Roles role o committing h) (hp : role p = .committer) (q : π)
    (hq : q ≠ p) : role q = .outside := by
  by_contra hne
  exact hq (hR.alone p q hp hne)

theorem Roles.wrote (hR : Roles role o committing h) (b : BitVec 32) (v : Block) :
    Roles role o committing (.wrote p b v :: h) :=
  ⟨hR.count, hR.committer, hR.alone, hR.opened, hR.whole⟩

variable [DecidableEq π]

theorem opens_update (role : π → Role) (p : π) (r : Role) :
    opens (update role p r) + (if role p = .inOp then 1 else 0) =
      opens role + (if r = .inOp then 1 else 0) := by
  have := sum_eq_off (f := fun q => if update role p r q = .inOp then 1 else 0)
    (g := fun q => if role q = .inOp then 1 else 0) p
    (fun q hq => by rw [update_of_ne hq])
  simpa only [opens, update_self] using this

theorem Roles.move {r : Role} {o' : Int} {e : Ev π} (hR : Roles role o committing h)
    (hno : ∀ q, q ≠ p → role q ≠ .committer) (hr : r ≠ .committer)
    (ho : o' = opens (update role p r)) (hopen : ∀ q, Open q (e :: h) ↔
      if q = p then r = .inOp else Open q h) (hw : Whole (e :: h)) :
    Roles (update role p r) o' false (e :: h) := by
  have hno' : ∀ q, update role p r q ≠ .committer := by
    intro q
    by_cases hq : q = p
    · simpa [hq] using hr
    · simpa [hq] using hno q hq
  refine ⟨ho, ?_, fun q _ hq => absurd hq (hno' q), fun q => ?_, hw⟩
  · simpa using hno'
  · rw [hopen]
    by_cases hq : q = p
    · simp [hq]
    · simp [hq, hR.opened q]

theorem Roles.begin (hR : Roles role o false h) (hp : role p = .outside) :
    Roles (update role p .inOp) (o + 1) false (.began p :: h) := by
  have hn := opens_update role p .inOp
  refine hR.move (fun q _ => hR.no_committer q) (by decide) ?_ (fun q => ?_) hR.whole
  · simp only [hp, reduceCtorEq, if_false, if_true] at hn
    rw [hR.count]
    omega
  · by_cases hq : q = p
    · simp [Open, hq]
    · simp [Open, hq, Ne.symm hq]

theorem Roles.end (hR : Roles role o false h) (hp : role p = .inOp) :
    Roles (update role p .outside) (o - 1) false (.ended p :: h) := by
  have hn := opens_update role p .outside
  refine hR.move (fun q _ => hR.no_committer q) (by decide) ?_ (fun q => ?_) hR.whole
  · simp only [hp, reduceCtorEq, if_false, if_true] at hn
    rw [hR.count]
    omega
  · simp [open_ended]

theorem Roles.commit (hR : Roles role o false h) (hp : role p = .inOp) (ho : o - 1 = 0) :
    Roles (update role p .committer) (o - 1) true (.ended p :: h) := by
  have hn := opens_update role p .committer
  simp only [hp, reduceCtorEq, if_false, if_true] at hn
  have hcount : o - 1 = opens (update role p .committer) := by
    rw [hR.count]
    omega
  -- the count is zero, so everybody else is outside
  have hout : ∀ q, update role p .committer q ≠ .inOp := by
    intro q hq
    have := le_sum (fun q => if update role p .committer q = .inOp then 1 else 0) q
    simp only [hq, if_true] at this
    rw [← opens] at this
    omega
  have hother : ∀ q, q ≠ p → role q = .outside := by
    intro q hq
    have h1 := hout q
    have h2 := hR.no_committer q
    rw [update_of_ne hq] at h1
    cases hr : role q with
    | outside => rfl
    | inOp => exact absurd hr h1
    | committer => exact absurd hr h2
  refine ⟨hcount, by simpa using ⟨p, update_self ..⟩, fun q r hq hr => ?_, fun q => ?_,
    hR.whole⟩
  · have hqp : ∀ q, update role p .committer q ≠ .outside → q = p := by
      intro q hq
      by_contra hne
      rw [update_of_ne hne] at hq
      exact hq (hother q hne)
    rw [hqp q (by rw [hq]; decide), hqp r hr]
  · rw [open_ended]
    by_cases hq : q = p
    · simp [hq]
    · simp [hq, hR.opened q]

theorem Roles.finish (hR : Roles role o true h) (hp : role p = .committer) :
    Roles (update role p .outside) o false (.committed :: h) := by
  have hn := opens_update role p .outside
  have hclosed : ∀ q, ¬ Open q h := by
    intro q hq
    rw [hR.opened] at hq
    obtain rfl := hR.alone p q hp (by rw [hq]; decide)
    rw [hp] at hq
    cases hq
  refine hR.move (fun q hq => by rw [hR.others_outside hp q hq]; decide) (by decide) ?_
    (fun q => ?_)
    ⟨hclosed, hR.whole⟩
  · simp only [hp, reduceCtorEq, if_false] at hn
    rw [hR.count]
    omega
  · simp [Open, hclosed q]

end Roles

/-! ## The reserved space -/

section Reserved

variable [Fintype π] [DecidableEq π] {role : π → Role} {h : List (Ev π)}

theorem reserved_le (role : π → Role) (h : List (Ev π)) :
    reserved role h ≤ (logged h).card + opens role * MAXOPBLOCKS := by
  rw [reserved, opens, Finset.sum_mul]
  refine Nat.add_le_add_left (Finset.sum_le_sum fun q _ => ?_) _
  split
  · rw [Nat.one_mul]
    exact Nat.sub_le _ _
  · exact Nat.zero_le _

theorem reserved_wrote_lt {b : BitVec 32} (hw : Whole h) (ho : Open p h) (hp : role p = .inOp)
    (hb : (insert b (opBlocks p h)).card ≤ MAXOPBLOCKS) (hmem : b ∉ logged h) :
    (logged h).card < reserved role h := by
  have hsub := opBlocks_subset hw ho
  have := le_sum (fun q => if role q = .inOp then MAXOPBLOCKS - (opBlocks q h).card else 0) p
  rw [Finset.card_insert_of_notMem fun h => hmem (hsub h)] at hb
  simp only [hp, if_true] at this
  rw [reserved]
  omega

theorem reserved_wrote {b : BitVec 32} {v : Block} (hw : Whole h) (ho : Open p h)
    (hp : role p = .inOp) (hb : (insert b (opBlocks p h)).card ≤ MAXOPBLOCKS) :
    reserved role (.wrote p b v :: h) ≤ reserved role h := by
  have hsum := sum_eq_off
    (f := fun q => if role q = .inOp then MAXOPBLOCKS -
      (opBlocks q (.wrote p b v :: h)).card else 0)
    (g := fun q => if role q = .inOp then MAXOPBLOCKS - (opBlocks q h).card else 0) p
    (fun q hq => by simp only [opBlocks, if_neg (Ne.symm hq)])
  have hsub := opBlocks_subset hw ho
  simp only [hp, if_true, opBlocks] at hsum
  simp only [reserved, logged, opBlocks] at hsum ⊢
  by_cases hmem : b ∈ logged h
  · rw [Finset.insert_eq_of_mem hmem]
    have := Finset.card_le_card (Finset.subset_insert b (opBlocks p h))
    omega
  · rw [Finset.card_insert_of_notMem hmem]
    rw [Finset.card_insert_of_notMem fun h => hmem (hsub h)] at hsum hb
    omega

theorem reserved_ended {r : Role} (hr : r ≠ .inOp) :
    reserved (update role p r) (.ended p :: h) ≤ reserved role h := by
  refine Nat.add_le_add_left (Finset.sum_le_sum fun q _ => ?_) _
  by_cases hq : q = p
  · subst hq
    rw [update_self, if_neg hr]
    exact Nat.zero_le _
  · rw [update_of_ne hq]
    exact le_rfl

theorem reserved_committed (hout : ∀ q, role q ≠ .inOp) :
    reserved role (.committed :: h) = 0 := by
  simp [reserved, logged, hout]

end Reserved

/-! ## The operations keep the invariant -/

variable [Fintype π] [DecidableEq π] {start size : Nat} {d : Nat → Block}
  {strict budget : Prop} {s : LogSt π}

theorem Inv.card_logged (h : Inv start size d strict budget s) (hc : s.committing = false) :
    (logged s.hist).card = s.mem.lh.n := by
  have : logged s.hist = s.mem.lh.block.toFinset := by
    ext b
    rw [List.mem_toFinset, h.header hc]
  rw [this, List.toFinset_card_of_nodup h.nodup, LogHeader.n]

theorem wp_logWrite {b : BitVec 32} {v : Block}
    (hb : ¬ (start ≤ b.toNat ∧ b.toNat < start + size)) :
    wp (logProto start size d strict budget) p (logWrite b v) (fun _ v => v = .inOp) .inOp := by
  refine ⟨rfl, fun s hs hv _ => ?_⟩
  have hrole := role_of_view_inOp hv
  have hc := hs.roles.not_committing hrole
  dsimp only
  split
  · rename_i hbig
    refine ⟨rfl, ?_⟩
    rw [Full, hs.card_logged hc, ← hs.size]
    exact hbig
  split
  · rename_i ho
    have := hs.roles.pos hrole
    omega
  refine ⟨⟨hs, fun _ _ => .inl rfl, trivial⟩, hv.symm ▸ ⟨rfl, fun s hs hv hroom => ?_⟩⟩
  have hrole := role_of_view_inOp hv
  have hc := hs.roles.not_committing hrole
  have hpos := hs.roles.pos hrole
  dsimp only
  cases hrec : s.mem.lh.record b with
  | none =>
    unfold LogHeader.record at hrec
    split at hrec
    · cases hrec
    rename_i hmem
    split at hrec
    · cases hrec
    rename_i hfull
    refine ⟨fun hst => ?_, fun hbu => ?_⟩
    · have := (hroom.1 hst).resolve_left hmem
      unfold LogSt.TooBig at this
      omega
    · -- the next block would be one more than has been reserved
      have h1 := hs.space hbu hc
      have h2 := reserved_wrote_lt hs.roles.whole ((hs.roles.opened p).mpr hrole) hrole
        (hroom.2 hbu) fun h => hmem ((hs.header hc b).mpr h)
      have h3 := hs.card_logged hc
      omega
  | some lh =>
    have hn := LogHeader.n_record hrec
    refine ⟨⟨⟨hs.start, hs.size, LogHeader.nodup_record hrec hs.nodup, hs.roles.wrote b v,
      fun q hq => ?_, fun _ ho => ?_, fun _ a => ?_, fun hst _ => ?_, fun hbu _ => ?_⟩,
      fun q hq => .inl ?_, trivial⟩, ?_⟩
    · refine (hs.asleep q hq).imp id fun h => ?_
      simp only [LogSt.NoSpace, LogSt.append] at h ⊢
      omega
    · exact absurd ho (by simp only [LogSt.append]; omega)
    · simp only [LogSt.append, logged, Finset.mem_insert]
      rw [LogHeader.mem_record hrec, hs.header hc]
    · obtain ⟨⟨hfits, hout, hclean⟩, hcached, hdisk⟩ := hs.data hst hc
      refine ⟨⟨fun _ => ?_, fun a ha => ?_, hclean⟩, fun a ha => ?_, hdisk⟩
      · rcases hroom.1 hst with hmem | hbig
        · simp only [LogSt.append, hn.2.2 hmem]
          exact hfits (List.length_pos_of_mem hmem)
        · simp only [LogSt.append]
          unfold LogSt.TooBig at hbig
          omega
      · rcases (LogHeader.mem_record hrec a).mp ha with rfl | ha
        · rw [← hs.start, ← hs.size] at hb
          exact hb
        · exact hout a ha
      · simp only [LogSt.append, contents]
        by_cases hab : a = b.toNat
        · rw [hab, update_self, update_self]
        · rw [update_of_ne hab, update_of_ne hab]
          exact hcached a ha
    · exact (reserved_wrote hs.roles.whole ((hs.roles.opened p).mpr hrole) hrole
        (hroom.2 hbu)).trans (hs.space hbu hc)
    · exact view_congr rfl fun h => absurd h ((hc ▸ hs.roles).no_committer q)
    · exact view_of_inOp hrole

theorem inv_bootLog (hd : strict → headN (d start) = 0) :
    Inv (π := π) start size d strict budget (bootLog start size d) where
  start := rfl
  size := rfl
  nodup := List.nodup_nil
  roles :=
    { count := by simp [bootLog, opens]
      committer := by simp [bootLog]
      alone := fun _ _ h => nomatch h
      opened := fun _ => by simp [bootLog, Open]
      whole := trivial }
  asleep := fun _ h => nomatch h
  idle := fun _ _ => rfl
  header := fun _ _ => by simp [bootLog, logged]
  data := fun hst _ => ⟨⟨fun h => absurd h (Nat.lt_irrefl _), by simp [bootLog], hd hst⟩,
    fun _ _ => rfl, fun _ _ => rfl⟩
  space := fun _ _ => by simp [bootLog, reserved, logged]

theorem wp_beginOp : wp (logProto start size d strict budget) p beginOp
    (fun _ v => v = .inOp) .outside := by
  refine ⟨rfl, fun s hs hv _ => ?_⟩
  have hrole := role_of_view_outside hv
  have hsleep : s.committing = true ∨ s.NoSpace →
      (logProto start size d strict budget).Ok p s (fun (_ : Unit) v => v = .inOp)
        (.again (s.sleep p)) := by
    intro hc
    refine ⟨⟨{ hs with asleep := fun q hq => ?_ }, fun _ _ => .inl rfl, trivial⟩, rfl⟩
    by_cases hqp : q = p
    · exact hc
    · exact hs.asleep q (by simpa [LogSt.sleep, update_of_ne hqp] using hq)
  dsimp only
  split
  · trivial
  split
  · rename_i hc
    exact hsleep (Or.inl hc)
  split
  · rename_i hn
    exact hsleep (Or.inr hn)
  rename_i _ hc hn
  have hc : s.committing = false := Bool.eq_false_of_not_eq_true hc
  have hR := hs.roles
  rw [hc] at hR
  have hcount := hR.count
  refine ⟨⟨⟨hs.start, hs.size, hs.nodup, ?_, fun q hq => ?_, fun _ ho => ?_, hs.header,
    fun h1 h2 => ?_, fun _ _ => ?_⟩, fun q hq => .inl ?_, trivial⟩, ?_⟩
  · exact hc ▸ hR.begin hrole
  · refine Or.inr ((hs.asleep q hq).elim (fun h => absurd h (by simp [hc])) fun h => ?_)
    simp only [LogSt.NoSpace, LogSt.note_mem, LogSt.note_outstanding, MAXOPBLOCKS] at h ⊢
    omega
  · simp only [LogSt.note_outstanding] at ho
    omega
  · have c := hs.data h1 h2
    exact ⟨c.fits, c.cached, c.disk⟩
  · refine (reserved_le _ _).trans ?_
    have h1 := hs.card_logged hc
    have h2 := opens_update s.role p .inOp
    simp only [hrole, reduceCtorEq, if_false, if_true] at h2
    simp only [LogSt.note_role, LogSt.note_hist, logged, LogSt.NoSpace, MAXOPBLOCKS] at hn ⊢
    omega
  · exact view_congr (by simp [hq]) fun h => absurd h (hR.no_committer q)
  · exact view_of_inOp (by simp)

theorem wp_finishCommit {m0 : LogMem} {h₀ : List (Ev π)} (hstart : m0.start = start)
    (hsize : m0.size = size) (hnd : m0.lh.block.Nodup) (hw : m0.writes = [])
    (hhead : ∀ b, b ∈ m0.lh.block ↔ b ∈ logged h₀) (hdata : strict → Content d m0 h₀) :
    wp (logProto start size d strict budget) p
      (commitOp >>= fun _ => .step .finish fun p s =>
        .done () ({ s with committing := false }.wakeup.note p .outside .committed))
      (fun _ v => v = .outside) (.committer m0 h₀) := by
  have hseq : (commit (π := π)).seq p (InCommit m0)
      (fun _ m => (InCommit m0 m ∧ m.lh = .empty) ∧ (strict → Settled m0 m)) m0 := by
    by_cases hst : strict
    · exact seq_mono (seq_commit_settled (hdata hst).fits hnd hw) (fun _ h => h)
        fun _ _ _ h => ⟨h.1, fun _ => h.2⟩
    · exact seq_mono seq_commit_frame (fun _ h => h) fun _ _ _ h => ⟨h, fun h' => absurd h' hst⟩
  refine wp_bind (wp_mono (wp_lift (L := logProto start size d strict budget)
    (V := fun m => .committer m h₀) ?_ ?_ ?_ hseq) ?_)
  · exact fun _ m _ => ⟨m, h₀, rfl⟩
  · exact fun s m _ hv => (role_of_view_committer hv).2.1
  · intro s m m' hs hv hm'
    obtain ⟨hrole, rfl, rfl⟩ := role_of_view_committer hv
    have hc : s.committing = true := hs.roles.committer.mpr ⟨p, hrole⟩
    have hnc : ∀ {P : Prop}, s.committing = false → P := fun h => by rw [hc] at h; cases h
    refine ⟨⟨⟨hm'.start.trans hstart, hm'.size.trans hsize, ?_, hs.roles, fun _ _ => Or.inl hc,
      fun h => hnc h, fun h => hnc h, fun _ h => hnc h, fun _ h => hnc h⟩, fun q hq => .inl ?_,
        trivial⟩, ?_⟩
    · rcases hm'.lh with h | h
      · simpa [h] using hnd
      · simp [h]
    · exact view_congr rfl fun h => by rw [hs.roles.others_outside hrole q hq] at h; cases h
    · exact view_of_committer hrole
  · rintro - _ ⟨m, rfl, ⟨hI, hlh⟩, hset⟩
    refine ⟨⟨m, h₀, rfl⟩, fun s hs hv _ => ?_⟩
    obtain ⟨hrole, rfl, rfl⟩ := role_of_view_committer hv
    have hc : s.committing = true := hs.roles.committer.mpr ⟨p, hrole⟩
    refine ⟨⟨⟨hs.start, hs.size, hs.nodup, ?_, fun q hq => ?_, fun _ _ => ?_, fun _ b => ?_,
      fun hst _ => ?_, fun _ _ => ?_⟩, fun q hq => .inl ?_, trivial⟩, ?_⟩
    · exact (hc ▸ hs.roles).finish hrole
    · cases hq
    · exact (congrArg LogHeader.n hlh).trans rfl
    · simp [LogSt.wakeup, logged, hlh]
    · obtain ⟨hclean, hhomes, hrest, hbuf⟩ := hset hst
      obtain ⟨⟨_, hout, _⟩, hcached, hdisk⟩ := hdata hst
      have hin : ∀ a, ¬ s.mem.InLog a → ¬ m0.InLog a := by
        intro a ha
        rwa [LogMem.InLog, ← hI.start, ← hI.size]
      refine ⟨⟨fun h => ?_, ?_, ?_⟩, fun a ha => ?_, fun a ha => ?_⟩
      · simp [LogSt.wakeup, hlh] at h
      · simp [LogSt.wakeup, hlh]
      · exact hI.start ▸ hclean
      · exact (hbuf a (hin a ha)).trans (hcached a (hin a ha))
      · change s.mem.disk a = contents d s.hist a
        by_cases hmem : ∃ b ∈ m0.lh.block, b.toNat = a
        · obtain ⟨b, hb, rfl⟩ := hmem
          rw [hhomes b hb]
          exact hcached _ (hin _ ha)
        · -- not in the transaction: nothing was written since the last commit
          simp only [not_exists, not_and] at hmem
          rw [hrest a (hin a ha) hmem, hdisk a (hin a ha),
            contents_eq_installed fun b hb => hmem b ((hhead b).mpr hb)]
    · refine (reserved_committed fun q hq => ?_).trans_le (Nat.zero_le _)
      by_cases hqp : q = p
      · simp [hqp] at hq
      · simp [hqp, LogSt.wakeup, hs.roles.others_outside hrole q hqp] at hq
    · exact view_congr (by simp [hq, LogSt.wakeup])
        fun h => by rw [hs.roles.others_outside hrole q hq] at h; cases h
    · exact view_of_outside (by simp)

theorem wp_endOp : wp (logProto start size d strict budget) p endOp
    (fun _ v => v = .outside) .inOp := by
  refine ⟨rfl, fun s hs hv _ => ?_⟩
  have hrole := role_of_view_inOp hv
  have hc := hs.roles.not_committing hrole
  have hR := hs.roles
  rw [hc] at hR
  have hother : ∀ q, q ≠ p → ∀ r e s', s'.role = update s.role p r →
      s'.hist = e :: s.hist → view q s' = view q s := fun q hq r e s' hr _ =>
    view_congr (by rw [hr, update_of_ne hq]) fun h => absurd h (hR.no_committer q)
  dsimp only
  rw [if_neg (by simp [hc])]
  split
  · rename_i ho
    refine ⟨⟨⟨hs.start, hs.size, hs.nodup, hR.commit hrole ho, fun _ _ => Or.inl rfl,
      fun h => (nomatch h), fun h => (nomatch h), fun _ h => (nomatch h), fun _ h => (nomatch h)⟩,
      fun q hq => .inl (hother q hq _ _ _ rfl rfl), trivial⟩, ?_⟩
    change wp _ p _ _ (view p _)
    rw [view_of_committer (by simp)]
    refine wp_finishCommit hs.start hs.size hs.nodup rfl (hs.header hc) fun hst => ?_
    obtain ⟨⟨h1, h2, h3⟩, h4, h5⟩ := hs.data hst hc
    exact ⟨⟨h1, h2, h3⟩, h4, h5⟩
  · rename_i ho
    refine ⟨⟨⟨hs.start, hs.size, hs.nodup, hc ▸ hR.end hrole, fun _ h => (nomatch h),
      fun _ h => absurd h ho, hs.header, fun hst h => ?_,
      fun hbu _ => (reserved_ended (by decide)).trans (hs.space hbu hc)⟩,
      fun q hq => .inl (hother q hq _ _ _ rfl rfl), trivial⟩, view_of_outside (by simp)⟩
    obtain ⟨h1, h2, h3⟩ := hs.data hst hc
    exact ⟨h1, h2, h3⟩

theorem logProto_sound : (logProto (π := π) start size d strict budget).Sound (logSys π) where
  calls p s x hs hidle hx := by
    change wp _ p x _ (view p s)
    unfold logSys at hx
    cases hr : s.role p with
    | outside =>
      simp only [hr] at hx
      rw [hx, view_of_outside hr]
      exact wp_mono wp_beginOp fun _ _ h => Or.inr h
    | inOp =>
      simp only [hr] at hx
      rw [view_of_inOp hr]
      rcases hx with rfl | ⟨b, v, hb, rfl⟩
      · exact wp_mono wp_endOp fun _ _ h => Or.inl h
      · refine wp_mono (wp_logWrite ?_) fun _ _ h => Or.inr h
        rwa [LogMem.InLog, hs.start, hs.size] at hb
    | committer => simp only [hr] at hx
  env s s' hs h := by
    obtain ⟨p, rfl⟩ := h
    refine ⟨{ hs with asleep := fun q hq => ?_ }, fun _ => rfl⟩
    by_cases hqp : q = p
    · simp [hqp] at hq
    · exact hs.asleep q (by simpa [hqp] using hq)

/-! ## Every reachable state -/

/-- The action process `p` takes next finds the room it has tested for. -/
def FindsRoom (c : Config π (LogSt π) Lab) (p : π) : Prop :=
  ∀ l ∈ c.next p, Room l c.shared

instance (l : Lab) (s : LogSt π) : Decidable (Room l s) :=
  match l with
  | .append b => decidable_of_iff _ (room_append_iff b s)
  | .enter | .test | .leave | .commit | .finish => instDecidableTrue

instance (c : Config π (LogSt π) Lab) (p : π) : Decidable (FindsRoom c p) := by
  unfold FindsRoom; infer_instance

theorem reach_inv {c : Config π (LogSt π) Lab}
    (hr : Reach (logSys π) (.start (bootLog start size d)) c) :
    (logProto start size d False False).Holds c :=
  reach_sound logProto_sound (fun _ _ _ _ _ => ⟨fun h => h.elim, fun h => h.elim⟩)
    (Proto.Holds.start (inv_bootLog fun h => h.elim) fun _ => Or.inl rfl) hr

/-- **Group commit.** In every run in which each `log_write` that appends a block finds the
room it has tested for: while a commit runs, no operation is open and no `log_write` is under
way; an idle log is empty; the header has no duplicates; the disk holds the writes of all the
operations up to the last commit, which had all ended, and nothing else; and whoever sleeps
has a reason to. -/
theorem group_commit (hd : headN (d start) = 0) {c : Config π (LogSt π) Lab}
    (hr : Run (logSys π) FindsRoom (.start (bootLog start size d)) c) :
    (c.shared.committing = true → c.shared.outstanding = 0 ∧
      ∀ p, c.next p ≠ some .test ∧ ∀ b, c.next p ≠ some (.append b)) ∧
    (∀ p, ¬ c.Panics p "log.committing") ∧
    (c.shared.outstanding = 0 → c.shared.committing = false → c.shared.mem.lh.n = 0) ∧
    c.shared.mem.lh.block.Nodup ∧
    (c.shared.committing = false →
      ∀ a, ¬ c.shared.mem.InLog a → c.shared.mem.disk a = installed d c.shared.hist a) ∧
    Whole c.shared.hist ∧
    (∀ p, c.shared.asleep p = true → c.shared.committing = true ∨ c.shared.NoSpace) := by
  have hH : (logProto start size d True False).Holds c :=
    reach_sound logProto_sound (fun _ _ h l hl => ⟨fun _ => h l hl, fun h => h.elim⟩)
      (Proto.Holds.start (inv_bootLog fun _ => hd) fun _ => Or.inl rfl) hr
  have hI : Inv start size d True False c.shared := hH.1
  have hin : ∀ p, view p c.shared = .inOp → c.shared.committing = false := fun p hp =>
    hI.roles.not_committing (role_of_view_inOp hp)
  refine ⟨fun hc => ⟨?_, fun p => ⟨fun hl => ?_, fun b hl => ?_⟩⟩, fun p hp => ?_,
    fun ho hc => hI.idle hc ho, hI.nodup, fun hc => (hI.data trivial hc).disk, hI.roles.whole,
    hI.asleep⟩
  · by_contra ho
    have : opens c.shared.role ≠ 0 := fun h => ho (by rw [hI.roles.count, h]; rfl)
    obtain ⟨q, -, hq⟩ := Finset.exists_ne_zero_of_sum_ne_zero this
    rw [hI.roles.not_committing (p := q) (by by_contra h; exact hq (if_neg h))] at hc
    cases hc
  · rw [hin p (hH.lab_next hl)] at hc
    cases hc
  · rw [hin p (hH.lab_next hl)] at hc
    cases hc
  · -- a process about to find `committing` set would be in an operation during a commit
    have := (reach_inv hr.reach).panics_of (fun _ _ => ⟨fun h => h.elim, fun h => h.elim⟩) hp
    exact absurd this.1 (by decide)

/-! ## Two runs -/

theorem group_commit_one_commit : ∃ c, Run (logSys (Fin 3)) FindsRoom mkfsLog c ∧
    c.shared.hist.length = 4 ∧
    c.shared.mem.disk 100 = installed (fun _ => Bytes.zero) c.shared.hist 100 := by
  obtain ⟨c, hc, h1, h2, h3⟩ := Run.of_play (logSys (Fin 3)) FindsRoom
    callOf_calls (c := mkfsLog)
    ([.call 0 .begin, .act 0 1] ++ logAll 0 [100] ++ [.call 0 .end, .act 0 22])
    (P := fun c => c.shared.committing = false ∧ ¬ c.shared.mem.InLog 100 ∧
      c.shared.hist.length = 4)
    (by decide +kernel)
  exact ⟨c, hc, h3, (group_commit (by decide) hc).2.2.2.2.1 h1 100 h2⟩

/-- A log of 20 blocks, so that a transaction pins far fewer than `NBUF` buffers. Two processes test
the size when 18 blocks are logged, and then both append: the commit has 20 blocks for 19 log
blocks. The copy of the last one goes to block 22, behind the log, which is in the transaction
itself, so the home of the last one gets the contents of block 22. -/
theorem commit_overruns_log : ∃ c,
    Reach (logSys (Fin 3)) (.start (bootLog 2 20 fun _ => Bytes.zero)) c ∧
    c.shared.committing = false ∧ ¬ c.shared.mem.InLog 120 ∧
    c.shared.mem.disk 120 ≠ installed (fun _ => Bytes.zero) c.shared.hist 120 := by
  obtain ⟨c, hc, h1, h2, h3⟩ := Run.of_play (logSys (Fin 3)) (fun _ _ => True)
    callOf_calls (c := .start (bootLog 2 20 fun _ => Bytes.zero))
    (threeBegin ++ logAll 0 (22 :: List.range' 100 9) ++ logAll 1 (List.range' 110 8) ++
      [.call 1 (.write 118), .act 1 1, .call 2 (.write 120), .act 2 1, .act 1 1, .act 2 1,
        .call 0 .end, .act 0 1, .call 1 .end, .act 1 1, .call 2 .end, .act 2 212])
    (P := fun c => c.shared.committing = false ∧ ¬ c.shared.mem.InLog 120 ∧
        c.shared.mem.disk 120 ⟨0, by decide⟩ ≠
          installed (fun _ => Bytes.zero) c.shared.hist 120 ⟨0, by decide⟩)
    (by decide +kernel)
  exact ⟨c, hc, h1, h2, fun h => h3 (congrFun h _)⟩

end Xv6.Log
