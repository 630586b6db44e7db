import Xv6.Ptable.Outline

/-!
# Sleep-locks

`acquiresleep`, `releasesleep` and `holdingsleep` as code under the spinlock `lk->lk`, on the
machine of `proc.c`. A process holds a sleep-lock from the end of its `acquiresleep` up to its call
of `releasesleep`. At most one process does, `locked` says whether there is one while `lk->lk` is
free, and nobody is left asleep on a lock that is free. `holdingsleep` returns `locked`: it says
that some process holds the lock, not that its caller does.
-/

namespace Xv6.Sleeplock

open Ptable

variable {N : Nat} {κ : Type}

/-- A return of `holdingsleep`, with the processes that held the lock then. -/
structure Answer (N : Nat) where
  caller : Fin N
  r : BitVec 32
  held : Fin N → Bool

/-- `struct sleeplock`, and who has returned from `acquiresleep` and not called `releasesleep`
since, what `holdingsleep` has answered. The field `pid` is never read. -/
structure Lock (N : Nat) where
  locked : BitVec 32
  held : Fin N → Bool
  answers : List (Answer N)

def initsleeplock : Lock N := ⟨0, fun _ => false, []⟩

namespace Lock

/-- `lk->locked = 1`. -/
def take (g : Lock N) : Lock N := { g with locked := 1 }

/-- `lk->locked = 0`. -/
def drop (g : Lock N) : Lock N := { g with locked := 0 }

/-- Process `p` is at the end of `acquiresleep`, or has called `releasesleep`. -/
def hold (g : Lock N) (p : Fin N) (holds : Bool) : Lock N :=
  { g with held := Function.update g.held p holds }

/-- `r = lk->locked`. -/
def answer (g : Lock N) (p : Fin N) : Lock N :=
  { g with answers := ⟨p, g.locked, g.held⟩ :: g.answers }

end Lock

/-! ## The code -/

/-- Places with `lk->lk` held: at the loop and at the end of `acquiresleep`, at the beginning of
`releasesleep`, before its assignment and before its wakeup, before the assignment of
`holdingsleep`, and before the release. -/
inductive Place where
  | acquiresleep
  | acquired
  | releasesleep
  | unlock
  | wakeup
  | holdingsleep
  | done
deriving DecidableEq

inductive LockAct (p : Fin N) : Place → Lock N → Act Unit (Lock N) Place → Prop
  | sleep {g} : g.locked ≠ 0 → LockAct p .acquiresleep g (.sleep () .acquiresleep)
  | take {g} : g.locked = 0 → LockAct p .acquiresleep g (.set g.take .acquired)
  | acquired {g} : LockAct p .acquired g (.set (g.hold p true) .done)
  | releasesleep {g} : LockAct p .releasesleep g (.set (g.hold p false) .unlock)
  | drop {g} : LockAct p .unlock g (.set g.drop .wakeup)
  | wakeup {g} : LockAct p .wakeup g (.wakeup () .done)
  | answer {g} : LockAct p .holdingsleep g (.set (g.answer p) .done)
  | release {g} : LockAct p .done g .release

/-- Only the process that holds the lock calls `releasesleep`. -/
def sleeplock : Client N Unit (Lock N) Place where
  enter p g l := l = .acquiresleep ∨ l = .holdingsleep ∨ l = .releasesleep ∧ g.held p = true
  act p _ l g a := LockAct p l g a
  outside _ g g' := g' = g

instance : Exec (sleeplock : Client N Unit (Lock N) Place) where
  enter p g
    | .acquiresleep | .holdingsleep => true
    | .releasesleep => g.held p
    | _ => false
  enter_sound {p g l} h := by
    cases l with
    | acquiresleep => exact .inl rfl
    | holdingsleep => exact .inr (.inl rfl)
    | releasesleep => exact .inr (.inr ⟨rfl, h⟩)
    | acquired | unlock | wakeup | done => cases h
  act p _ l g := some <| match l with
    | .acquiresleep => if g.locked = 0 then .set g.take .acquired else .sleep () .acquiresleep
    | .acquired => .set (g.hold p true) .done
    | .releasesleep => .set (g.hold p false) .unlock
    | .unlock => .set g.drop .wakeup
    | .wakeup => .wakeup () .done
    | .holdingsleep => .set (g.answer p) .done
    | .done => .release
  act_sound {p _ l g a} h := by
    cases h
    cases l with
    | acquiresleep =>
      dsimp only
      split
      · next h0 => exact .take h0
      · next h0 => exact .sleep h0
    | acquired => exact .acquired
    | releasesleep => exact .releasesleep
    | unlock => exact .drop
    | wakeup => exact .wakeup
    | holdingsleep => exact .answer
    | done => exact .release

/-! ## Who holds the lock -/

/-- What is true of the lock all the time. -/
structure Fair (g : Lock N) : Prop where
  bit : g.locked = 0 ∨ g.locked = 1
  one : ∀ p q, g.held p = true → g.held q = true → p = q
  answers : ∀ a ∈ g.answers, a.r ≠ 0 ↔ ∃ p, a.held p = true

/-- While `lk->lk` is free, `locked` says whether some process holds the lock. -/
structure Good (g : Lock N) : Prop extends Fair g where
  held : g.locked = 1 ↔ ∃ p, g.held p = true

/-- A process is on its way into the lock or out of it. -/
structure Moving (g : Lock N) : Prop extends Fair g where
  locked : g.locked = 1
  free : ∀ p, ¬ g.held p = true

theorem good_initsleeplock : Good (initsleeplock : Lock N) :=
  ⟨⟨.inl rfl, nofun, nofun⟩, by simp [initsleeplock]⟩

variable {g : Lock N} {p : Fin N}

namespace Good

theorem locked_ne_zero (h : Good g) : g.locked ≠ 0 ↔ ∃ p, g.held p = true := by
  rw [← h.held]
  rcases h.bit with h1 | h1 <;> rw [h1] <;> decide

theorem take (h : Good g) (hl : g.locked = 0) : Moving g.take := by
  have hno : ∀ q, ¬ g.held q = true := fun q hq => h.locked_ne_zero.2 ⟨q, hq⟩ hl
  exact ⟨⟨.inr rfl, h.one, h.answers⟩, rfl, hno⟩

/-- The lock passes to the way out when its holder calls `releasesleep`. -/
theorem releasesleep (h : Good g) (hp : g.held p = true) : Moving (g.hold p false) := by
  have hno : ∀ q, ¬ (g.hold p false).held q = true := by
    intro q hq
    by_cases hqp : q = p
    · rw [hqp, show (g.hold p false).held p = false from Function.update_self ..] at hq
      cases hq
    · rw [show (g.hold p false).held q = g.held q from Function.update_of_ne hqp ..] at hq
      exact hqp (h.one q p hq hp)
  exact ⟨⟨h.bit, fun q r hq => absurd hq (hno q), h.answers⟩, h.held.2 ⟨p, hp⟩, hno⟩

theorem answer (h : Good g) : Good (g.answer p) := by
  refine ⟨⟨h.bit, h.one, fun a ha => ?_⟩, h.held⟩
  rcases List.mem_cons.1 ha with rfl | ha
  · exact h.locked_ne_zero
  · exact h.answers a ha

end Good

namespace Moving

theorem acquired (h : Moving g) : Good (g.hold p true) := by
  have hp : ∀ q, (g.hold p true).held q = true → q = p := by
    intro q hq
    by_contra hne
    rw [show (g.hold p true).held q = g.held q from Function.update_of_ne hne ..] at hq
    exact h.free q hq
  refine ⟨⟨h.bit, fun q r hq hr => ?_, h.answers⟩,
    fun _ => ⟨p, Function.update_self ..⟩, fun _ => h.locked⟩
  rw [hp q hq, hp r hr]

theorem drop (h : Moving g) : Good g.drop := by
  refine ⟨⟨.inl rfl, h.one, h.answers⟩, fun hl => ?_, fun ⟨q, hq⟩ => absurd hq (h.free q)⟩
  exact absurd (show (0 : BitVec 32) = 1 from hl) (by decide)

end Moving

/-- What is true of the lock where process `p` holds `lk->lk`. -/
def At (p : Fin N) : Place → Lock N → Prop
  | .acquired, g | .unlock, g => Moving g
  | .releasesleep, g => Good g ∧ g.held p = true
  | _, g => Good g

theorem At.fair {l : Place} (h : At p l g) : Fair g := by
  cases l with
  | acquired | unlock => exact Moving.toFair h
  | releasesleep => exact h.1.toFair
  | acquiresleep | wakeup | holdingsleep | done => exact Good.toFair h

theorem sleeplock_outline :
    LockOutline (sleeplock : Client N Unit (Lock N) Place) Good At (fun _ l _ => l = .acquiresleep)
      initsleeplock where
  init := good_initsleeplock
  enter := by
    rintro p g l (rfl | rfl | ⟨rfl, hp⟩) hg
    · exact hg
    · exact hg
    · exact ⟨hg, hp⟩
  set := by
    rintro p killed l g g' l' ha hl
    refine ⟨?_, fun _ _ _ h => h⟩
    cases ha with
    | take h0 => exact Good.take hl h0
    | acquired => exact Moving.acquired hl
    | releasesleep => exact hl.1.releasesleep hl.2
    | drop => exact Moving.drop hl
    | answer => exact Good.answer hl
  wakeup := by
    rintro p killed l g ch l' ⟨⟩ hl
    exact hl
  sleep := by
    rintro p killed l g ch l' ⟨⟩ hl
    exact ⟨hl, rfl⟩
  relock := by
    rintro p l g hg rfl
    exact hg
  release := by
    rintro p killed l g ⟨⟩ hl
    exact hl
  outside := by
    rintro p g g' rfl
    exact ⟨id, fun _ _ _ => ⟨id, fun _ => id⟩⟩

theorem sleeplock_discipline : Discipline (sleeplock : Client N Unit (Lock N) Place)
    (fun _ g => g.locked = 0) (fun l _ => l = .wakeup) where
  set := by
    rintro p killed l g g' l' ha ch hc hn
    cases ha with
    | take h0 => exact absurd (show (1 : BitVec 32) = 0 from hc) (by decide)
    | drop => rfl
    | acquired | releasesleep | answer =>
      rcases hn with hn | hn
      · exact absurd hc hn
      · cases hn
  wakeup := by
    rintro p killed l g ch l' ⟨⟩ ch' hne _
    exact absurd rfl hne
  sleep := by
    rintro p killed l g ch l' ha
    cases ha with
    | sleep h0 => exact ⟨h0, fun _ _ => nofun⟩
  release := by
    rintro p killed l g ⟨⟩ _ _
    exact nofun
  outside := by
    rintro p g g' rfl _
    exact id

section Steps

variable [DecidableEq κ] {s : St N κ Unit (Lock N) Place}

theorem fair_of_reachable (h : Reachable sleeplock initsleeplock s) : Fair s.g := by
  rcases (h.guarded sleeplock_outline).inside h.inv with hg | ⟨p, l, hl⟩
  · exact hg.toFair
  · exact hl.fair

/-- In every run, with any number of processes and processors, at most one process holds the lock;
while `lk->lk` is free, `locked` is 1 if there is one and 0 otherwise; and while `ptable.lock` is
free too, no process sleeps on the lock if it is not held. -/
theorem sleeplock_exclusive (h : Reachable sleeplock initsleeplock s) :
    (∀ p q, s.g.held p = true → s.g.held q = true → p = q) ∧
    (s.lk = none → (s.g.locked = 1 ↔ ∃ p, s.g.held p = true)) ∧ (s.g.locked = 0 ∨ s.g.locked = 1) ∧
    (s.ptlock = none → s.lk = none → ∀ p, (s.proc p).state = .SLEEPING →
      (s.proc p).chan = some (.client ()) → s.g.locked ≠ 0 ∧ ∃ q, s.g.held q = true) := by
  have hf := fair_of_reachable h
  have hg : s.lk = none → Good s.g := (h.guarded sleeplock_outline).free
    (h.signals discipline_trivial)
  refine ⟨hf.one, fun hlk => (hg hlk).held, hf.bit, fun h1 h2 p h3 h4 => ?_⟩
  have hne := (no_lost_wakeup sleeplock_discipline h).1 h1 h2 p () h3 h4
  exact ⟨hne, (hg h2).locked_ne_zero.1 hne⟩

end Steps

/-- Init and its child run on two processors, and init has got the lock. -/
def holds : List (Fin 2 × Cmd Place) :=
  boots 0 ++ forks 0 ++ goes 1 5 ++ (0, .enter .acquiresleep) :: goes 0 3

/-- The child waits for the lock. -/
def waits : List (Fin 2 × Cmd Place) := (1, .enter .acquiresleep) :: goes 1 5

/-- Init holds the lock and its child sleeps on it; then init releases it, and the child holds
it. -/
theorem sleeplock_exclusive_released :
    (∃ s : St 2 (Fin 2) Unit (Lock 2) Place, Reachable sleeplock initsleeplock s ∧
      (s.proc 1).state = .SLEEPING ∧ (s.proc 1).chan = some (.client ()) ∧ s.g.held 0 = true ∧
      s.g.locked ≠ 0) ∧
    ∃ s : St 2 (Fin 2) Unit (Lock 2) Place, Reachable sleeplock initsleeplock s ∧
      s.g.held 1 = true ∧ s.g.held 0 ≠ true ∧ s.g.locked = 1 := by
  constructor
  · obtain ⟨s, h, h1, h2, h3, h4, h5⟩ := exists_reachable (K := sleeplock) (g := initsleeplock)
      (c := (0 : Fin 2)) (holds ++ waits)
      (P := fun s : St 2 (Fin 2) Unit (Lock 2) Place => s.ptlock = none ∧ s.lk = none ∧
        (s.proc 1).state = .SLEEPING ∧ (s.proc 1).chan = some (.client ()) ∧ s.g.held 0 = true)
      (by decide +kernel)
    exact ⟨s, h, h3, h4, h5, ((sleeplock_exclusive h).2.2.2 h1 h2 1 h3 h4).1⟩
  · obtain ⟨s, h, h1, h2⟩ := exists_reachable (K := sleeplock) (g := initsleeplock)
      (c := (0 : Fin 2)) (holds ++ waits ++ (0, .enter .releasesleep) :: goes 0 6 ++ goes 1 10)
      (P := fun s : St 2 (Fin 2) Unit (Lock 2) Place => s.lk = none ∧ s.g.held 1 = true)
      (by decide +kernel)
    have hx := sleeplock_exclusive h
    exact ⟨s, h, h2, fun h0 => absurd (hx.1 0 1 h0 h2) (by decide), (hx.2.1 h1).2 ⟨1, h2⟩⟩

/-! ## The answer of `holdingsleep` -/

/-- `if(!holdingsleep(..)) panic(..)`, for the answer `r`. -/
def check (message : String) (r : BitVec 32) : Except String Unit :=
  if r = 0 then .error message else .ok ()

/-- The checks of `bwrite`, `brelse` and `iderw`. -/
def bwriteCheck (r : BitVec 32) : Except String Unit := check "bwrite" r

def brelseCheck (r : BitVec 32) : Except String Unit := check "brelse" r

def iderwCheck (r : BitVec 32) : Except String Unit := check "iderw: buf not locked" r

/-- The check of `iunlock`, of a null pointer too, and of the reference count. -/
def iunlockCheck (ip : Bool) (r : BitVec 32) (ref : Int) : Except String Unit :=
  if ip = false ∨ r = 0 ∨ ref < 1 then .error "iunlock" else .ok ()

theorem check_eq_ok {message : String} {r : BitVec 32} : check message r = .ok () ↔ r ≠ 0 := by
  unfold check
  by_cases h : r = 0 <;> simp [h]

theorem iunlockCheck_eq_ok {r : BitVec 32} {ref : Int} (h : 1 ≤ ref) :
    iunlockCheck true r ref = .ok () ↔ r ≠ 0 := by
  unfold iunlockCheck
  have h1 : ¬ ref < 1 := by omega
  by_cases h2 : r = 0 <;> simp [h1, h2]

section Steps

variable [DecidableEq κ] {s : St N κ Unit (Lock N) Place}

/-- `holdingsleep` has answered whether some process held the lock. So where no process other than
the caller held it, the answer is whether the caller did, and so is the outcome of the checks. -/
theorem holdingsleep_caller (h : Reachable sleeplock initsleeplock s) (a : Answer N)
    (ha : a ∈ s.g.answers) (hown : ∀ p, a.held p = true → p = a.caller) :
    (a.r ≠ 0 ↔ a.held a.caller = true) ∧
    (bwriteCheck a.r = .ok () ↔ a.held a.caller = true) ∧
    (brelseCheck a.r = .ok () ↔ a.held a.caller = true) ∧
    (iderwCheck a.r = .ok () ↔ a.held a.caller = true) ∧
    ∀ ref : Int, 1 ≤ ref → (iunlockCheck true a.r ref = .ok () ↔ a.held a.caller = true) := by
  have hr : a.r ≠ 0 ↔ a.held a.caller = true := by
    rw [(fair_of_reachable h).answers a ha]
    refine ⟨fun ⟨p, hp⟩ => ?_, fun hc => ⟨_, hc⟩⟩
    rw [← hown p hp]
    exact hp
  exact ⟨hr, check_eq_ok.trans hr, check_eq_ok.trans hr, check_eq_ok.trans hr,
    fun ref href => (iunlockCheck_eq_ok href).trans hr⟩

end Steps

theorem reach_answer (p : Fin 2) : ∃ s : St 2 (Fin 2) Unit (Lock 2) Place,
    Reachable sleeplock initsleeplock s ∧ ∃ a ∈ s.g.answers, a.caller = p ∧ a.r = 1 ∧
    ∀ q, a.held q = true ↔ q = 0 := by
  match p with
  | 0 =>
    exact exists_reachable (c := 0) (holds ++ [(0, .enter .holdingsleep), (0, .go)])
      (by decide +kernel)
  | 1 =>
    exact exists_reachable (c := 0) (holds ++ [(1, .enter .holdingsleep), (1, .go)])
      (by decide +kernel)

/-- Init holds the lock, and `holdingsleep` tells it so. -/
theorem holdingsleep_caller_init : ∃ s : St 2 (Fin 2) Unit (Lock 2) Place,
    Reachable sleeplock initsleeplock s ∧ ∃ a ∈ s.g.answers, a.caller = 0 ∧ a.held 0 = true ∧
    a.r ≠ 0 := by
  obtain ⟨s, h, a, ha, hc, -, hheld⟩ := reach_answer 0
  have hown := holdingsleep_caller h a ha fun p hp => ((hheld p).1 hp).trans hc.symm
  exact ⟨s, h, a, ha, hc, (hheld 0).2 rfl, hown.1.2 (hc ▸ (hheld 0).2 rfl)⟩

/-- Init holds the lock, and `holdingsleep` answers 1 to its child: all checks let the child
pass. -/
theorem holdingsleep_other : ∃ s : St 2 (Fin 2) Unit (Lock 2) Place,
    Reachable sleeplock initsleeplock s ∧ ∃ a ∈ s.g.answers, a.caller = 1 ∧
    (∀ p, a.held p = true ↔ p = 0) ∧ a.r = 1 ∧ bwriteCheck a.r = .ok () ∧ brelseCheck a.r = .ok () ∧
    iderwCheck a.r = .ok () ∧ iunlockCheck true a.r 1 = .ok () := by
  obtain ⟨s, h, a, ha, hc, hr, hheld⟩ := reach_answer 1
  refine ⟨s, h, a, ha, hc, hheld, hr, ?_⟩
  rw [hr]
  exact ⟨rfl, rfl, rfl, rfl⟩

end Xv6.Sleeplock
