import Xv6.Ptable.Family

/-!
# User and group ids

The calls that make, end and re-credential processes, each as one step on the process table:
`userinit`, `fork`, `exec`, `exit`, `wait`, `setuid`, `setgid`, `suid` and `sgid`. The history of a
run says which id a process should have (`granted`): the argument of the latest call that set it, or
the id of its creator at `fork`. This is the id in the table, in every run.

`suid` and `sgid` set the id of the caller's parent, which is the process that forked the caller
only as long as that one has not exited: then it is init.
-/

namespace Xv6.Cred

open Function (update update_idem update_of_ne update_self)

open Ptable

variable {N : Nat}

inductive Id where
  | uid
  | gid
deriving DecidableEq

abbrev Slot (N : Nat) := Proc N Unit Unit

def idOf (x : Slot N) : Id → BitVec 32
  | .uid => x.uid
  | .gid => x.gid

def setId (x : Slot N) (id : Id) (v : BitVec 32) : Slot N :=
  match id with
  | .uid => { x with uid := v }
  | .gid => { x with gid := v }

/-- What has happened, with processes named by their numbers. A `suid` or `sgid` is noted with the
caller, the process that forked the caller, and the one whose id was set. -/
inductive Event where
  | init (child : Nat)
  | fork (child parent : Nat)
  | exit (child : Nat)
  | set (id : Id) (who : Nat) (v : BitVec 32)
  | setParent (id : Id) (caller forker who : Nat) (v : BitVec 32)
deriving DecidableEq

/-- The process table, and the history with the latest event first. -/
structure Sys (N : Nat) where
  proc : Table N Unit Unit
  nextpid : BitVec 32
  initproc : Option (Fin N)
  births : Nat
  hist : List Event

/-! ## The calls -/

/-- The system calls with their arguments; `stack` and `copy` say whether `fork` finds memory for
the kernel stack and for the copy, and `ok` whether `exec` succeeds. -/
inductive Call where
  | fork (stack copy : Bool)
  | exec (ok : Bool)
  | exit
  | wait
  | setuid (uid : BitVec 32)
  | setgid (gid : BitVec 32)
  | suid (uid : BitVec 32)
  | sgid (gid : BitVec 32)

namespace Sys

variable (s : Sys N) (p : Fin N)

/-- `allocproc`, up to the allocation of the kernel stack. -/
def embryo (np : Fin N) : Sys N :=
  { s with
    proc := update s.proc np { s.proc np with
      state := .EMBRYO, pid := s.nextpid, priority := 10, birth := s.births }
    nextpid := s.nextpid + 1
    births := s.births + 1 }

def setProc (q : Fin N) (x : Slot N) : Sys N := { s with proc := update s.proc q x }

/-- `userinit`, which has no check that `allocproc` has found a slot. -/
def userinit : Option (Sys N) :=
  (findUnused s.proc).map fun np =>
    let s' := s.embryo np
    { s'.setProc np { s'.proc np with
        kstack := true, context := .rel .user, uid := 0, gid := 0, state := .RUNNABLE } with
      initproc := some np
      hist := .init s.births :: s.hist }

def fork (stack copy : Bool) : BitVec 32 × Sys N :=
  match findUnused s.proc with
  | none => (-1, s)
  | some np =>
    let s' := s.embryo np
    if stack ∧ copy then
      (s.nextpid, { s'.setProc np { s'.proc np with
          kstack := true, context := .rel .user, parent := some p
          uid := (s.proc p).uid, gid := (s.proc p).gid, forker := (s.proc p).birth
          state := .RUNNABLE } with
        hist := .fork s.births (s.proc p).birth :: s.hist })
    else (-1, s'.setProc np { s'.proc np with kstack := false, state := .UNUSED })

/-- `exec`, in the one field of the table that matters to another modelled function. -/
def exec (ok : Bool) : BitVec 32 × Sys N :=
  if ok then (0, s.setProc p { s.proc p with priority := 2 }) else (-1, s)

def exit : Except String (Sys N) :=
  if s.initproc = some p then .error "init exiting"
  else match s.initproc with
    | some init => .ok { s with
        proc := exitTable p init s.proc
        hist := .exit (s.proc p).birth :: s.hist }
    | none => .ok s

/-- `wait`; a process that goes to sleep calls it again when it is woken up. -/
def wait : Option (BitVec 32) × Sys N :=
  match findZombie s.proc p with
  | some q => (some (s.proc q).pid, s.setProc q (reap (s.proc q)))
  | none =>
    if havekids s.proc p = false ∨ (s.proc p).killed = true then (some (-1), s)
    else (none, s.setProc p { s.proc p with chan := some (.proc p), state := .SLEEPING })

/-- `setuid` and `setgid`. -/
def setSelf (id : Id) (v : BitVec 32) : BitVec 32 × Sys N :=
  if v.toNat ≤ 32767 then
    (v, { s.setProc p (setId (s.proc p) id v) with hist := .set id (s.proc p).birth v :: s.hist })
  else (-1, s)

/-- `suid` and `sgid`; without a parent the store goes to the first page of the user memory. -/
def setParent (id : Id) (v : BitVec 32) : BitVec 32 × Sys N :=
  if v.toNat ≤ 32767 then
    match (s.proc p).parent with
    | some q => (v, { s.setProc q (setId (s.proc q) id v) with
        hist := .setParent id (s.proc p).birth (s.proc p).forker (s.proc q).birth v :: s.hist })
    | none => (v, s)
  else (-1, s)

def setuid (uid : BitVec 32) : BitVec 32 × Sys N := s.setSelf p .uid uid

def setgid (gid : BitVec 32) : BitVec 32 × Sys N := s.setSelf p .gid gid

def suid (uid : BitVec 32) : BitVec 32 × Sys N := s.setParent p .uid uid

def sgid (gid : BitVec 32) : BitVec 32 × Sys N := s.setParent p .gid gid

/-- A call by process `p`: what it returns, if it does, and what it leaves. -/
def call : Call → Except String (Option (BitVec 32) × Sys N)
  | .fork stack copy => .ok ((s.fork p stack copy).1, (s.fork p stack copy).2)
  | .exec ok => .ok ((s.exec p ok).1, (s.exec p ok).2)
  | .exit => (s.exit p).map fun s' => (none, s')
  | .wait => .ok (s.wait p)
  | .setuid uid => .ok ((s.setuid p uid).1, (s.setuid p uid).2)
  | .setgid gid => .ok ((s.setgid p gid).1, (s.setgid p gid).2)
  | .suid uid => .ok ((s.suid p uid).1, (s.suid p uid).2)
  | .sgid gid => .ok ((s.sgid p gid).1, (s.sgid p gid).2)

end Sys

/-- The table before `userinit`. -/
def boot : Sys N where
  proc _ := ⟨.UNUSED, 0, none, none, false, false, 0, 0, 0, .rel .user, 0, 0, none⟩
  nextpid := 1
  initproc := none
  births := 0
  hist := []

/-- The runs: `userinit`, and then calls of processes that do not sleep. -/
inductive Reached : Sys N → Prop
  | userinit {s} : boot.userinit = some s → Reached s
  | call {s p c r s'} : Reached s → (s.proc p).state = .RUNNABLE → s.call p c = .ok (r, s') →
    Reached s'

/-! ## The id that a process should have -/

/-- The id of process `n` after the events of a history: the argument of the latest accepted call
of `setuid` or `setgid` by itself, or of `suid` or `sgid` by a process whose parent it was, and
before that the id that its creator had. -/
def granted (id : Id) : List Event → Nat → BitVec 32
  | [], _ => 0
  | .init child :: l, n => if n = child then 0 else granted id l n
  | .fork child parent :: l, n => if n = child then granted id l parent else granted id l n
  | .exit _ :: l, n => granted id l n
  | .set id' who v :: l, n => if id' = id ∧ n = who then v else granted id l n
  | .setParent id' _ _ who v :: l, n => if id' = id ∧ n = who then v else granted id l n

/-! ## What the calls do -/

section Slots

variable {s s' : Sys N} {p q np : Fin N} {x : Slot N} {id id' : Id} {v : BitVec 32}

theorem idOf_setId : idOf (setId x id v) id' = if id = id' then v else idOf x id' := by
  cases id <;> cases id' <;> rfl

theorem setId_kept : (setId x id v).state = x.state ∧ (setId x id v).birth = x.birth ∧
    (setId x id v).forker = x.forker ∧ (setId x id v).parent = x.parent := by
  cases id <;> exact ⟨rfl, rfl, rfl, rfl⟩

theorem used_of_state {y : Slot N} (h : y.state = x.state) : y.used ↔ x.used := by
  unfold Proc.used Proc.live
  rw [h]

theorem live_of_state {y : Slot N} (h : y.state = x.state) : y.live ↔ x.live := by
  unfold Proc.live
  rw [h]

theorem idOf_wakeup1 (t : Table N Unit Unit) (chan : Option (Chan N Unit)) (q : Fin N) (id : Id) :
    idOf (wakeup1 t chan q) id = idOf (t q) id := by
  unfold wakeup1
  split
  · cases id <;> rfl
  · rfl

theorem idOf_abandon (cur init : Fin N) (ps : List (Fin N)) (t : Table N Unit Unit) (q : Fin N)
    (id : Id) : idOf (abandon cur init ps t q) id = idOf (t q) id := by
  induction ps generalizing t with
  | nil => rfl
  | cons p ps ih =>
    unfold abandon
    by_cases hp : (t p).parent = some cur
    · have h1 : idOf (update t p { t p with parent := some init } q) id = idOf (t q) id := by
        by_cases hq : q = p
        · subst hq
          rw [update_self]
          cases id <;> rfl
        · rw [update_of_ne hq]
      rw [if_pos hp]
      dsimp only
      split
      · rw [ih, idOf_wakeup1, h1]
      · rw [ih, h1]
    · rw [if_neg hp]
      exact ih t

theorem idOf_exitTable (cur init : Fin N) (t : Table N Unit Unit) (q : Fin N) (id : Id) :
    idOf (exitTable cur init t q) id = idOf (t q) id := by
  unfold exitTable
  have h1 : ∀ q, idOf (abandon cur init (List.finRange N)
      (wakeup1 t ((t cur).parent.map Chan.proc)) q) id = idOf (t q) id := fun q => by
    rw [idOf_abandon, idOf_wakeup1]
  by_cases hq : q = cur
  · subst hq
    rw [update_self, ← h1 q]
    cases id <;> rfl
  · rw [update_of_ne hq]
    exact h1 q

/-- The processes that are left are as before, and no live one has gone. -/
structure Frame (s s' : Sys N) : Prop where
  initproc : s'.initproc = s.initproc
  births : s.births ≤ s'.births
  hist : s'.hist = s.hist
  used : ∀ q, (s'.proc q).used → (s.proc q).used ∧ (s'.proc q).birth = (s.proc q).birth ∧
    (s'.proc q).forker = (s.proc q).forker ∧ (s'.proc q).parent = (s.proc q).parent ∧
    ∀ id, idOf (s'.proc q) id = idOf (s.proc q) id
  live : ∀ q, (s.proc q).live → (s'.proc q).live

theorem Frame.refl (s : Sys N) : Frame s s :=
  ⟨rfl, Nat.le_refl _, rfl, fun _ h => ⟨h, rfl, rfl, rfl, fun _ => rfl⟩, fun _ h => h⟩

theorem Frame.slot (hinit : s'.initproc = s.initproc) (hb : s.births ≤ s'.births)
    (hhist : s'.hist = s.hist) (hproc : s'.proc = update s.proc q x)
    (hx : x.used → (s.proc q).used ∧ x.birth = (s.proc q).birth ∧ x.forker = (s.proc q).forker ∧
      x.parent = (s.proc q).parent ∧ ∀ id, idOf x id = idOf (s.proc q) id)
    (hl : (s.proc q).live → x.live) : Frame s s' := by
  refine ⟨hinit, hb, hhist, fun r hr => ?_, fun r hr => ?_⟩ <;> rw [hproc] at * <;>
    by_cases hrq : r = q
  · subst hrq
    rw [update_self] at hr ⊢
    exact hx hr
  · rw [update_of_ne hrq] at hr ⊢
    exact ⟨hr, rfl, rfl, rfl, fun _ => rfl⟩
  · subst hrq
    rw [update_self]
    exact hl hr
  · rw [update_of_ne hrq]
    exact hr

/-- What a call by process `p` does that leaves the ids of the processes: make a process, end the
caller, or nothing of this kind. -/
inductive Plain (s : Sys N) (p : Fin N) (s' : Sys N) : Prop
  | frame (h : Frame s s')
  | fork (np : Fin N) (x : Slot N) (hnp : (s.proc np).state = .UNUSED)
    (hproc : s'.proc = update s.proc np x) (hinit : s'.initproc = s.initproc)
    (hb : s'.births = s.births + 1) (hhist : s'.hist = .fork s.births (s.proc p).birth :: s.hist)
    (hx : x.state = .RUNNABLE ∧ x.birth = s.births ∧ x.forker = (s.proc p).birth ∧
      x.parent = some p) (hid : ∀ id, idOf x id = idOf (s.proc p) id)
  | exit (init : Fin N) (hne : init ≠ p) (hi : s.initproc = some init)
    (h : s' = { s with proc := exitTable p init s.proc, hist := .exit (s.proc p).birth :: s.hist })

/-- What a call by process `p` does. -/
inductive Effect (s : Sys N) (p : Fin N) (s' : Sys N) : Prop
  | plain (h : Plain s p s')
  | set (id : Id) (v : BitVec 32) (hv : v.toNat ≤ 32767)
    (h : s' = { s.setProc p (setId (s.proc p) id v) with
      hist := .set id (s.proc p).birth v :: s.hist })
  | setParent (id : Id) (v : BitVec 32) (q : Fin N) (hv : v.toNat ≤ 32767)
    (hq : (s.proc p).parent = some q)
    (h : s' = { s.setProc q (setId (s.proc q) id v) with
      hist := .setParent id (s.proc p).birth (s.proc p).forker (s.proc q).birth v :: s.hist })

theorem not_used_of_unused (h : x.state = .UNUSED) : ¬ x.used := fun hu => hu.state.1 h

theorem plain_fork (s : Sys N) (p : Fin N) (stack copy : Bool) :
    Plain s p (s.fork p stack copy).2 := by
  unfold Sys.fork
  cases hf : findUnused s.proc with
  | none => exact .frame (.refl s)
  | some np =>
    have hnp := findUnused_state hf
    dsimp only
    by_cases hc : stack ∧ copy
    · rw [if_pos hc]
      refine .fork np _ hnp (update_idem ..) rfl rfl rfl ⟨rfl, ?_, rfl, rfl⟩ fun id => ?_
      · simp [Sys.embryo]
      · cases id <;> rfl
    · rw [if_neg hc]
      refine .frame (.slot rfl (Nat.le_succ _) rfl (update_idem ..) (fun hu => ?_) fun hl => ?_)
      · exact absurd hu (not_used_of_unused rfl)
      · exact absurd (.inl hl) (not_used_of_unused hnp)

theorem plain_exec (s : Sys N) (p : Fin N) (ok : Bool) : Plain s p (s.exec p ok).2 := by
  unfold Sys.exec
  cases ok with
  | false => exact .frame (.refl s)
  | true =>
    refine .frame (.slot rfl (Nat.le_refl _) rfl rfl (fun hu => ?_) fun hl => ?_)
    · exact ⟨(used_of_state rfl).1 hu, rfl, rfl, rfl, fun id => by cases id <;> rfl⟩
    · exact (live_of_state rfl).2 hl

theorem plain_wait (hp : (s.proc p).state = .RUNNABLE) : Plain s p (s.wait p).2 := by
  unfold Sys.wait
  cases hz : findZombie s.proc p with
  | some q =>
    refine .frame (.slot rfl (Nat.le_refl _) rfl rfl (fun hu => ?_) fun hl => ?_)
    · exact absurd hu (not_used_of_unused rfl)
    · exact absurd (findZombie_spec hz).2 hl.state.2.2
  | none =>
    dsimp only
    split
    · exact .frame (.refl s)
    · refine .frame (.slot rfl (Nat.le_refl _) rfl rfl (fun _ => ?_) fun _ => .inl rfl)
      exact ⟨.inl (.inr (.inl hp)), rfl, rfl, rfl, fun id => by cases id <;> rfl⟩

theorem plain_exit (h : s.exit p = .ok s') : Plain s p s' := by
  unfold Sys.exit at h
  by_cases hp : s.initproc = some p
  · rw [if_pos hp] at h
    cases h
  · rw [if_neg hp] at h
    cases hi : s.initproc with
    | none =>
      rw [hi] at h
      cases h
      exact .frame (.refl s)
    | some init =>
      rw [hi] at h hp
      cases h
      exact .exit init (fun he => hp (congrArg some he)) hi (by rw [hi])

theorem effect_setSelf (s : Sys N) (p : Fin N) (id : Id) (v : BitVec 32) :
    Effect s p (s.setSelf p id v).2 := by
  unfold Sys.setSelf
  by_cases hv : v.toNat ≤ 32767
  · rw [if_pos hv]
    exact .set id v hv rfl
  · rw [if_neg hv]
    exact .plain (.frame (.refl s))

theorem effect_setParent (s : Sys N) (p : Fin N) (id : Id) (v : BitVec 32) :
    Effect s p (s.setParent p id v).2 := by
  unfold Sys.setParent
  by_cases hv : v.toNat ≤ 32767
  · rw [if_pos hv]
    cases hq : (s.proc p).parent with
    | none => exact .plain (.frame (.refl s))
    | some q => exact .setParent id v q hv hq rfl
  · rw [if_neg hv]
    exact .plain (.frame (.refl s))

def setters (v : BitVec 32) : List Call := [.setuid v, .setgid v, .suid v, .sgid v]

theorem plain_call {c : Call} {r : Option (BitVec 32)} (hp : (s.proc p).state = .RUNNABLE)
    (h : s.call p c = .ok (r, s')) (hc : ∀ v, c ∉ setters v) : Plain s p s' := by
  cases c with
  | fork stack copy => cases h; exact plain_fork s p stack copy
  | exec ok => cases h; exact plain_exec s p ok
  | wait =>
    have h1 : s.wait p = (r, s') := Except.ok.inj h
    have h2 := plain_wait hp
    rwa [h1] at h2
  | exit =>
    cases he : s.exit p with
    | error e =>
      rw [Sys.call, he] at h
      cases h
    | ok s'' =>
      rw [Sys.call, he] at h
      cases h
      exact plain_exit he
  | setuid v | setgid v | suid v | sgid v => exact absurd (by simp [setters]) (hc v)

theorem effect_call {c : Call} {r : Option (BitVec 32)} (hp : (s.proc p).state = .RUNNABLE)
    (h : s.call p c = .ok (r, s')) : Effect s p s' := by
  cases c with
  | setuid v => cases h; exact effect_setSelf s p .uid v
  | setgid v => cases h; exact effect_setSelf s p .gid v
  | suid v => cases h; exact effect_setParent s p .uid v
  | sgid v => cases h; exact effect_setParent s p .gid v
  | fork | exec | exit | wait => exact .plain (plain_call hp h (by simp [setters]))

end Slots

/-! ## The invariant -/

/-- `suid` and `sgid` reach the process that forked the caller, or init, the process with number 0,
once that one has exited; init has not been forked. -/
def EventOk : Event → List Event → Prop
  | .setParent _ _ forker who _, l => who = forker ∨ .exit forker ∈ l ∧ who = 0
  | .fork child _, _ => child ≠ 0
  | _, _ => True

def HistOk : List Event → Prop
  | [] => True
  | e :: l => EventOk e l ∧ HistOk l

structure Inv (s : Sys N) : Prop where
  lt : ∀ q, (s.proc q).used → (s.proc q).birth < s.births
  inj : ∀ q r, (s.proc q).used → (s.proc r).used → (s.proc q).birth = (s.proc r).birth → q = r
  init : ∃ i, s.initproc = some i ∧ (s.proc i).live ∧ (s.proc i).parent = none ∧
    (s.proc i).birth = 0
  parent : ∀ q, (s.proc q).used → s.initproc ≠ some q → ∃ r, (s.proc q).parent = some r ∧
    (s.proc r).live ∧ ((s.proc q).forker = (s.proc r).birth ∨
      .exit (s.proc q).forker ∈ s.hist ∧ s.initproc = some r)
  granted : ∀ q, (s.proc q).used → ∀ id, idOf (s.proc q) id = granted id s.hist (s.proc q).birth
  bound : ∀ id n, (Cred.granted id s.hist n).toNat ≤ 32767
  hist : HistOk s.hist

section Runs

variable {s s' : Sys N} {p q np : Fin N} {x : Slot N} {id id' : Id} {v : BitVec 32}

namespace Inv

theorem frame (h : Inv s) (hf : Frame s s') : Inv s' := by
  obtain ⟨hinit, hb, hhist, hused, hlive⟩ := hf
  obtain ⟨i, hi, hil, hip, hib⟩ := h.init
  have hil' := hused i (.inl (hlive i hil))
  refine ⟨fun q hq => ?_, fun q r hq hr he => ?_, ⟨i, hinit.trans hi, hlive i hil, ?_, ?_⟩,
    fun q hq hqi => ?_, fun q hq id => ?_, ?_, ?_⟩
  · obtain ⟨h1, h2, -⟩ := hused q hq
    rw [h2]
    exact Nat.lt_of_lt_of_le (h.lt q h1) hb
  · obtain ⟨h1, h2, -⟩ := hused q hq
    obtain ⟨h3, h4, -⟩ := hused r hr
    rw [h2, h4] at he
    exact h.inj q r h1 h3 he
  · exact hil'.2.2.2.1.trans hip
  · exact hil'.2.1.trans hib
  · obtain ⟨h1, -, h3, h4, -⟩ := hused q hq
    obtain ⟨r, hr, hrl, hrf⟩ := h.parent q h1 (hinit ▸ hqi)
    have hrb := (hused r (.inl (hlive r hrl))).2.1
    refine ⟨r, h4.trans hr, hlive r hrl, ?_⟩
    rw [h3, hrb, hhist, hinit]
    exact hrf
  · obtain ⟨h1, h2, -, -, h5⟩ := hused q hq
    rw [h5, h2, hhist]
    exact h.granted q h1 id
  · rw [hhist]
    exact h.bound
  · rw [hhist]
    exact h.hist

theorem fork (h : Inv s) (hp : (s.proc p).live) (hnp : (s.proc np).state = .UNUSED)
    (hproc : s'.proc = update s.proc np x) (hinit : s'.initproc = s.initproc)
    (hb : s'.births = s.births + 1) (hhist : s'.hist = .fork s.births (s.proc p).birth :: s.hist)
    (hx : x.state = .RUNNABLE ∧ x.birth = s.births ∧ x.forker = (s.proc p).birth ∧
      x.parent = some p)
    (hid : ∀ id, idOf x id = idOf (s.proc p) id) : Inv s' := by
  have hself : s'.proc np = x := by rw [hproc, update_self]
  have hne : ∀ q, (s.proc q).used → s'.proc q = s.proc q := by
    intro q hq
    rw [hproc, update_of_ne]
    rintro rfl
    exact not_used_of_unused hnp hq
  have hcases : ∀ q, (s'.proc q).used → q = np ∨ (s.proc q).used := by
    intro q hq
    by_cases hqn : q = np
    · exact .inl hqn
    · rw [hproc, update_of_ne hqn] at hq
      exact .inr hq
  have hold : ∀ id n, n < s.births → Cred.granted id s'.hist n = Cred.granted id s.hist n := by
    intro id n hn
    rw [hhist]
    exact if_neg (Nat.ne_of_lt hn)
  have hnew : ∀ id, Cred.granted id s'.hist s.births = Cred.granted id s.hist (s.proc p).birth := by
    intro id
    rw [hhist]
    exact if_pos rfl
  obtain ⟨i, hi, hil, hip, hib⟩ := h.init
  obtain ⟨hx1, hx2, hx3, hx4⟩ := hx
  refine ⟨fun q hq => ?_, fun q r hq hr he => ?_, ⟨i, hinit.trans hi, ?_⟩, fun q hq hqi => ?_,
    fun q hq id => ?_, fun id n => ?_, ?_⟩
  · rw [hb]
    rcases hcases q hq with rfl | hq'
    · rw [hself, hx2]
      exact Nat.lt_succ_self _
    · rw [hne q hq']
      exact Nat.lt_succ_of_lt (h.lt q hq')
  · rcases hcases q hq with rfl | hq' <;> rcases hcases r hr with rfl | hr'
    · rfl
    · rw [hself, hne r hr', hx2] at he
      exact absurd he.symm (Nat.ne_of_lt (h.lt r hr'))
    · rw [hself, hne q hq', hx2] at he
      exact absurd he (Nat.ne_of_lt (h.lt q hq'))
    · rw [hne q hq', hne r hr'] at he
      exact h.inj q r hq' hr' he
  · rw [hne i (.inl hil)]
    exact ⟨hil, hip, hib⟩
  · rcases hcases q hq with rfl | hq'
    · refine ⟨p, ?_, ?_, .inl ?_⟩
      · rw [hself, hx4]
      · rw [hne p (.inl hp)]
        exact hp
      · rw [hself, hx3, hne p (.inl hp)]
    · obtain ⟨r, hr, hrl, hrf⟩ := h.parent q hq' (hinit ▸ hqi)
      rw [hne q hq', hhist, hinit]
      refine ⟨r, hr, ?_⟩
      rw [hne r (.inl hrl)]
      exact ⟨hrl, hrf.imp_right fun h1 => ⟨List.mem_cons_of_mem _ h1.1, h1.2⟩⟩
  · rcases hcases q hq with rfl | hq'
    · rw [hself, hx2, hnew, hid]
      exact h.granted p (.inl hp) id
    · rw [hne q hq', hold id _ (h.lt q hq')]
      exact h.granted q hq' id
  · rw [hhist]
    unfold Cred.granted
    split
    · exact h.bound id _
    · exact h.bound id n
  · rw [hhist]
    refine ⟨?_, h.hist⟩
    have h1 := h.lt i (.inl hil)
    exact Nat.ne_of_gt (Nat.lt_of_le_of_lt (Nat.zero_le _) h1)

theorem exit {init : Fin N} (h : Inv s) (hp : (s.proc p).live) (hne : init ≠ p)
    (hi : s.initproc = some init) :
    Inv { s with proc := exitTable p init s.proc, hist := .exit (s.proc p).birth :: s.hist } := by
  obtain ⟨h1, h2, h3, h4⟩ := exitTable_spec p init s.proc
  have hkept : ∀ q, (exitTable p init s.proc q).birth = (s.proc q).birth ∧
      (exitTable p init s.proc q).forker = (s.proc q).forker := by
    intro q
    by_cases hq : q = p
    · subst hq
      exact ⟨h3.birth, h3.forker⟩
    · exact ⟨(h1 q hq).kept.birth, (h1 q hq).kept.forker⟩
  have hused : ∀ q, (exitTable p init s.proc q).used → (s.proc q).used := by
    intro q hq
    by_cases hqp : q = p
    · subst hqp
      exact .inl hp
    · exact (h1 q hqp).used_iff.1 hq
  have hlive : ∀ q, q ≠ p → (s.proc q).live → (exitTable p init s.proc q).live := fun q hq hl =>
    (h1 q hq).live_iff.2 hl
  obtain ⟨i, hi', hil, hip, hib⟩ := h.init
  obtain rfl : init = i := Option.some.inj (hi.symm.trans hi')
  refine ⟨fun q hq => ?_, fun q r hq hr he => ?_, ⟨init, hi, hlive init hne hil, ?_, ?_⟩,
    fun q hq hqi => ?_, fun q hq id => ?_, h.bound, trivial, h.hist⟩
  · change (exitTable p init s.proc q).birth < s.births
    rw [(hkept q).1]
    exact h.lt q (hused q hq)
  · change (exitTable p init s.proc q).birth = (exitTable p init s.proc r).birth at he
    rw [(hkept q).1, (hkept r).1] at he
    exact h.inj q r (hused q hq) (hused r hr) he
  · change (exitTable p init s.proc init).parent = none
    rw [h2, hip]
    rfl
  · exact (hkept init).1.trans hib
  · obtain ⟨r, hr, hrl, hrf⟩ := h.parent q (hused q hq) hqi
    change ∃ r, (exitTable p init s.proc q).parent = some r ∧ (exitTable p init s.proc r).live ∧
      ((exitTable p init s.proc q).forker = (exitTable p init s.proc r).birth ∨
        .exit (exitTable p init s.proc q).forker ∈ Event.exit (s.proc p).birth :: s.hist ∧
        s.initproc = some r)
    rw [h2 q, (hkept q).2]
    by_cases hrp : r = p
    · subst hrp
      rw [if_pos hr]
      refine ⟨init, rfl, hlive init hne hil, .inr ⟨?_, hi⟩⟩
      rcases hrf with hrf | ⟨-, hrf⟩
      · rw [hrf]
        exact List.mem_cons_self
      · exact absurd (Option.some.inj (hi.symm.trans hrf)) hne
    · rw [if_neg fun he => hrp (Option.some.inj (hr.symm.trans he))]
      refine ⟨r, hr, hlive r hrp hrl, ?_⟩
      rw [(hkept r).1]
      exact hrf.imp_right fun h5 => ⟨List.mem_cons_of_mem _ h5.1, h5.2⟩
  · change idOf (exitTable p init s.proc q) id = Cred.granted id s.hist _
    rw [idOf_exitTable, (hkept q).1]
    exact h.granted q (hused q hq) id

theorem give {e : Event} (h : Inv s) (hq : (s.proc q).used) (hv : v.toNat ≤ 32767)
    (he : ∀ id' n, Cred.granted id' (e :: s.hist) n =
      if id = id' ∧ n = (s.proc q).birth then v else Cred.granted id' s.hist n)
    (hok : EventOk e s.hist) :
    Inv { s.setProc q (setId (s.proc q) id v) with hist := e :: s.hist } := by
  generalize hs' : ({ s.setProc q (setId (s.proc q) id v) with hist := e :: s.hist } : Sys N) = s'
  have hhist : s'.hist = e :: s.hist := by rw [← hs']
  have hinit : s'.initproc = s.initproc := by rw [← hs']; rfl
  have hb : s'.births = s.births := by rw [← hs']; rfl
  have hproc : s'.proc = update s.proc q (setId (s.proc q) id v) := by rw [← hs']; rfl
  have hkept : ∀ r, (s'.proc r).state = (s.proc r).state ∧ (s'.proc r).birth = (s.proc r).birth ∧
      (s'.proc r).forker = (s.proc r).forker ∧ (s'.proc r).parent = (s.proc r).parent := by
    intro r
    rw [hproc]
    by_cases hr : r = q
    · subst hr
      rw [update_self]
      exact setId_kept
    · rw [update_of_ne hr]
      exact ⟨rfl, rfl, rfl, rfl⟩
  have hused : ∀ r, (s'.proc r).used ↔ (s.proc r).used := fun r => used_of_state (hkept r).1
  have hlive : ∀ r, (s'.proc r).live ↔ (s.proc r).live := fun r => live_of_state (hkept r).1
  obtain ⟨i, hi, hil, hip, hib⟩ := h.init
  refine ⟨fun r hr => ?_, fun r r' hr hr' heq => ?_,
    ⟨i, hinit.trans hi, (hlive i).2 hil, (hkept i).2.2.2.trans hip, (hkept i).2.1.trans hib⟩,
    fun r hr hri => ?_, fun r hr id' => ?_, fun id' n => ?_, ?_⟩
  · rw [(hkept r).2.1, hb]
    exact h.lt r ((hused r).1 hr)
  · rw [(hkept r).2.1, (hkept r').2.1] at heq
    exact h.inj r r' ((hused r).1 hr) ((hused r').1 hr') heq
  · obtain ⟨r', h1, h2, h3⟩ := h.parent r ((hused r).1 hr) (hinit ▸ hri)
    refine ⟨r', (hkept r).2.2.2.trans h1, (hlive r').2 h2, ?_⟩
    rw [(hkept r).2.2.1, (hkept r').2.1, hhist, hinit]
    exact h3.imp_right fun h4 => ⟨List.mem_cons_of_mem _ h4.1, h4.2⟩
  · rw [(hkept r).2.1, hhist, he]
    by_cases hrq : r = q
    · subst hrq
      rw [hproc, update_self, idOf_setId, h.granted r ((hused r).1 hr) id']
      simp
    · rw [hproc, update_of_ne hrq, if_neg]
      · exact h.granted r ((hused r).1 hr) id'
      · exact fun hb => hrq (h.inj r q ((hused r).1 hr) hq hb.2)
  · rw [hhist, he]
    split
    · exact hv
    · exact h.bound id' n
  · rw [hhist]
    exact ⟨hok, h.hist⟩

theorem parent_of (h : Inv s) (hp : (s.proc p).used) (hq : (s.proc p).parent = some q) :
    (s.proc q).live ∧ ((s.proc p).forker = (s.proc q).birth ∨
      .exit (s.proc p).forker ∈ s.hist ∧ s.initproc = some q) := by
  obtain ⟨i, hi, -, hip, -⟩ := h.init
  have hpi : s.initproc ≠ some p := by
    intro he
    obtain rfl : i = p := Option.some.inj (hi.symm.trans he)
    rw [hip] at hq
    cases hq
  obtain ⟨r, hr, h1, h2⟩ := h.parent p hp hpi
  obtain rfl : r = q := Option.some.inj (hr.symm.trans hq)
  exact ⟨h1, h2⟩

theorem init_birth (h : Inv s) (hi : s.initproc = some q) : (s.proc q).birth = 0 := by
  obtain ⟨i, hi', -, -, hib⟩ := h.init
  obtain rfl : i = q := Option.some.inj (hi'.symm.trans hi)
  exact hib

theorem step (h : Inv s) (hp : (s.proc p).state = .RUNNABLE) (he : Effect s p s') : Inv s' := by
  have hlive : (s.proc p).live := .inr (.inl hp)
  cases he with
  | plain he =>
    cases he with
    | frame hf => exact h.frame hf
    | fork np x hnp hproc hinit hb hhist hx hid =>
      exact h.fork hlive hnp hproc hinit hb hhist hx hid
    | exit init hne hi he =>
      subst he
      exact h.exit hlive hne hi
  | set id v hv he =>
    subst he
    exact h.give (.inl hlive) hv (fun _ _ => rfl) trivial
  | setParent id v q hv hq he =>
    subst he
    obtain ⟨h1, h2⟩ := h.parent_of (.inl hlive) hq
    exact h.give (.inl h1) hv (fun _ _ => rfl) (h2.imp Eq.symm fun h3 => ⟨h3.1, h.init_birth h3.2⟩)

end Inv

theorem inv_userinit (h : boot.userinit = some s) : Inv s := by
  obtain ⟨np, -, he⟩ := Option.map_eq_some_iff.1 h
  have hinit : s.initproc = some np := by rw [← he]
  have hb : s.births = 1 := by rw [← he]; rfl
  have hhist : s.hist = [.init 0] := by rw [← he]; rfl
  have hself : (s.proc np).live ∧ (s.proc np).birth = 0 ∧ (s.proc np).parent = none ∧
      ∀ id, idOf (s.proc np) id = 0 := by
    rw [← he]
    dsimp only [Sys.setProc]
    rw [update_self]
    refine ⟨.inr (.inl rfl), ?_, ?_, fun id => by cases id <;> rfl⟩
    · simp [Sys.embryo, boot]
    · simp [Sys.embryo, boot]
  have honly : ∀ q, (s.proc q).used → q = np := by
    intro q hq
    by_contra hne
    rw [← he] at hq
    dsimp only [Sys.setProc, Sys.embryo] at hq
    rw [update_of_ne hne, update_of_ne hne] at hq
    exact not_used_of_unused rfl hq
  have hgr : ∀ id n, granted id s.hist n = 0 := fun id n => by
    rw [hhist]
    exact ite_self 0
  refine ⟨fun q hq => ?_, fun q r hq hr _ => ?_, ⟨np, hinit, hself.1, hself.2.2.1, hself.2.1⟩,
    fun q hq hqi => ?_, fun q hq id => ?_, fun id n => ?_, ?_⟩
  · rw [honly q hq, hself.2.1, hb]
    exact Nat.zero_lt_one
  · rw [honly q hq, honly r hr]
  · exact absurd (honly q hq ▸ hinit) hqi
  · rw [honly q hq, hself.2.2.2, hgr]
  · rw [hgr]
    exact Nat.zero_le _
  · rw [hhist]
    exact ⟨trivial, trivial⟩

theorem Reached.inv (h : Reached s) : Inv s := by
  induction h with
  | userinit h => exact inv_userinit h
  | call _ hp hc ih => exact ih.step hp (effect_call hp hc)

/-! ## Where ids come from -/

theorem Plain.ids (h : Plain s p s') (hq : (s.proc q).used) (hq' : (s'.proc q).used) (id : Id) :
    idOf (s'.proc q) id = idOf (s.proc q) id := by
  cases h with
  | frame hf => exact (hf.used q hq').2.2.2.2 id
  | fork np x hnp hproc =>
    rw [hproc, update_of_ne]
    rintro rfl
    exact not_used_of_unused hnp hq
  | exit init _ _ he =>
    subst he
    exact idOf_exitTable p init s.proc q id

theorem setSelf_rejected (hv : 32767 < v.toNat) : s.setSelf p id v = (-1, s) := if_neg (by omega)

theorem setParent_rejected (hv : 32767 < v.toNat) : s.setParent p id v = (-1, s) :=
  if_neg (by omega)

theorem setSelf_accepted (hv : v.toNat ≤ 32767) : s.setSelf p id v = (v,
    { s.setProc p (setId (s.proc p) id v) with hist := .set id (s.proc p).birth v :: s.hist }) :=
  if_pos hv

theorem setParent_accepted (hv : v.toNat ≤ 32767) (hq : (s.proc p).parent = some q) :
    s.setParent p id v = (v, { s.setProc q (setId (s.proc q) id v) with
      hist := .setParent id (s.proc p).birth (s.proc p).forker (s.proc q).birth v :: s.hist }) := by
  rw [Sys.setParent, if_pos hv, hq]

theorem idOf_stored {hist : List Event} :
    idOf ({ s.setProc p (setId (s.proc p) id v) with hist := hist }.proc p) id = v := by
  simp only [Sys.setProc, update_self, idOf_setId, if_true]

theorem setSelf_other (hq : q ≠ p) : (s.setSelf p id v).2.proc q = s.proc q := by
  unfold Sys.setSelf
  split
  · exact update_of_ne hq ..
  · rfl

theorem setParent_other (hq : (s.proc p).parent ≠ some q) :
    (s.setParent p id v).2.proc q = s.proc q := by
  unfold Sys.setParent
  split
  · cases hr : (s.proc p).parent with
    | none => rfl
    | some r =>
      refine update_of_ne ?_ ..
      rintro rfl
      exact hq hr
  · rfl

/-- In every run the ids of a live process are at most 32767, and those that the history grants it;
a call with a greater argument returns -1 and changes nothing; any other `setuid` or `setgid` stores
its argument in the caller, any other `suid` or `sgid` in the caller's parent, and a child gets the
ids of its creator; `setuid` and `setgid` change no slot but the caller's, `suid` and `sgid` none
but that of the caller's current parent; and no other call changes the ids of a process that was
there before. -/
theorem credential_flow (h : Reached s) :
    (∀ q, (s.proc q).live → ∀ id, (idOf (s.proc q) id).toNat ≤ 32767 ∧
      idOf (s.proc q) id = granted id s.hist (s.proc q).birth) ∧
    (∀ p v, 32767 < v.toNat → ∀ c ∈ setters v, s.call p c = .ok (some (-1), s)) ∧
    (∀ p v, v.toNat ≤ 32767 → ∀ x ∈ [(Id.uid, Call.setuid v), (.gid, .setgid v)],
      ∃ s', s.call p x.2 = .ok (some v, s') ∧ idOf (s'.proc p) x.1 = v) ∧
    (∀ p q v, v.toNat ≤ 32767 → (s.proc p).parent = some q →
      ∀ x ∈ [(Id.uid, Call.suid v), (.gid, .sgid v)],
        ∃ s', s.call p x.2 = .ok (some v, s') ∧ idOf (s'.proc q) x.1 = v) ∧
    (∀ p np, findUnused s.proc = some np → ∃ s', s.call p (.fork true true) =
      .ok (some s.nextpid, s') ∧ ∀ id, idOf (s'.proc np) id = idOf (s.proc p) id) ∧
    ∀ p c r s', (s.proc p).state = .RUNNABLE → s.call p c = .ok (r, s') → ∀ q,
      (∀ v, c = .setuid v ∨ c = .setgid v → q ≠ p → s'.proc q = s.proc q) ∧
      (∀ v, c = .suid v ∨ c = .sgid v → (s.proc p).parent ≠ some q → s'.proc q = s.proc q) ∧
      ((∀ v, c ∉ setters v) → (s.proc q).used → (s'.proc q).used →
        ∀ id, idOf (s'.proc q) id = idOf (s.proc q) id) := by
  have hi := h.inv
  refine ⟨fun q hq id => ?_, fun p v hv c hc => ?_, fun p v hv x hx => ?_,
    fun p q v hv hq x hx => ?_, fun p np hnp => ?_, fun p c r s' hp hc q => ⟨?_, ?_, ?_⟩⟩
  · have hg := hi.granted q (.inl hq) id
    exact ⟨hg ▸ hi.bound id _, hg⟩
  · simp only [setters, List.mem_cons, List.not_mem_nil, or_false] at hc
    rcases hc with rfl | rfl | rfl | rfl <;>
      simp only [Sys.call, Sys.setuid, Sys.setgid, Sys.suid, Sys.sgid, setSelf_rejected hv,
        setParent_rejected hv]
  · simp only [List.mem_cons, List.not_mem_nil, or_false] at hx
    rcases hx with rfl | rfl
    · exact ⟨_, by rw [Sys.call, Sys.setuid, setSelf_accepted hv], idOf_stored⟩
    · exact ⟨_, by rw [Sys.call, Sys.setgid, setSelf_accepted hv], idOf_stored⟩
  · simp only [List.mem_cons, List.not_mem_nil, or_false] at hx
    rcases hx with rfl | rfl
    · exact ⟨_, by rw [Sys.call, Sys.suid, setParent_accepted hv hq], idOf_stored⟩
    · exact ⟨_, by rw [Sys.call, Sys.sgid, setParent_accepted hv hq], idOf_stored⟩
  · refine ⟨(s.fork p true true).2, ?_, fun id => ?_⟩
    · simp only [Sys.call, Sys.fork, hnp, and_self, if_true]
    · simp only [Sys.fork, hnp, and_self, if_true, Sys.setProc, update_self]
      cases id <;> rfl
  · rintro v (rfl | rfl) hq <;> cases hc <;> exact setSelf_other hq
  · rintro v (rfl | rfl) hq <;> cases hc <;> exact setParent_other hq
  · intro hno hq hq' id
    exact (plain_call hp hc hno).ids hq hq' id

end Runs

theorem reached_suid : ∃ s : Sys 3, Reached s ∧ (s.proc 1).live ∧ (s.proc 1).birth = 1 ∧
    (s.proc 2).live ∧ (s.proc 2).birth = 2 ∧
    s.hist = [.setParent .uid 2 1 1 5, .fork 2 1, .set .uid 1 7, .fork 1 0, .init 0] :=
  ⟨_, ((((Reached.userinit rfl).call (p := 0) (c := .fork true true) rfl rfl).call
    (p := 1) (c := .setuid 7) rfl rfl).call (p := 1) (c := .fork true true) rfl rfl).call
    (p := 2) (c := .suid 5) rfl rfl, .inr (.inl rfl), rfl, .inr (.inl rfl), rfl, rfl⟩

/-- A child sets its uid, forks, and the child of it sets the uid of its parent: the second child
has the uid of its creator at `fork`. -/
theorem credential_flow_suid : ∃ s : Sys 3, Reached s ∧ (s.proc 1).uid = 5 ∧ (s.proc 2).uid = 7 ∧
    (s.proc 1).gid = 0 := by
  obtain ⟨s, h, hl, hb, hl', hb', hh⟩ := reached_suid
  have hc := (credential_flow h).1
  refine ⟨s, h, (hc 1 hl .uid).2.trans ?_, (hc 2 hl' .uid).2.trans ?_, (hc 1 hl .gid).2.trans ?_⟩
  · rw [hb, hh]
    rfl
  · rw [hb', hh]
    rfl
  · rw [hb, hh]
    rfl

/-! ## The caller's shell -/

section Runs

variable {s s' : Sys N} {p q : Fin N}

/-- Every `suid` and `sgid` in a history was called by a process whose creator had not exited, and
that init had not forked. -/
def SparesInit (l : List Event) : Prop :=
  ∀ l₁ l₂ id caller forker who v, l = l₁ ++ .setParent id caller forker who v :: l₂ →
    .exit forker ∉ l₂ ∧ forker ≠ 0

theorem SparesInit.tail {e : Event} {l : List Event} (h : SparesInit (e :: l)) : SparesInit l := by
  intro l1 l2 id caller forker who v he
  exact h (e :: l1) l2 id caller forker who v (congrArg (e :: ·) he)

theorem granted_init {l : List Event} (hok : HistOk l) (h : SparesInit l)
    (hset : ∀ id v, .set id 0 v ∉ l) (id : Id) : granted id l 0 = 0 := by
  induction l with
  | nil => rfl
  | cons e l ih =>
    have ih' := ih hok.2 h.tail fun id v hm => hset id v (List.mem_cons_of_mem _ hm)
    cases e with
    | init child =>
      unfold granted
      split
      · rfl
      · exact ih'
    | fork child parent => exact (if_neg hok.1.symm).trans ih'
    | exit child => exact ih'
    | set id' who v =>
      refine (if_neg fun he => ?_).trans ih'
      exact hset id' v (he.2 ▸ List.mem_cons_self)
    | setParent id' caller forker who v =>
      obtain ⟨h1, h2⟩ := h [] l id' caller forker who v rfl
      refine (if_neg fun he => ?_).trans ih'
      rcases hok.1 with h3 | h3
      · exact h2 (h3.symm.trans he.2.symm)
      · exact h1 h3.1

/-- As long as the process that forked the caller has not exited, `suid` and `sgid` change no slot
but the one of that process; and if this was so at every such call so far, the ids of init are 0
until a process that init has forked calls one of them, or init itself calls `setuid` or
`setgid`. -/
theorem suid_reaches_forker (h : Reached s) :
    (∀ p v c r s', (s.proc p).state = .RUNNABLE → c = .suid v ∨ c = .sgid v →
      s.call p c = .ok (r, s') → .exit (s.proc p).forker ∉ s.hist →
      ∀ q, s'.proc q ≠ s.proc q → (s.proc q).live ∧ (s.proc q).birth = (s.proc p).forker) ∧
    (SparesInit s.hist → (∀ id v, .set id 0 v ∉ s.hist) →
      ∀ i, s.initproc = some i → (s.proc i).uid = 0 ∧ (s.proc i).gid = 0) := by
  have hi := h.inv
  refine ⟨fun p v c r s' hp hc hcall hex q hq => ?_, fun hsp hset i hii => ?_⟩
  · have hpar : (s.proc p).parent = some q := by
      by_contra hne
      rcases hc with rfl | rfl <;> cases hcall <;> exact hq (setParent_other hne)
    obtain ⟨h1, h2⟩ := hi.parent_of (.inl (.inr (.inl hp))) hpar
    exact ⟨h1, (h2.resolve_right fun h3 => hex h3.1).symm⟩
  · obtain ⟨i', hi', hil, -, hib⟩ := hi.init
    obtain rfl : i' = i := Option.some.inj (hi'.symm.trans hii)
    have hg := hi.granted i' (.inl hil)
    rw [hib] at hg
    exact ⟨(hg .uid).trans (granted_init hi.hist hsp hset .uid),
      (hg .gid).trans (granted_init hi.hist hsp hset .gid)⟩

end Runs

/-- Init forks the shell, the shell forks a process, and this one calls `suid`: only the shell
changes, and init keeps uid and gid 0. -/
theorem suid_reaches_forker_shell : ∃ s : Sys 3, Reached s ∧ (s.proc 1).uid = 5 ∧
    (s.proc 0).uid = 0 ∧ (s.proc 0).gid = 0 := by
  have hrun : ∃ s : Sys 3, Reached s ∧ s.initproc = some 0 ∧ (s.proc 1).uid = 5 ∧
      s.hist = [.setParent .uid 2 1 1 5, .fork 2 1, .fork 1 0, .init 0] :=
    ⟨_, (((Reached.userinit rfl).call (p := 0) (c := .fork true true) rfl rfl).call
      (p := 1) (c := .fork true true) rfl rfl).call (p := 2) (c := .suid 5) rfl rfl, rfl, rfl, rfl⟩
  obtain ⟨s, h, hi, h1, hh⟩ := hrun
  refine ⟨s, h, h1, (suid_reaches_forker h).2 ?_ ?_ 0 hi⟩
  · rw [hh]
    rintro (_ | ⟨e, l1⟩) l2 id caller forker who v he
    · cases he
      decide
    · rw [List.cons_append] at he
      have h2 := (List.cons.inj he).2
      have h3 : Event.setParent id caller forker who v ∈ [.fork 2 1, .fork 1 0, .init 0] :=
        h2 ▸ List.mem_append_right _ List.mem_cons_self
      simp at h3
  · rw [hh]
    simp

/-- Init forks a process, which forks another one and exits: then the other one, which init has not
forked, calls `suid`, and the uid of init changes. -/
theorem suid_changes_init : ∃ s : Sys 3, Reached s ∧ s.initproc = some 0 ∧
    s.hist = [.setParent .uid 2 1 0 5, .exit 1, .fork 2 1, .fork 1 0, .init 0] ∧
    (s.proc 0).birth = 0 ∧ (s.proc 0).uid = 5 :=
  ⟨_, ((((Reached.userinit rfl).call (p := 0) (c := .fork true true) rfl rfl).call
    (p := 1) (c := .fork true true) rfl rfl).call (p := 1) (c := .exit) rfl rfl).call
    (p := 2) (c := .suid 5) rfl rfl, rfl, rfl, rfl, rfl⟩

end Xv6.Cred
