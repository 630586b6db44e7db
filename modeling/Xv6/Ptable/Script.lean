import Xv6.Ptable.Model

/-!
# Scripted runs

A script says what the processors do, one after the other: go on with what their code does next, or
begin a call. `play` computes the run of a script, so that what happens in it can be decided.
-/

namespace Xv6.Ptable

variable {N : Nat} {κ χ σ L : Type}

structure Move (N : Nat) (κ χ σ L : Type) where
  cpu : κ
  pre : St N κ χ σ L
  post : St N κ χ σ L

/-- What a processor does: what its code does next, or a call, of code of the client at `l` too. -/
inductive Cmd (L : Type) where
  | go
  | enter (l : L)
  | yield
  | fork
  | exit
  | wait
  | kill (pid : BitVec 32)
  | chpr (pid : BitVec 32) (priority : Int)
  | suid (id : BitVec 32)

/-- A client whose code can be run. -/
class Exec (K : Client N χ σ L) where
  enter : Fin N → σ → L → Bool
  enter_sound : ∀ {p g l}, enter p g l = true → K.enter p g l
  act : Fin N → Bool → L → σ → Option (Act χ σ L)
  act_sound : ∀ {p killed l g a}, act p killed l g = some a → K.act p killed l g a

section Steps

variable [DecidableEq κ] [DecidableEq χ] {K : Client N χ σ L}

inductive Run (K : Client N χ σ L) (g : σ) : List (Move N κ χ σ L) → St N κ χ σ L → Prop
  | start (c : κ) : Run K g [] (start c g)
  | step {l : List (Move N κ χ σ L)} {s s' : St N κ χ σ L} {c : κ} : Run K g l s → Step K c s s' →
    Run K g (⟨c, s, s'⟩ :: l) s'

theorem Run.reachable {g : σ} {l : List (Move N κ χ σ L)} {s : St N κ χ σ L} (h : Run K g l s) :
    Reachable K g s := by
  induction h with
  | start c => exact .start c
  | step _ hs ih => exact ih.step hs

namespace St

variable (s : St N κ χ σ L) (c : κ)

def lockTo (k : Pc N χ L) : Option (St N κ χ σ L) :=
  if s.ptlock.isNone then some { s.goto c k with ptlock := some c } else none

variable (K) [Exec K]

/-- The next step of code that does not hold `ptable.lock`. Memory is always found. -/
def nextCode : Code N L → Option (St N κ χ σ L)
  | .inside l => do
    let p ← (s.cpu c).proc
    match ← Exec.act K p (s.proc p).killed l s.g with
    | .set g l' => some { s.goto c (.code (.inside l')) with g := g }
    | .wakeup ch l' => s.lockTo c (.wake (.client ch) (.inside l'))
    | .sleep ch l' => s.lockTo c (.sleepOn ch l')
    | .release => some { s.goto c (.code .user) with lk := none }
  | .relock l =>
    if s.lk.isNone then some { s.goto c (.code (.inside l)) with lk := some c } else none
  | .stack np => some ((s.setProc np { s.proc np with
      kstack := true, context := .rel .user }).goto c (.code (.copy np)))
  | .copy np => some (s.goto c (.code (.fill np)))
  | .fill np => do
    let p ← (s.cpu c).proc
    some ((s.setProc np { s.proc np with
      parent := some p, uid := (s.proc p).uid, gid := (s.proc p).gid
      forker := (s.proc p).birth }).goto c (.code (.ready np)))
  | .ready np => s.lockTo c (.publish np)
  | _ => none

/-- The next step, where the code leaves no choice. -/
def next : Option (St N κ χ σ L) :=
  match (s.cpu c).pc with
  | .boot => s.lockTo c .bootAlloc
  | .bootAlloc => (findUnused s.proc).map fun np =>
      { (s.embryo np none).goto c (.bootStack np) with ptlock := none }
  | .bootStack np => some { (s.setProc np { s.proc np with
      kstack := true, context := .rel .user, uid := 0, gid := 0 }).goto c (.bootReady np) with
      initproc := some np }
  | .bootReady np => s.lockTo c (.bootRun np)
  | .bootRun np => some ((s.setState np .RUNNABLE).goto c .free)
  | .free => some { s.goto c .top with ptlock := none }
  | .top => s.lockTo c (.loop 0)
  | .loop i =>
    if h : i < N then
      if (s.proc ⟨i, h⟩).state = .RUNNABLE then some { s with
        cpu := Function.update s.cpu c
          ⟨some (highest s.proc ⟨i, h⟩), .run (highest s.proc ⟨i, h⟩)⟩ }
      else some (s.goto c (.loop (i + 1)))
    else some { s.goto c .top with ptlock := none }
  | .run p => some ((s.setState p .RUNNING).goto c (s.proc p).context)
  | .back p => some { s with cpu := Function.update s.cpu c ⟨none, .loop (p.val + 1)⟩ }
  | .code k => s.nextCode K c k
  | .rel k => some { s.goto c (.code k) with ptlock := none }
  | .yield k => (s.cpu c).proc.map fun p => (s.setState p .RUNNABLE).sched c p (.rel k)
  | .alloc => do
    let p ← (s.cpu c).proc
    let np ← findUnused s.proc
    some ((s.embryo np (some p)).goto c (.rel (.stack np)))
  | .publish np => some { (s.setState np .RUNNABLE).goto c (.rel .user) with
      log := .fork (s.proc np).birth (s.proc np).pid (s.proc np).forker :: s.log }
  | .exit => do
    let p ← (s.cpu c).proc
    let init ← s.initproc
    some (St.sched { s with
      proc := exitTable p init s.proc
      log := ((List.finRange N).filter fun q => (s.proc q).parent = some p).map (fun q =>
        .adopt (s.proc q).birth (s.proc init).birth) ++ .exit (s.proc p).birth :: s.log }
      c p .dead)
  | .wait => do
    let p ← (s.cpu c).proc
    let q ← findZombie s.proc p
    some { (s.setProc q (reap (s.proc q))).goto c (.rel .user) with
      log := .reap (s.proc q).birth (s.proc q).pid (s.proc p).birth :: s.log }
  | .sleepOn ch l => some { s.goto c (.sleepGo ch l) with lk := none }
  | .sleepGo ch l => (s.cpu c).proc.map fun p => (s.setProc p { s.proc p with
      chan := some (.client ch), state := .SLEEPING }).sched c p (.awake l)
  | .awake l => (s.cpu c).proc.map fun p =>
      (s.setProc p { s.proc p with chan := none }).goto c (.rel (.relock l))
  | .wake ch k => some { s.goto c (.rel k) with proc := wakeup1 s.proc (some ch) }
  | .kill pid => some { s.goto c (.rel .user) with proc := killTable s.proc pid }
  | .chpr pid priority =>
    some { s.goto c (.rel .user) with proc := chprTable s.proc pid priority }
  | _ => none

/-- The step of a command. -/
def after : Cmd L → Option (St N κ χ σ L)
  | .go => s.next K c
  | cmd =>
    match (s.cpu c).pc, cmd with
    | .code .user, .enter l => do
      let p ← (s.cpu c).proc
      if s.lk.isNone ∧ Exec.enter K p s.g l then
        some { s.goto c (.code (.inside l)) with lk := some c } else none
    | .code .user, .yield => s.lockTo c (.yield .user)
    | .code .user, .fork => s.lockTo c .alloc
    | .code .user, .exit => if (s.cpu c).proc ≠ s.initproc then s.lockTo c .exit else none
    | .code .user, .wait => s.lockTo c .wait
    | .code .user, .kill pid => s.lockTo c (.kill pid)
    | .code .user, .chpr pid priority => s.lockTo c (.chpr pid priority)
    | .code .user, .suid id => s.lockTo c (.setId false id)
    | _, _ => none

end St

variable {s s' : St N κ χ σ L} {c : κ} {k k' : Pc N χ L}

theorem lockTo_sound (hpc : (s.cpu c).pc = k) (he : Enters K s c k k')
    (h : s.lockTo c k' = some s') :
    Step K c s s' := by
  unfold St.lockTo at h
  split at h
  · next hfree =>
    cases h
    exact .acquire (Option.isNone_iff_eq_none.1 hfree) hpc he
  · cases h

variable [Exec K]

theorem nextCode_sound {x : Code N L} (hpc : (s.cpu c).pc = .code x)
    (h : s.nextCode K c x = some s') : Step K c s s' := by
  cases x with
  | user | idRet => cases h
  | inside l =>
    obtain ⟨p, hp, h⟩ := Option.bind_eq_some_iff.1 h
    obtain ⟨a, ha, h⟩ := Option.bind_eq_some_iff.1 h
    replace ha := Exec.act_sound ha
    cases a with
    | set g l' =>
      cases h
      exact .set hp hpc ha
    | wakeup ch l' => exact lockTo_sound hpc (.clientWakeup p l ch l' hp ha) h
    | sleep ch l' => exact lockTo_sound hpc (.clientSleep p l ch l' hp ha) h
    | release =>
      cases h
      exact .leave hp hpc ha
  | relock l =>
    rw [St.nextCode] at h
    split at h
    · next hlk =>
      cases h
      exact .relock hpc (Option.isNone_iff_eq_none.1 hlk)
    · cases h
  | stack np =>
    cases h
    exact .stack hpc
  | copy np =>
    cases h
    exact .copy hpc
  | fill np =>
    obtain ⟨p, hp, h⟩ := Option.bind_eq_some_iff.1 h
    cases h
    exact .fill hp hpc
  | ready np => exact lockTo_sound hpc (.fork np) h

theorem next_sound (h : s.next K c = some s') : Step K c s s' := by
  unfold St.next at h
  split at h <;> rename_i hpc
  · exact lockTo_sound hpc .boot h
  · obtain ⟨np, hnp, rfl⟩ := Option.map_eq_some_iff.1 h
    exact .bootAlloc hpc hnp
  · cases h
    exact .bootStack hpc
  · exact lockTo_sound hpc (.bootReady _) h
  · cases h
    exact .bootRun hpc
  · cases h
    exact .release hpc .top
  · exact lockTo_sound hpc .scheduler h
  · split at h
    · next i hi =>
      split at h
      · next hr =>
        cases h
        exact .choose (p := ⟨i, hi⟩) hpc hr
      · next hr =>
        cases h
        exact .skip (p := ⟨i, hi⟩) hpc hr
    · next i hi =>
      cases h
      exact .release hpc (.scheduler i (Nat.le_of_not_lt hi))
  · cases h
    exact .swtch hpc
  · cases h
    exact .back hpc
  · exact nextCode_sound hpc h
  · cases h
    exact .release hpc (.code _)
  · obtain ⟨p, hp, rfl⟩ := Option.map_eq_some_iff.1 h
    exact .yield hp hpc
  · obtain ⟨p, hp, h⟩ := Option.bind_eq_some_iff.1 h
    obtain ⟨np, hnp, h⟩ := Option.bind_eq_some_iff.1 h
    cases h
    exact .alloc hp hpc hnp
  · cases h
    exact .publish hpc
  · obtain ⟨p, hp, h⟩ := Option.bind_eq_some_iff.1 h
    obtain ⟨init, hi, h⟩ := Option.bind_eq_some_iff.1 h
    cases h
    exact .exit hp hpc hi
  · obtain ⟨p, hp, h⟩ := Option.bind_eq_some_iff.1 h
    obtain ⟨q, hq, h⟩ := Option.bind_eq_some_iff.1 h
    cases h
    exact .reap hp hpc hq
  · cases h
    exact .sleepRelease hpc
  · obtain ⟨p, hp, rfl⟩ := Option.map_eq_some_iff.1 h
    exact .sleep hp hpc
  · obtain ⟨p, hp, rfl⟩ := Option.map_eq_some_iff.1 h
    exact .awake hp hpc
  · cases h
    exact .wakeup hpc
  · cases h
    exact .kill hpc
  · cases h
    exact .chpr hpc
  · cases h

theorem after_sound {cmd : Cmd L} (h : s.after K c cmd = some s') : Step K c s s' := by
  unfold St.after at h
  split at h
  · exact next_sound h
  split at h <;> rename_i hpc _
  · obtain ⟨p, hp, h⟩ := Option.bind_eq_some_iff.1 h
    split at h
    · next he =>
      cases h
      exact .enter hp hpc (Option.isNone_iff_eq_none.1 he.1) (Exec.enter_sound he.2)
    · cases h
  · exact lockTo_sound hpc (.yield .user trivial) h
  · exact lockTo_sound hpc .allocproc h
  · split at h
    · next hne => exact lockTo_sound hpc (.exit hne) h
    · cases h
  · exact lockTo_sound hpc .wait h
  · exact lockTo_sound hpc (.kill _) h
  · exact lockTo_sound hpc (.chpr _ _) h
  · exact lockTo_sound hpc (.setId false _) h
  · cases h

variable (K) in
/-- The run of a script, with its moves, the latest first. -/
def play : List (κ × Cmd L) → List (Move N κ χ σ L) × St N κ χ σ L →
    Option (List (Move N κ χ σ L) × St N κ χ σ L)
  | [], x => some x
  | (c, cmd) :: script, (l, s) => do
    let s' ← s.after K c cmd
    play script (⟨c, s, s'⟩ :: l, s')

theorem play_run {g : σ} {script : List (κ × Cmd L)} {x y : List (Move N κ χ σ L) × St N κ χ σ L}
    (h : Run K g x.1 x.2) (hy : play K script x = some y) : Run K g y.1 y.2 := by
  induction script generalizing x with
  | nil =>
    cases hy
    exact h
  | cons a script ih =>
    obtain ⟨s', hs, hy⟩ := Option.bind_eq_some_iff.1 hy
    exact ih (h.step (after_sound hs)) hy

/-- What can be decided of the run of a script is true of a run. -/
theorem exists_run {g : σ} {c : κ} (script : List (κ × Cmd L))
    {P : List (Move N κ χ σ L) → St N κ χ σ L → Prop} [∀ l s, Decidable (P l s)]
    (h : (play K script ([], (start c g : St N κ χ σ L))).any (fun y => decide (P y.1 y.2)) =
      true) :
    ∃ l s, Run K g l s ∧ P l s := by
  cases hy : play K script ([], (start c g : St N κ χ σ L)) with
  | none =>
    rw [hy] at h
    cases h
  | some y =>
    rw [hy] at h
    exact ⟨y.1, y.2, play_run (Run.start c) hy, of_decide_eq_true h⟩

theorem exists_reachable {g : σ} {c : κ} (script : List (κ × Cmd L))
    {P : St N κ χ σ L → Prop} [DecidablePred P]
    (h : (play K script ([], (start c g : St N κ χ σ L))).any (fun y => decide (P y.2)) = true) :
    ∃ s, Reachable K g s ∧ P s := by
  obtain ⟨l, s, hr, hP⟩ := exists_run script (P := fun _ s => P s) h
  exact ⟨s, hr.reachable, hP⟩

end Steps

/-- The code of a system in which nobody uses `lk`. -/
def Client.none : Client N χ σ L := ⟨fun _ _ _ => False, fun _ _ _ _ _ => False, fun _ _ _ => False⟩

instance : Exec (Client.none : Client N χ σ L) where
  enter _ _ _ := false
  enter_sound h := by cases h
  act _ _ _ _ := none
  act_sound h := by cases h

/-- Processor `c` goes on, `n` times. -/
def goes (c : κ) (n : Nat) : List (κ × Cmd L) := List.replicate n (c, .go)

/-- Processor `c` boots and runs init up to its own code. -/
def boots (c : κ) : List (κ × Cmd L) := goes c 10

/-- A call of `fork` that makes a child. -/
def forks (c : κ) : List (κ × Cmd L) := (c, .fork) :: goes c 8

end Xv6.Ptable
