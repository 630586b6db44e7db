import Mathlib.Data.List.FinRange

/-!
# Processes, processors and `ptable.lock`

`proc.c` as a machine. Every processor runs either its scheduler or the process in `c->proc`, and
`Pc` says where it is in the code. A step is a piece of code between two operations on locks; a
process that calls `sched` leaves the place where it goes on in its saved context, and the
scheduler goes on with `ptable.lock` still held.

`N` is the size of the process table and `κ` the type of processors. Besides `ptable.lock` there is
one more spinlock, `lk`, with the data `g` it guards; a `Client` is the code that processes run
under it, which calls `sleep` and `wakeup` on the channels in `χ`.

Four parts of the state are not in the source: `birth` numbers the processes, so that they can be
told apart when slots and pids are used again, `forker` is the number of the process that called
`fork`, `maker` is the process that a slot is being filled by, and `log` records what has happened.
-/

namespace Xv6.Ptable

/-- `enum procstate`. -/
inductive State where
  | UNUSED
  | EMBRYO
  | SLEEPING
  | RUNNABLE
  | RUNNING
  | ZOMBIE
deriving DecidableEq

/-- What a process sleeps on: a process in `wait`, a channel of the client, or something else. -/
inductive Chan (N : Nat) (χ : Type) where
  | proc (p : Fin N)
  | client (ch : χ)
  | other (n : Nat)
deriving DecidableEq

/-- Code of a process that does not hold `ptable.lock`: none of the functions below; in
`allocproc`, about to allocate the kernel stack of `np`; in `fork`, about to copy the memory, to
fill in the fields of `np`, and to make it runnable; in code of the client, with `lk` held, and
about to acquire `lk` at the end of `sleep`; about to return from `suid` or `sgid`. -/
inductive Code (N : Nat) (L : Type) where
  | user
  | stack (np : Fin N)
  | copy (np : Fin N)
  | fill (np : Fin N)
  | ready (np : Fin N)
  | inside (l : L)
  | relock (l : L)
  | idRet
deriving DecidableEq

/-- Where a processor is. First come the places in `userinit`, then those in `scheduler`, where an
interrupt may call `wakeup`; at the others it runs a process, and holds `ptable.lock` except at
`code`. At `dead` is the panic behind the call of `sched` in `exit`. -/
inductive Pc (N : Nat) (χ L : Type) where
  | boot
  | bootAlloc
  | bootStack (np : Fin N)
  | bootReady (np : Fin N)
  | bootRun (np : Fin N)
  | free
  | top
  | loop (i : Nat)
  | run (p : Fin N)
  | back (p : Fin N)
  | wakeTop (ch : Chan N χ)
  | code (k : Code N L)
  | rel (k : Code N L)
  | yield (k : Code N L)
  | alloc
  | publish (np : Fin N)
  | exit
  | dead
  | wait
  | waitAwake
  | sleepOn (ch : χ) (l : L)
  | sleepGo (ch : χ) (l : L)
  | awake (l : L)
  | nap (n : Nat)
  | napAwake
  | wake (ch : Chan N χ) (k : Code N L)
  | kill (pid : BitVec 32)
  | chpr (pid : BitVec 32) (priority : Int)
  | setId (group : Bool) (id : BitVec 32)
deriving DecidableEq

/-- `struct proc`; `kstack` says whether there is a kernel stack. -/
structure Proc (N : Nat) (χ L : Type) where
  state : State
  pid : BitVec 32
  parent : Option (Fin N)
  chan : Option (Chan N χ)
  killed : Bool
  kstack : Bool
  priority : Int
  uid : BitVec 32
  gid : BitVec 32
  context : Pc N χ L
  birth : Nat
  forker : Nat
  maker : Option (Fin N)
deriving DecidableEq

/-- `struct cpu`. -/
structure Cpu (N : Nat) (χ L : Type) where
  proc : Option (Fin N)
  pc : Pc N χ L
deriving DecidableEq

/-- Processes are named by their numbers: one has been made by another with a pid, has exited, has
been adopted by another, has been returned by a `wait` of another with a pid; a `wait` has
answered -1. -/
inductive Event where
  | fork (child : Nat) (pid : BitVec 32) (parent : Nat)
  | exit (child : Nat)
  | adopt (child parent : Nat)
  | reap (child : Nat) (pid : BitVec 32) (parent : Nat)
  | fail (parent : Nat)
deriving DecidableEq

structure St (N : Nat) (κ χ σ L : Type) where
  ptlock : Option κ
  lk : Option κ
  g : σ
  proc : Fin N → Proc N χ L
  cpu : κ → Cpu N χ L
  nextpid : BitVec 32
  initproc : Option (Fin N)
  births : Nat
  log : List Event

/-! ## Code under `lk` -/

/-- What code under `lk` does next: change the data, call `wakeup`, call `sleep`, release `lk`. -/
inductive Act (χ σ L : Type) where
  | set (g : σ) (l : L)
  | wakeup (ch : χ) (l : L)
  | sleep (ch : χ) (l : L)
  | release

/-- The code of the processes under `lk`: where it starts when `lk` has been acquired, what it may
do next, given whether the process has been killed, and what a process may do to the data without
the lock. -/
structure Client (N : Nat) (χ σ L : Type) where
  enter : Fin N → σ → L → Prop
  act : Fin N → (killed : Bool) → L → σ → Act χ σ L → Prop
  outside : Fin N → σ → σ → Prop

variable {N : Nat} {κ χ σ L : Type}

/-! ## The functions on the process table -/

abbrev Table (N : Nat) (χ L : Type) := Fin N → Proc N χ L

section Table

variable [DecidableEq χ]

def wakeup1 (t : Table N χ L) (chan : Option (Chan N χ)) : Table N χ L := fun p =>
  if (t p).state = .SLEEPING ∧ (t p).chan = chan then { t p with state := .RUNNABLE } else t p

/-- The loop of `exit` over the table: pass abandoned children of `cur` to init. -/
def abandon (cur init : Fin N) : List (Fin N) → Table N χ L → Table N χ L
  | [], t => t
  | p :: ps, t =>
    if (t p).parent = some cur then
      let t' := Function.update t p { t p with parent := some init }
      abandon cur init ps (if (t p).state = .ZOMBIE then wakeup1 t' (some (.proc init)) else t')
    else abandon cur init ps t

/-- What `exit` does to the table. -/
def exitTable (cur init : Fin N) (t : Table N χ L) : Table N χ L :=
  let t' := abandon cur init (List.finRange N)
    (wakeup1 t ((t cur).parent.map Chan.proc))
  Function.update t' cur { t' cur with state := .ZOMBIE }

end Table

/-- The exited child that the loop of `wait` finds. -/
def findZombie (t : Table N χ L) (cur : Fin N) : Option (Fin N) :=
  (List.finRange N).find? fun p => (t p).parent = some cur ∧ (t p).state = .ZOMBIE

def havekids (t : Table N χ L) (cur : Fin N) : Bool :=
  (List.finRange N).any fun p => (t p).parent = some cur

/-- `wait` takes the exited child `q` out of the table. -/
def reap (x : Proc N χ L) : Proc N χ L :=
  { x with kstack := false, pid := 0, parent := none, killed := false, state := .UNUSED }

/-- The inner loop of `scheduler`: the runnable process of highest priority, `p` if there is no
better one. -/
def highest (t : Table N χ L) (p : Fin N) : Fin N :=
  (List.finRange N).foldl (fun highP p1 =>
    if (t p1).state = .RUNNABLE ∧ (t p1).priority < (t highP).priority then p1 else highP) p

/-- `kill`. -/
def killTable (t : Table N χ L) (pid : BitVec 32) : Table N χ L :=
  match (List.finRange N).find? fun p => (t p).pid = pid with
  | some p => Function.update t p { t p with
      killed := true
      state := if (t p).state = .SLEEPING then .RUNNABLE else (t p).state }
  | none => t

/-- `chpr`. -/
def chprTable (t : Table N χ L) (pid : BitVec 32) (priority : Int) : Table N χ L :=
  match (List.finRange N).find? fun p => (t p).pid = pid with
  | some p => Function.update t p { t p with priority := priority }
  | none => t

/-- The slot that `allocproc` takes. -/
def findUnused (t : Table N χ L) : Option (Fin N) :=
  (List.finRange N).find? fun p => (t p).state = .UNUSED

/-! ## Steps -/

def Code.interruptible : Code N L → Prop
  | .inside _ => False
  | _ => True

section Steps

variable [DecidableEq κ]

namespace St

/-- Processor `c` goes to `k`. -/
def goto (s : St N κ χ σ L) (c : κ) (k : Pc N χ L) : St N κ χ σ L :=
  { s with cpu := Function.update s.cpu c { s.cpu c with pc := k } }

def setProc (s : St N κ χ σ L) (p : Fin N) (x : Proc N χ L) : St N κ χ σ L :=
  { s with proc := Function.update s.proc p x }

/-- Process `p` on processor `c` calls `sched`, and will go on at `k`. -/
def sched (s : St N κ χ σ L) (c : κ) (p : Fin N) (k : Pc N χ L) : St N κ χ σ L :=
  (s.setProc p { s.proc p with context := k }).goto c (.back p)

def setState (s : St N κ χ σ L) (p : Fin N) (x : State) : St N κ χ σ L :=
  s.setProc p { s.proc p with state := x }

/-- The first half of `allocproc`, for the process `maker`, if there is one. -/
def embryo (s : St N κ χ σ L) (np : Fin N) (maker : Option (Fin N)) : St N κ χ σ L :=
  { s.setProc np { s.proc np with
      state := .EMBRYO, pid := s.nextpid, priority := 10, birth := s.births, maker := maker } with
    nextpid := s.nextpid + 1
    births := s.births + 1 }

end St

/-- The ways to acquire `ptable.lock`: from where, and where it is then held. `exit` panics for
init. -/
inductive Enters (K : Client N χ σ L) (s : St N κ χ σ L) (c : κ) : Pc N χ L → Pc N χ L → Prop
  | boot : Enters K s c .boot .bootAlloc
  | bootReady (np) : Enters K s c (.bootReady np) (.bootRun np)
  | scheduler : Enters K s c .top (.loop 0)
  | yield (k) : k.interruptible → Enters K s c (.code k) (.yield k)
  | allocproc : Enters K s c (.code .user) .alloc
  | fork (np) : Enters K s c (.code (.ready np)) (.publish np)
  | exit : (s.cpu c).proc ≠ s.initproc → Enters K s c (.code .user) .exit
  | wait : Enters K s c (.code .user) .wait
  | kill (pid) : Enters K s c (.code .user) (.kill pid)
  | chpr (pid priority) : Enters K s c (.code .user) (.chpr pid priority)
  | setId (group id) : Enters K s c (.code .user) (.setId group id)
  | wakeup (ch k) : k.interruptible → Enters K s c (.code k) (.wake ch k)
  | wakeTop (ch) : Enters K s c .top (.wakeTop ch)
  | nap (n) : Enters K s c (.code .user) (.nap n)
  | clientWakeup (p l ch l') : (s.cpu c).proc = some p →
    K.act p (s.proc p).killed l s.g (.wakeup ch l') →
    Enters K s c (.code (.inside l)) (.wake (.client ch) (.inside l'))
  | clientSleep (p l ch l') : (s.cpu c).proc = some p →
    K.act p (s.proc p).killed l s.g (.sleep ch l') →
    Enters K s c (.code (.inside l)) (.sleepOn ch l')

inductive Leaves : Pc N χ L → Pc N χ L → Prop
  | top : Leaves .free .top
  | scheduler (i) : N ≤ i → Leaves (.loop i) .top
  | code (k) : Leaves (.rel k) (.code k)

variable [DecidableEq χ]

/-- The steps of processor `c`. -/
inductive Step (K : Client N χ σ L) (c : κ) : St N κ χ σ L → St N κ χ σ L → Prop
  | acquire {s k k'} : s.ptlock = none → (s.cpu c).pc = k → Enters K s c k k' →
    Step K c s { s.goto c k' with ptlock := some c }
  | release {s k k'} : (s.cpu c).pc = k → Leaves k k' →
    Step K c s { s.goto c k' with ptlock := none }
  -- `userinit`
  | bootAlloc {s np} : (s.cpu c).pc = .bootAlloc → findUnused s.proc = some np →
    Step K c s { (s.embryo np none).goto c (.bootStack np) with ptlock := none }
  | bootStack {s np} : (s.cpu c).pc = .bootStack np →
    Step K c s { (s.setProc np { s.proc np with
      kstack := true, context := .rel .user, uid := 0, gid := 0 }).goto c (.bootReady np) with
      initproc := some np }
  | bootRun {s np} : (s.cpu c).pc = .bootRun np →
    Step K c s ((s.setState np .RUNNABLE).goto c .free)
  -- `scheduler`
  | skip {s p} : (s.cpu c).pc = .loop p.val → (s.proc p).state ≠ .RUNNABLE →
    Step K c s (s.goto c (.loop (p.val + 1)))
  | choose {s p} : (s.cpu c).pc = .loop p.val → (s.proc p).state = .RUNNABLE →
    Step K c s { s with
      cpu := Function.update s.cpu c ⟨some (highest s.proc p), .run (highest s.proc p)⟩ }
  | swtch {s p} : (s.cpu c).pc = .run p →
    Step K c s ((s.setState p .RUNNING).goto c (s.proc p).context)
  | back {s p} : (s.cpu c).pc = .back p →
    Step K c s { s with cpu := Function.update s.cpu c ⟨none, .loop (p.val + 1)⟩ }
  -- `yield`
  | yield {s p k} : (s.cpu c).proc = some p → (s.cpu c).pc = .yield k →
    Step K c s ((s.setState p .RUNNABLE).sched c p (.rel k))
  -- `fork`
  | alloc {s p np} : (s.cpu c).proc = some p → (s.cpu c).pc = .alloc →
    findUnused s.proc = some np →
    Step K c s ((s.embryo np (some p)).goto c (.rel (.stack np)))
  | allocFull {s} : (s.cpu c).pc = .alloc → findUnused s.proc = none →
    Step K c s (s.goto c (.rel .user))
  | stack {s np} : (s.cpu c).pc = .code (.stack np) →
    Step K c s ((s.setProc np { s.proc np with
      kstack := true, context := .rel .user }).goto c (.code (.copy np)))
  | stackFail {s np} : (s.cpu c).pc = .code (.stack np) →
    Step K c s ((s.setProc np { s.proc np with
      kstack := false, state := .UNUSED }).goto c (.code .user))
  | copy {s np} : (s.cpu c).pc = .code (.copy np) → Step K c s (s.goto c (.code (.fill np)))
  | copyFail {s np} : (s.cpu c).pc = .code (.copy np) →
    Step K c s ((s.setProc np { s.proc np with
      kstack := false, state := .UNUSED }).goto c (.code .user))
  | fill {s p np} : (s.cpu c).proc = some p → (s.cpu c).pc = .code (.fill np) →
    Step K c s ((s.setProc np { s.proc np with
      parent := some p, uid := (s.proc p).uid, gid := (s.proc p).gid
      forker := (s.proc p).birth }).goto c (.code (.ready np)))
  | publish {s np} : (s.cpu c).pc = .publish np →
    Step K c s { (s.setState np .RUNNABLE).goto c (.rel .user) with
      log := .fork (s.proc np).birth (s.proc np).pid (s.proc np).forker :: s.log }
  -- `exit`
  | exit {s p init} : (s.cpu c).proc = some p → (s.cpu c).pc = .exit → s.initproc = some init →
    Step K c s (St.sched { s with
      proc := exitTable p init s.proc
      log := ((List.finRange N).filter fun q => (s.proc q).parent = some p).map (fun q =>
        .adopt (s.proc q).birth (s.proc init).birth) ++ .exit (s.proc p).birth :: s.log }
      c p .dead)
  -- `wait`
  | reap {s p q} : (s.cpu c).proc = some p → (s.cpu c).pc = .wait →
    findZombie s.proc p = some q →
    Step K c s { (s.setProc q (reap (s.proc q))).goto c (.rel .user) with
      log := .reap (s.proc q).birth (s.proc q).pid (s.proc p).birth :: s.log }
  | waitFail {s p} : (s.cpu c).proc = some p → (s.cpu c).pc = .wait → findZombie s.proc p = none →
    (havekids s.proc p = false ∨ (s.proc p).killed = true) →
    Step K c s { s.goto c (.rel .user) with log := .fail (s.proc p).birth :: s.log }
  | waitSleep {s p} : (s.cpu c).proc = some p → (s.cpu c).pc = .wait → findZombie s.proc p = none →
    havekids s.proc p = true → (s.proc p).killed = false →
    Step K c s ((s.setProc p { s.proc p with
      chan := some (.proc p), state := .SLEEPING }).sched c p .waitAwake)
  | waitAwake {s p} : (s.cpu c).proc = some p → (s.cpu c).pc = .waitAwake →
    Step K c s ((s.setProc p { s.proc p with chan := none }).goto c .wait)
  -- `sleep`, `wakeup` and `kill`
  | sleepRelease {s ch l} : (s.cpu c).pc = .sleepOn ch l →
    Step K c s { s.goto c (.sleepGo ch l) with lk := none }
  | sleep {s p ch l} : (s.cpu c).proc = some p → (s.cpu c).pc = .sleepGo ch l →
    Step K c s ((s.setProc p { s.proc p with
      chan := some (.client ch), state := .SLEEPING }).sched c p (.awake l))
  | awake {s p l} : (s.cpu c).proc = some p → (s.cpu c).pc = .awake l →
    Step K c s ((s.setProc p { s.proc p with chan := none }).goto c (.rel (.relock l)))
  | relock {s l} : (s.cpu c).pc = .code (.relock l) → s.lk = none →
    Step K c s { s.goto c (.code (.inside l)) with lk := some c }
  | nap {s p n} : (s.cpu c).proc = some p → (s.cpu c).pc = .nap n →
    Step K c s ((s.setProc p { s.proc p with
      chan := some (.other n), state := .SLEEPING }).sched c p .napAwake)
  | napAwake {s p} : (s.cpu c).proc = some p → (s.cpu c).pc = .napAwake →
    Step K c s ((s.setProc p { s.proc p with chan := none }).goto c (.rel .user))
  | wakeup {s ch k} : (s.cpu c).pc = .wake ch k →
    Step K c s { s.goto c (.rel k) with proc := wakeup1 s.proc (some ch) }
  | wakeTop {s ch} : (s.cpu c).pc = .wakeTop ch →
    Step K c s { s.goto c .free with proc := wakeup1 s.proc (some ch) }
  | kill {s pid} : (s.cpu c).pc = .kill pid →
    Step K c s { s.goto c (.rel .user) with proc := killTable s.proc pid }
  | chpr {s pid priority} : (s.cpu c).pc = .chpr pid priority →
    Step K c s { s.goto c (.rel .user) with proc := chprTable s.proc pid priority }
  -- `suid` and `sgid`; without a parent the store goes to the first page of the user memory
  | setId {s p q group id} : (s.cpu c).proc = some p → (s.cpu c).pc = .setId group id →
    id.toNat ≤ 32767 → (s.proc p).parent = some q →
    Step K c s ((s.setProc q (if group then { s.proc q with gid := id }
      else { s.proc q with uid := id })).goto c (.rel .idRet))
  | setIdNull {s p group id} : (s.cpu c).proc = some p → (s.cpu c).pc = .setId group id →
    id.toNat ≤ 32767 → (s.proc p).parent = none → Step K c s (s.goto c (.rel .idRet))
  | setIdBounds {s group id} : (s.cpu c).pc = .setId group id → 32767 < id.toNat →
    Step K c s (s.goto c (.rel .user))
  | idRet {s} : (s.cpu c).pc = .code .idRet → Step K c s (s.goto c (.code .user))
  -- `exec` and `trap` write to the process that runs, without a lock
  | exec {s p} : (s.cpu c).proc = some p → (s.cpu c).pc = .code .user →
    Step K c s ((s.setProc p { s.proc p with priority := 2 }).goto c (.code .user))
  | trap {s p} : (s.cpu c).proc = some p → (s.cpu c).pc = .code .user →
    Step K c s ((s.setProc p { s.proc p with killed := true }).goto c (.code .user))
  -- code under `lk`
  | enter {s p l} : (s.cpu c).proc = some p → (s.cpu c).pc = .code .user → s.lk = none →
    K.enter p s.g l → Step K c s { s.goto c (.code (.inside l)) with lk := some c }
  | set {s p l g l'} : (s.cpu c).proc = some p → (s.cpu c).pc = .code (.inside l) →
    K.act p (s.proc p).killed l s.g (.set g l') →
    Step K c s { s.goto c (.code (.inside l')) with g := g }
  | leave {s p l} : (s.cpu c).proc = some p → (s.cpu c).pc = .code (.inside l) →
    K.act p (s.proc p).killed l s.g .release →
    Step K c s { s.goto c (.code .user) with lk := none }
  | outside {s p g} : (s.cpu c).proc = some p → (s.cpu c).pc = .code .user → K.outside p s.g g →
    Step K c s { s with g := g }

/-- The state in which processor `c` is about to call `userinit`. -/
def start (c : κ) (g : σ) : St N κ χ σ L where
  ptlock := none
  lk := none
  g := g
  proc _ := ⟨.UNUSED, 0, none, none, false, false, 0, 0, 0, .rel .user, 0, 0, none⟩
  cpu c' := ⟨none, if c' = c then .boot else .top⟩
  nextpid := 1
  initproc := none
  births := 0
  log := []

inductive Reachable (K : Client N χ σ L) (g : σ) : St N κ χ σ L → Prop
  | start (c) : Reachable K g (start c g)
  | step {s s' c} : Reachable K g s → Step K c s s' → Reachable K g s'

theorem Reachable.on {K : Client N χ σ L} {g : σ} {s s' : St N κ χ σ L} (c : κ)
    (h : Reachable K g s)
    (hs : Step K c s s') : Reachable K g s' :=
  h.step hs

end Steps

end Xv6.Ptable
