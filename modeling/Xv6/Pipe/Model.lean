import Xv6.Lib.Fifo
import Xv6.Ptable.Outline

/-!
# One pipe

`pipe.c` as code under `p->lock`. The end of the pipe that a process holds is told by `writable`, as
in `pipeclose`. `refs` counts the descriptors of each process for an end: `fork` and `dup` add some,
`close` and `exit` drop one at a time, and the process that drops the last one of an end goes on to
call `pipeclose` (`fileclose`). The lists `stored` and `delivered` are not in the source; they
record the bytes that `pipewrite` has stored, with the processes that stored them, and those that
`piperead` has delivered.
-/

namespace Xv6.Pipes

open Ptable

def PIPESIZE : Nat := 512

instance : NeZero PIPESIZE := ⟨by decide⟩

/-- The channels `&p->nread` and `&p->nwrite`. -/
inductive Ch where
  | nread
  | nwrite
deriving DecidableEq

abbrev Byte := BitVec 8

/-- `struct pipe`, with its page and what refers to it. -/
structure Pipe (N : Nat) where
  ring : Lib.Fifo Byte PIPESIZE 32
  readopen : Bool
  writeopen : Bool
  created : Bool
  page : Bool
  refs : Bool → Fin N → Nat
  closing : Bool → Option (Fin N)
  freeing : Option (Fin N)
  stored : List (Fin N × Byte)
  delivered : List Byte

variable {N : Nat}

namespace Pipe

/-- `p->nwrite == p->nread + PIPESIZE`. -/
def isFull (g : Pipe N) : Prop := g.ring.nwrite = g.ring.nread + BitVec.ofNat 32 PIPESIZE

/-- `p->nread == p->nwrite`. -/
def isEmpty (g : Pipe N) : Prop := g.ring.nread = g.ring.nwrite

def isOpen (g : Pipe N) (writable : Bool) : Bool := if writable then g.writeopen else g.readopen

/-- The bytes that process `p` has stored. -/
def bytesOf (g : Pipe N) (p : Fin N) : List Byte :=
  (g.stored.filter fun x => x.1 = p).map Prod.snd

/-- `p->data[p->nwrite++ % PIPESIZE] = b`. -/
def store (g : Pipe N) (p : Fin N) (b : Byte) : Pipe N :=
  { g with ring := g.ring.push b, stored := g.stored ++ [(p, b)] }

/-- `addr[i] = p->data[p->nread++ % PIPESIZE]`. -/
def take (g : Pipe N) : Pipe N :=
  { g with ring := g.ring.pop, delivered := g.delivered ++ [g.ring.front] }

/-- The assignment in `pipeclose`. -/
def shut (g : Pipe N) (writable : Bool) : Pipe N :=
  { g with
    readopen := if writable then g.readopen else false
    writeopen := if writable then false else g.writeopen
    closing := Function.update g.closing writable none }

/-- `pipealloc` by process `p`; the page may hold anything. -/
def create (g : Pipe N) (p : Fin N) (data : Fin PIPESIZE → Byte) : Pipe N :=
  { g with
    ring := ⟨data, 0, 0⟩
    readopen := true
    writeopen := true
    created := true
    page := true
    refs := fun _ q => if q = p then 1 else 0 }

/-- Process `q` gets a descriptor of an end. -/
def share (g : Pipe N) (writable : Bool) (q : Fin N) : Pipe N :=
  let refs := Function.update (g.refs writable) q (g.refs writable q + 1)
  { g with refs := Function.update g.refs writable refs }

/-- Process `p` drops a descriptor, and goes on to `pipeclose` if it was the last one. -/
def drop (g : Pipe N) (writable : Bool) (p : Fin N) : Pipe N :=
  let refs := Function.update (g.refs writable) p (g.refs writable p - 1)
  { g with
    refs := Function.update g.refs writable refs
    closing := if ∀ q, refs q = 0 then Function.update g.closing writable (some p) else g.closing }

end Pipe

def noPipe : Pipe N where
  ring := ⟨fun _ => 0, 0, 0⟩
  readopen := false
  writeopen := false
  created := false
  page := false
  refs _ _ := 0
  closing _ := none
  freeing := none
  stored := []
  delivered := []

/-! ## The code -/

/-- Places in `pipewrite`, `piperead` and `pipeclose`, with their variables. `before` is the number
of bytes that the process had stored before the call, and `unsent` says that bytes have been stored
since `p->lock` was acquired or `wakeup(&p->nread)` was last called. -/
inductive Place where
  | write (buf : List Byte) (i before : Nat) (unsent : Bool)
  | full (buf : List Byte) (i before : Nat)
  | written (buf : List Byte) (before : Nat)
  | read (n : Nat)
  | copy (n i : Nat)
  | readDone
  | close (writable : Bool)
  | closed (writable : Bool)
  | check
  | last

/-- In `pipewrite` or `piperead`. -/
def Place.inCall : Place → Bool
  | .write .. | .full .. | .written .. | .read _ | .copy .. | .readDone => true
  | _ => false

/-- What process `p` does next under `p->lock`. -/
inductive PipeAct (p : Fin N) (killed : Bool) : Place → Pipe N → Act Ch (Pipe N) Place → Prop
  -- `pipewrite`
  | store {g buf i before unsent} (hi : i < buf.length) : ¬ g.isFull →
    PipeAct p killed (.write buf i before unsent) g
      (.set (g.store p buf[i]) (.write buf (i + 1) before true))
  | giveUp {g buf i before unsent} :
    i < buf.length → g.isFull → (g.readopen = false ∨ killed = true) →
    PipeAct p killed (.write buf i before unsent) g .release
  | wakeReaders {g buf i before unsent} : i < buf.length → g.isFull → g.readopen = true →
    killed = false → PipeAct p killed (.write buf i before unsent) g
      (.wakeup .nread (.full buf i before))
  | sleepFull {g buf i before} :
    PipeAct p killed (.full buf i before) g (.sleep .nwrite (.write buf i before false))
  | finish {g buf i before unsent} : ¬ i < buf.length →
    PipeAct p killed (.write buf i before unsent) g (.wakeup .nread (.written buf before))
  | written {g buf before} : PipeAct p killed (.written buf before) g .release
  -- `piperead`
  | sleepEmpty {g n} : g.isEmpty → g.writeopen = true → killed = false →
    PipeAct p killed (.read n) g (.sleep .nread (.read n))
  | interrupted {g n} : g.isEmpty → g.writeopen = true → killed = true →
    PipeAct p killed (.read n) g .release
  | startCopy {g n} : ¬ (g.isEmpty ∧ g.writeopen = true) →
    PipeAct p killed (.read n) g (.set g (.copy n 0))
  | take {g n i} : i < n → ¬ g.isEmpty →
    PipeAct p killed (.copy n i) g (.set g.take (.copy n (i + 1)))
  | stop {g n i} :
    (¬ i < n ∨ g.isEmpty) → PipeAct p killed (.copy n i) g (.wakeup .nwrite .readDone)
  | readDone {g} : PipeAct p killed .readDone g .release
  -- `pipeclose`
  | shut {g writable} :
    PipeAct p killed (.close writable) g (.set (g.shut writable) (.closed writable))
  | closed {g writable} : PipeAct p killed (.closed writable) g
      (.wakeup (if writable then .nread else .nwrite) .check)
  | both {g} : g.readopen = false → g.writeopen = false →
    PipeAct p killed .check g (.set { g with freeing := some p } .last)
  | one {g} : (g.readopen = true ∨ g.writeopen = true) → PipeAct p killed .check g .release
  | last {g} : PipeAct p killed .last g .release

/-- The calls that process `p` may make. -/
inductive PipeEnter (p : Fin N) (g : Pipe N) : Place → Prop
  | write (buf) : 0 < g.refs true p → PipeEnter p g (.write buf 0 (g.bytesOf p).length false)
  | read (n) : 0 < g.refs false p → PipeEnter p g (.read n)
  | close (writable) : g.closing writable = some p → PipeEnter p g (.close writable)

/-- What process `p` may do without `p->lock`; `kfree` comes after the lock is released. -/
inductive PipeOutside (p : Fin N) (g : Pipe N) : Pipe N → Prop
  | create (data) : g.created = false → PipeOutside p g (g.create p data)
  | share (writable q) : 0 < g.refs writable p → PipeOutside p g (g.share writable q)
  | drop (writable) : 0 < g.refs writable p → PipeOutside p g (g.drop writable p)
  | kfree : g.freeing = some p → PipeOutside p g { g with page := false, freeing := none }

def pipeClient : Client N Ch (Pipe N) Place where
  enter := PipeEnter
  act p killed l g a := PipeAct p killed l g a
  outside := PipeOutside

end Xv6.Pipes
