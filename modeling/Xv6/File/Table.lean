import Mathlib.Data.Fintype.Prod
import Xv6.Lib.Counting
import Xv6.Ptable.Model

/-!
# The file table, the descriptor tables and the pipes

`file.c`, the descriptor calls of `sysfile.c` and the allocation of pipes (`pipe.c`), each system
call one step. A page that holds a pipe is one for which `pipe` has a value; `kfree` of the page
takes the value away. `freelist` is `kmem.freelist`, and `other` lists the pages that the rest of
the kernel holds (user memory, page tables, kernel stacks), which fork, exec, wait and sbrk take
and give back in any number. A panic is an error of the call. Both table sizes, the number of
processes and the type of pages are arbitrary.
-/

namespace Xv6.Files

open Ptable (State)

inductive FileType where
  | FD_NONE
  | FD_PIPE
  | FD_INODE
deriving DecidableEq

/-- `struct file`. -/
structure File (P : Type) where
  type : FileType
  ref : Nat
  readable : Bool
  writable : Bool
  pipe : Option P
  ip : Option Nat
  off : Nat

/-- `f->ref = 0` and `f->type = FD_NONE`. -/
def File.released {P : Type} (v : File P) : File P := { v with ref := 0, type := .FD_NONE }

/-- The flags of `struct pipe` that tell which of its ends are open. -/
structure Ends where
  readopen : Bool
  writeopen : Bool

namespace Ends

def isOpen (e : Ends) (writable : Bool) : Bool := if writable then e.writeopen else e.readopen

/-- `p->writeopen = 0` or `p->readopen = 0`. -/
def shut (e : Ends) (writable : Bool) : Ends :=
  if writable then { e with writeopen := false } else { e with readopen := false }

end Ends

/-- The ways in which the calls of this module can stop the kernel: the two panics of `file.c`, and
the use of a page as a pipe that does not hold one. -/
inductive Panic where
  | filedup
  | fileclose
  | noPipe
deriving DecidableEq

/-- `ftable`, the tables `ofile` and the states of the processes, and the pages. -/
structure Tables (N M L : Nat) (P : Type) where
  file : Fin L → File P
  ofile : Fin N × Fin M → Option (Fin L)
  state : Fin N → State
  pipe : P → Option Ends
  freelist : List P
  other : List P

variable {N M L : Nat} {P : Type} [DecidableEq P]

namespace Tables

def setFile (s : Tables N M L P) (f : Fin L) (v : File P) : Tables N M L P :=
  { s with file := Function.update s.file f v }

def setOfile (s : Tables N M L P) (x : Fin N × Fin M) (v : Option (Fin L)) : Tables N M L P :=
  { s with ofile := Function.update s.ofile x v }

def setState (s : Tables N M L P) (p : Fin N) (v : State) : Tables N M L P :=
  { s with state := Function.update s.state p v }

def refs (s : Tables N M L P) (f : Fin L) : Nat := ∑ x, if s.ofile x = some f then 1 else 0

def alive (s : Tables N M L P) (p : Fin N) : Prop := s.state p ≠ .UNUSED ∧ s.state p ≠ .ZOMBIE

end Tables

/-! ## file.c -/

def filealloc (s : Tables N M L P) : Option (Fin L) × Tables N M L P :=
  match (List.finRange L).find? fun f => decide ((s.file f).ref = 0) with
  | none => (none, s)
  | some f => (some f, s.setFile f { s.file f with ref := 1 })

def filedup (f : Fin L) (s : Tables N M L P) : Except Panic (Tables N M L P) :=
  if (s.file f).ref < 1 then .error .filedup
  else .ok (s.setFile f { s.file f with ref := (s.file f).ref + 1 })

/-- `pipeclose`, without the wakeups. -/
def pipeclose (q : P) (writable : Bool) (s : Tables N M L P) : Except Panic (Tables N M L P) :=
  match s.pipe q with
  | none => .error .noPipe
  | some e =>
    let e := e.shut writable
    if e.readopen = false ∧ e.writeopen = false then
      .ok { s with pipe := Function.update s.pipe q none, freelist := q :: s.freelist }
    else .ok { s with pipe := Function.update s.pipe q (some e) }

/-- `fileclose`. The reference to `ff.ip` that an inode gives up is not a part of this state. -/
def fileclose (f : Fin L) (s : Tables N M L P) : Except Panic (Tables N M L P) :=
  if (s.file f).ref < 1 then .error .fileclose
  else if (s.file f).ref - 1 > 0 then
    .ok (s.setFile f { s.file f with ref := (s.file f).ref - 1 })
  else
    let ff := s.file f
    let s := s.setFile f ff.released
    match ff.type with
    | .FD_PIPE =>
      match ff.pipe with
      | none => .error .noPipe
      | some q => pipeclose q ff.writable s
    | _ => .ok s

/-! ## sysfile.c -/

/-- `argfd`: the descriptor `fd` of a process. -/
def argfd (p : Fin N) (fd : Int) (s : Tables N M L P) : Option (Fin M × Fin L) :=
  if h : 0 ≤ fd ∧ fd < M then
    (s.ofile (p, ⟨fd.toNat, by omega⟩)).map fun f => (⟨fd.toNat, by omega⟩, f)
  else none

def fdalloc (p : Fin N) (f : Fin L) (s : Tables N M L P) : Option (Fin M) × Tables N M L P :=
  match (List.finRange M).find? fun fd => (s.ofile (p, fd)).isNone with
  | none => (none, s)
  | some fd => (some fd, s.setOfile (p, fd) (some f))

def sysDup (p : Fin N) (fd : Int) (s : Tables N M L P) : Except Panic (Int × Tables N M L P) :=
  match argfd p fd s with
  | none => .ok (-1, s)
  | some (_, f) =>
    match fdalloc p f s with
    | (none, s) => .ok (-1, s)
    | (some fd', s) => do
      let s ← filedup f s
      return (fd', s)

def sysClose (p : Fin N) (fd : Int) (s : Tables N M L P) : Except Panic (Int × Tables N M L P) :=
  match argfd p fd s with
  | none => .ok (-1, s)
  | some (fd', f) => do
    let s ← fileclose f (s.setOfile (p, fd') none)
    return (0, s)

def O_WRONLY : Nat := 0x001
def O_RDWR : Nat := 0x002

/-- `sys_open`, from where it has its inode: `found` is what `create` or `namei` found, none when
the arguments, the lookup or the check of directories has failed. -/
def sysOpen (p : Fin N) (found : Option Nat) (omode : Nat) (s : Tables N M L P) :
    Except Panic (Int × Tables N M L P) :=
  match found with
  | none => .ok (-1, s)
  | some ip =>
    match filealloc s with
    | (none, s) => .ok (-1, s)
    | (some f, s) =>
      match fdalloc p f s with
      | (none, s) => do
        let s ← fileclose f s
        return (-1, s)
      | (some fd, s) =>
        .ok (fd, s.setFile f { s.file f with
          type := .FD_INODE
          ip := some ip
          off := 0
          readable := omode &&& O_WRONLY == 0
          writable := omode &&& O_WRONLY != 0 || omode &&& O_RDWR != 0 })

/-- The files of a new pipe in page `q`. -/
def pipeInit (q : P) (rf wf : Fin L) (s : Tables N M L P) : Tables N M L P :=
  let s := { s with pipe := Function.update s.pipe q (some ⟨true, true⟩) }
  let s := s.setFile rf { s.file rf with
    type := .FD_PIPE, readable := true, writable := false, pipe := some q }
  s.setFile wf { s.file wf with
    type := .FD_PIPE, readable := false, writable := true, pipe := some q }

/-- `pipealloc`. The label `bad` is reached with no page, and closes the files it has got. -/
def pipealloc (s : Tables N M L P) : Except Panic (Option (Fin L × Fin L) × Tables N M L P) :=
  match filealloc s with
  | (none, s) => .ok (none, s)
  | (some f0, s) =>
    match filealloc s with
    | (none, s) => do
      let s ← fileclose f0 s
      return (none, s)
    | (some f1, s) =>
      match s.freelist with
      | [] => do
        let s ← fileclose f0 s
        let s ← fileclose f1 s
        return (none, s)
      | q :: l => .ok (some (f0, f1), pipeInit q f0 f1 { s with freelist := l })

/-- `sys_pipe`; `argOk` says whether the address of the two descriptors is the process's. -/
def sysPipe (p : Fin N) (argOk : Bool) (s : Tables N M L P) :
    Except Panic (Int × Tables N M L P) :=
  if argOk = false then .ok (-1, s)
  else do
    let (fs, s) ← pipealloc s
    match fs with
    | none => return (-1, s)
    | some (rf, wf) =>
      match fdalloc p rf s with
      | (none, s) =>
        let s ← fileclose rf s
        let s ← fileclose wf s
        return (-1, s)
      | (some fd0, s) =>
        match fdalloc p wf s with
        | (none, s) =>
          let s ← fileclose rf (s.setOfile (p, fd0) none)
          let s ← fileclose wf s
          return (-1, s)
        | (some _, s) => return (0, s)

/-! ## proc.c -/

/-- The copy of one descriptor in `fork`. -/
def copyFd (p np : Fin N) (s : Tables N M L P) (i : Fin M) : Except Panic (Tables N M L P) :=
  match s.ofile (p, i) with
  | none => .ok s
  | some f => do
    let s ← filedup f s
    return s.setOfile (np, i) (some f)

/-- The part of `fork` that follows the allocation of the child `np`. -/
def fork (p np : Fin N) (s : Tables N M L P) : Except Panic (Tables N M L P) := do
  let s ← (List.finRange M).foldlM (copyFd p np) s
  return s.setState np .RUNNABLE

/-- One turn of the loop of `exit`. -/
def closeFd (p : Fin N) (s : Tables N M L P) (fd : Fin M) : Except Panic (Tables N M L P) :=
  match s.ofile (p, fd) with
  | none => .ok s
  | some f => do
    let s ← fileclose f s
    return s.setOfile (p, fd) none

def exit (p : Fin N) (s : Tables N M L P) : Except Panic (Tables N M L P) := do
  let s ← (List.finRange M).foldlM (closeFd p) s
  return s.setState p .ZOMBIE

/-- The slot that `allocproc` takes. -/
def findUnused (s : Tables N M L P) : Option (Fin N) :=
  (List.finRange N).find? fun p => decide (s.state p = .UNUSED)

/-! ## Runs -/

/-- What the rest of the kernel does with pages: it takes them with `kalloc` and gives back ones
that it holds with `kfree`. -/
inductive Memory : Tables N M L P → Tables N M L P → Prop where
  | done (s : Tables N M L P) : Memory s s
  | kalloc {s s' : Tables N M L P} {q : P} {l : List P} (hl : s.freelist = q :: l)
      (h : Memory { s with freelist := l, other := q :: s.other } s') : Memory s s'
  | kfree {s s' : Tables N M L P} {q : P} (hq : q ∈ s.other)
      (h : Memory { s with freelist := q :: s.freelist, other := s.other.erase q } s') :
      Memory s s'

/-- The outcomes of a system call of process `p`. A `fork` that fails, in `allocproc` or in
`copyuvm`, and `exec` touch no file. -/
inductive Call (initproc p : Fin N) (s : Tables N M L P) :
    Except Panic (Tables N M L P) → Prop where
  | open (found : Option Nat) (omode : Nat) :
      Call initproc p s (Prod.snd <$> sysOpen p found omode s)
  | dup (fd : Int) : Call initproc p s (Prod.snd <$> sysDup p fd s)
  | pipe (argOk : Bool) : Call initproc p s (Prod.snd <$> sysPipe p argOk s)
  | close (fd : Int) : Call initproc p s (Prod.snd <$> sysClose p fd s)
  | fork {np : Fin N} {s' : Tables N M L P} (hnp : findUnused s = some np) (hm : Memory s s') :
      Call initproc p s (fork p np s')
  | forkFails {s' : Tables N M L P} (hm : Memory s s') : Call initproc p s (.ok s')
  | exec {s' : Tables N M L P} (hm : Memory s s') : Call initproc p s (.ok s')
  | sbrk {s' : Tables N M L P} (hm : Memory s s') : Call initproc p s (.ok s')
  | exit (hp : p ≠ initproc) : Call initproc p s (exit p s)
  | wait {q : Fin N} {s' : Tables N M L P} (hq : s.state q = .ZOMBIE) (hm : Memory s s') :
      Call initproc p s (.ok (s'.setState q .UNUSED))

/-- The state after `userinit`: the first process has no open file. -/
def boot (initproc : Fin N) (pages : List P) : Tables N M L P where
  file _ := ⟨.FD_NONE, 0, false, false, none, none, 0⟩
  ofile _ := none
  state p := if p = initproc then .RUNNABLE else .UNUSED
  pipe _ := none
  freelist := pages
  other := []

inductive Reachable (initproc : Fin N) (pages : List P) : Tables N M L P → Prop where
  | boot : Reachable initproc pages (boot initproc pages)
  | step {s s' : Tables N M L P} {p : Fin N} (h : Reachable initproc pages s) (hp : s.alive p)
      (hc : Call initproc p s (.ok s')) : Reachable initproc pages s'

end Xv6.Files
