import Xv6.Fs.Blocks
import Xv6.Lib.Hoare
import Xv6.Lib.Interleave

/-!
# The state of the file system

The inode cache, the file table and what a process keeps of them: its current directory and its
open files. The blocks of the disk are those that the buffer cache shows, with the writes of
transactions that have not been committed yet.

The rest of the state is not in the source. `Note` is kept for each process: `toks` are the
references to inodes in the variables of its system call, as pairs of a slot and its inode
number; `put` is where it is in `iput`; `firm` is an inode it refers to and has seen not to be a
directory; `want` is the number of an inode it may lock while it holds a directory; `fresh` is an
inode number it has got from `ialloc` and not locked yet, with the type it asked for. `stamp` is
the time at which an inode number was last allocated, `given` the blocks handed out so far, with
the number of the inode they were for, and `logged` the block numbers passed to `log_write`.
-/

namespace Xv6.Fs

open Lib

abbrev Slot := Fin NINODE
abbrev FileId := Fin NFILE
abbrev Fd := Fin NOFILE

instance : NeZero NINODE := ⟨by decide⟩
instance : NeZero NFILE := ⟨by decide⟩
instance : NeZero NOFILE := ⟨by decide⟩

/-- `struct inode`. `lock` is the holder of the sleep-lock, `d` the copy of the inode on disk. -/
structure Inode (π : Type) where
  dev : Nat
  inum : Nat
  ref : Nat
  lock : Option π
  valid : Bool
  d : Dinode

/-- The type of an open file. What is in a pipe is not modelled here. -/
inductive FdType where
  | none
  | pipe
  | inode
deriving DecidableEq

/-- `struct file`. -/
structure File where
  type : FdType
  ref : Nat
  readable : Bool
  writable : Bool
  ip : Slot
  off : Nat

/-- The parts of `struct proc` that refer to files. -/
structure Proc where
  live : Bool
  cwd : Option Slot
  ofile : Fd → Option FileId

/-- Where a process is in `iput`: it has the lock and has not decided, it will free the inode, or
it will only drop its reference. -/
inductive Stage where
  | testing
  | freeing
  | dropping
deriving DecidableEq

structure Note where
  toks : List (Slot × Nat)
  put : Option (Slot × Stage)
  firm : Option Slot
  want : Option (Slot × Nat)
  fresh : Option (Nat × BitVec 16)

def Note.none : Note := ⟨[], .none, .none, .none, .none⟩

structure FsSt (π : Type) where
  disk : Disk
  inode : Slot → Inode π
  file : FileId → File
  proc : π → Proc
  note : π → Note
  stamp : Nat → Nat
  clock : Nat
  given : List (Nat × Given)
  logged : List Nat

/-- The actions that are told apart: taking the lock of an inode in `ilock` and in `iput`, reading
`ref` and freeing the inode in `iput`, clearing the entry of an inode in `sys_unlink`, other code
that calls `log_write`, and `begin_op` and `end_op`. -/
inductive Lab where
  | ilock (i : Slot)
  | iput (i : Slot)
  | readRef (i : Slot)
  | free (i : Slot)
  | erase (i : Slot)
  | log
  | beginOp
  | endOp
  | other
deriving DecidableEq

variable {π : Type} [DecidableEq π]

namespace FsSt

def setInode (s : FsSt π) (i : Slot) (x : Inode π) : FsSt π :=
  { s with inode := Function.update s.inode i x }

def setFile (s : FsSt π) (f : FileId) (x : File) : FsSt π :=
  { s with file := Function.update s.file f x }

def setProc (s : FsSt π) (p : π) (x : Proc) : FsSt π :=
  { s with proc := Function.update s.proc p x }

def setNote (s : FsSt π) (p : π) (x : Note) : FsSt π :=
  { s with note := Function.update s.note p x }

end FsSt

/-- The state in which code under the lock of slot `i` starts. -/
def FsSt.before (s : FsSt π) (i : Slot) : InodeSt := ⟨s.disk, (s.inode i).d, [], []⟩

/-- The state after such code, with slot `i` as `x`. -/
def FsSt.after (s : FsSt π) (i : Slot) (x : Inode π) (u : InodeSt) : FsSt π :=
  { s.setInode i x with
    disk := u.disk
    given := u.given.map (fun g => ((s.inode i).inum, g)) ++ s.given
    logged := u.logged ++ s.logged }

abbrev FsProg (π α : Type) := Prog π (FsSt π) Lab α

def panic {α : Type} (msg : String) : FsProg π α := .step .other fun _ _ => .panic msg

/-- Code under the lock of the inode in slot `i`, as one action; it may use the number of the
inode. -/
def onInode {α : Type} (l : Lab) (i : Slot) (x : Nat → FsM α) : FsProg π α :=
  .step l fun _ s =>
    match x (s.inode i).inum ⟨s.disk, (s.inode i).d, [], []⟩ with
    | .ok (a, t) => .done a { s.setInode i { s.inode i with d := t.ip } with
        disk := t.disk
        given := t.given.map (fun g => ((s.inode i).inum, g)) ++ s.given
        logged := t.logged ++ s.logged }
    | .error msg => .panic msg

variable {α : Type} {p : π} {l : Lab} {i : Slot} {s : FsSt π}

section
omit [DecidableEq π]

theorem after_onInode {x : Nat → FsM α} {Q : α → InodeSt → Prop} {E : String → Prop}
    (h : Sat (x (s.inode i).inum) (s.before i) Q E) : (onInode l i x).after p (fun a s' =>
      ∃ u, Q a u ∧ s' = s.after i { s.inode i with d := u.ip } u) s := by
  refine Prog.after_step fun a s' hf => ?_
  cases hx : x (s.inode i).inum ⟨s.disk, (s.inode i).d, [], []⟩ with
  | error msg =>
    rw [hx] at hf
    cases hf
  | ok r =>
    rw [hx] at hf
    cases hf
    exact ⟨r.2, h.ok hx, rfl⟩

theorem run_onInode {x : Nat → FsM α} {a : α} {u : InodeSt}
    (h : x (s.inode i).inum (s.before i) = .ok (a, u)) :
    (onInode l i x).run p s = some (a, s.after i { s.inode i with d := u.ip } u) := by
  refine Prog.run_step ?_
  unfold FsSt.before at h
  rw [h]
  rfl

end

/-! ## References -/

def Note.take (n : Note) (i : Slot) (e : Nat) : Note := { n with toks := (i, e) :: n.toks }

def Note.drop (n : Note) (i : Slot) (e : Nat) : Note :=
  { n with toks := n.toks.erase (i, e), put := .none }

/-- A reference of the process has become one of an open file or of its current directory. -/
def Note.handOver (n : Note) (i : Slot) (e : Nat) : Note :=
  { n with toks := n.toks.erase (i, e), firm := n.firm.filter fun j => j ≠ i }

/-- One reference to slot `i`. -/
def one (i j : Slot) : Nat := if j = i then 1 else 0

variable {x : Inode π}

section
omit [DecidableEq π]

theorem ref_setInode_add (h : x.ref = (s.inode i).ref + 1) (j : Slot) :
    ((s.setInode i x).inode j).ref = (s.inode j).ref + one i j := by
  by_cases hj : j = i
  · subst hj
    simpa [FsSt.setInode, one] using h
  · simp [FsSt.setInode, one, hj]

theorem ref_setInode_sub (h : x.ref + 1 = (s.inode i).ref) (j : Slot) :
    ((s.setInode i x).inode j).ref + one i j = (s.inode j).ref := by
  by_cases hj : j = i
  · subst hj
    simpa [FsSt.setInode, one] using h
  · simp [FsSt.setInode, one, hj]

end

/-- The first loop of `iget`: is the inode already cached? -/
def findInode (s : FsSt π) (e : Nat) : Option Slot :=
  (List.finRange NINODE).find? fun i =>
    0 < (s.inode i).ref && (s.inode i).dev == ROOTDEV && (s.inode i).inum == e

/-- The slot that `iget` remembers as empty. -/
def findEmpty (s : FsSt π) : Option Slot :=
  (List.finRange NINODE).find? fun i => (s.inode i).ref == 0

def iget (e : Nat) : FsProg π Slot :=
  .step .other fun p s =>
    match findInode s e with
    | some i => .done i ((s.setInode i { s.inode i with ref := (s.inode i).ref + 1 }).setNote p
        ((s.note p).take i e))
    | none =>
      match findEmpty s with
      | some i => .done i ((s.setInode i { s.inode i with
          dev := ROOTDEV, inum := e, ref := 1, valid := false }).setNote p ((s.note p).take i e))
      | none => .panic "iget: no inodes"

/-- `idup(myproc()->cwd)`. -/
def idupCwd : FsProg π Slot :=
  .step .other fun p s =>
    match (s.proc p).cwd with
    | some i => .done i ((s.setInode i { s.inode i with ref := (s.inode i).ref + 1 }).setNote p
        ((s.note p).take i (s.inode i).inum))
    | none => .fault

variable (sb : Superblock)

/-- The inode that `ialloc` gave to the process is locked now: it has the type asked for. -/
def Note.locked (n : Note) (i : Slot) (e : Nat) : Note :=
  match n.fresh with
  | some (e', t) =>
    if e' = e then { n with fresh := .none, firm := if t = T_DIR then n.firm else some i } else n
  | .none => n

/-- `ilock`: take the lock, and read the inode from the disk if necessary. -/
def ilock (i : Slot) : FsProg π Unit :=
  .step (.ilock i) fun p s =>
    if (s.inode i).ref < 1 then .panic "ilock"
    else
      match (s.inode i).lock with
      | some _ => .blocked
      | none =>
        if (s.inode i).valid then
          .done () ((s.setInode i { s.inode i with lock := some p }).setNote p
            ((s.note p).locked i (s.inode i).inum))
        else if (dinode sb s.disk (s.inode i).inum).type = 0 then .panic "ilock: no type"
        else
          .done () ((s.setInode i { s.inode i with
            lock := some p, valid := true, d := dinode sb s.disk (s.inode i).inum }).setNote p
            ((s.note p).locked i (s.inode i).inum))

/-- `holdingsleep` does not ask who holds the lock. -/
def iunlock (i : Slot) : FsProg π Unit :=
  .step .other fun p s =>
    if (s.inode i).lock = none ∨ (s.inode i).ref < 1 then .panic "iunlock"
    else .done () ((s.setInode i { s.inode i with lock := none }).setNote p
      { s.note p with want := (s.note p).want.filter fun w => w.1 ≠ i })

/-- `acquiresleep` in `iput`, and its test of `valid` and `nlink`. -/
def iputAcquire (i : Slot) : FsProg π Bool :=
  .step (.iput i) fun p s =>
    match (s.inode i).lock with
    | some _ => .blocked
    | none =>
      let unlinked := (s.inode i).valid && (s.inode i).d.nlink == 0
      .done unlinked ((s.setInode i { s.inode i with lock := some p }).setNote p { s.note p with
        put := some (i, if unlinked then .testing else .dropping)
        firm := (s.note p).firm.filter fun j => j ≠ i })

/-- `iput` reads `ip->ref` under `icache.lock`. -/
def iputRef (i : Slot) : FsProg π Nat :=
  .step (.readRef i) fun p s =>
    .done (s.inode i).ref (s.setNote p { s.note p with
      put := some (i, if (s.inode i).ref = 1 then .freeing else .dropping) })

/-- `iput` truncates and frees the inode. -/
def iputFree (i : Slot) : FsProg π Unit :=
  .step (.free i) fun _ s =>
    match ifree sb (s.inode i).inum ⟨s.disk, (s.inode i).d, [], []⟩ with
    | .ok (_, t) => .done () { s.setInode i { s.inode i with d := t.ip, valid := false } with
        disk := t.disk
        given := t.given.map (fun g => ((s.inode i).inum, g)) ++ s.given
        logged := t.logged ++ s.logged }
    | .error msg => .panic msg

/-- `releasesleep` in `iput`. -/
def iputRelease (i : Slot) : FsProg π Unit :=
  .step .other fun p s =>
    .done () ((s.setInode i { s.inode i with lock := none }).setNote p
      { s.note p with put := some (i, .dropping) })

/-- `iput` decrements `ip->ref` under `icache.lock`. -/
def iputDrop (i : Slot) : FsProg π Unit :=
  .step .other fun p s =>
    .done () ((s.setInode i { s.inode i with ref := (s.inode i).ref - 1 }).setNote p
      ((s.note p).drop i (s.inode i).inum))

/-- `iput` of a valid inode without links: free it if there are no other references. -/
def iputDecide (i : Slot) (unlinked : Bool) : FsProg π Unit :=
  if unlinked then do
    let r ← iputRef i
    if r = 1 then iputFree sb i else pure ()
  else pure ()

/-- `iput`: drop a reference, and free the inode if it was the last one and there are no links. -/
def iput (i : Slot) : FsProg π Unit := do
  let unlinked ← iputAcquire i
  iputDecide sb i unlinked
  iputRelease i
  iputDrop i

def iunlockput (i : Slot) : FsProg π Unit := do
  iunlock i
  iput sb i

/-! ## Allocating inodes -/

/-- `ialloc` looks at inode `e`, and marks it if it is free. The caller holds directory `dp`. -/
def iprobe (dp : Slot) (type : BitVec 16) (e : Nat) : FsProg π Bool :=
  .step .log fun p s =>
    if (dinode sb s.disk e).type = 0 then
      .done true { s.setNote p { s.note p with fresh := some (e, type), want := some (dp, e) } with
        disk := putDinode sb s.disk e { Dinode.zero with type := type }
        stamp := Function.update s.stamp e (s.clock + 1)
        clock := s.clock + 1
        logged := IBLOCK e sb :: s.logged }
    else .done false s

/-- The loop of `ialloc`. -/
def iallocFrom (dp : Slot) (type : BitVec 16) : List Nat → FsProg π Slot
  | [] => panic "ialloc: no inodes"
  | e :: es => do
    let free ← iprobe sb dp type e
    if free then iget e else iallocFrom dp type es

def ialloc (dp : Slot) (type : BitVec 16) : FsProg π Slot :=
  iallocFrom sb dp type ((List.range (sb.ninodes.toNat - 1)).map (· + 1))

end Xv6.Fs
