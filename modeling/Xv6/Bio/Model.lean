import Xv6.Param
import Xv6.Lib.Interleave
import Xv6.Lib.Ring

/-!
# The buffer cache

`bio.c` with the pointers of the LRU list as they are: `links` holds `next` and `prev` of every
buffer and of `bcache.head`. A critical section under `bcache.lock` is one action, and so are
taking and releasing a buffer's sleep-lock and a transfer by the disk driver. `iderw` is the
driver's contract: a dirty buffer is written, a buffer that is not valid is read.

The cache serves one device, `ROOTDEV`; `binit` leaves all buffers with `dev = 0`. A process
reads blocks, and does three things with a buffer it has locked: it changes the data and calls
`log_write`, it changes the data and calls `bwrite`, and it calls `brelse`. What `log_write`
does to the log is not part of this model, only that it sets `B_DIRTY`. A commit of the log is
a sequence of such calls.

`phase` and `hist` are not in the source: where a process is inside a call, and the blocks read
and left so far, newest first.
-/

namespace Xv6.Bio

open Lib

abbrev BufId := Fin NBUF

instance : NeZero NBUF := ⟨by decide⟩

/-- `struct buf`. `lock` is the holder of the sleep-lock, if it is locked. -/
structure Buf (π : Type) where
  valid : Bool
  dirty : Bool
  dev : Nat
  blockno : Nat
  lock : Option π
  refcnt : Nat
  data : Block

/-- Where a process is inside a call: between getting a buffer and its lock, between the lock
and the data, between changing the data and saying so, between setting `B_DIRTY` and the
write, between releasing the lock and giving the reference back. -/
inductive Phase where
  | idle
  | waiting (i : BufId) (b : Nat)
  | filling (i : BufId) (b : Nat)
  | editing (i : BufId)
  | writing (i : BufId)
  | releasing (i : BufId)
deriving DecidableEq

/-- A process left `v` in block `b` and called `log_write` or `bwrite`, or `bread` of block `b`
returned `v`. -/
inductive Ev where
  | left (b : Nat) (v : Block)
  | read (b : Nat) (v : Block)

inductive Lab where
  | get (b : Nat)
  | acquire (i : BufId)
  | fill (i : BufId)
  | edit (i : BufId)
  | pin (i : BufId)
  | mark (i : BufId)
  | write (i : BufId)
  | release (i : BufId)
  | giveBack (i : BufId)
deriving DecidableEq

structure BSt (π : Type) where
  buf : BufId → Buf π
  links : Links BufId
  disk : Nat → Block
  phase : π → Phase
  hist : List Ev

section Programs

variable {π : Type} [DecidableEq π]

/-- Buffer `i` becomes `b`, and process `p` moves on to the phase `ph`. -/
def BSt.set (s : BSt π) (p : π) (i : BufId) (b : Buf π) (ph : Phase) : BSt π :=
  { s with buf := Function.update s.buf i b, phase := Function.update s.phase p ph }

def BSt.note (s : BSt π) (e : Ev) : BSt π := { s with hist := e :: s.hist }

/-- The critical section of `bget`: look for the block from the front of the list, then for an
unused buffer from its end. -/
def scan (dev b : Nat) (p : π) (s : BSt π) : Outcome (BSt π) BufId :=
  match walk s.links.next (fun i => (s.buf i).dev = dev ∧ (s.buf i).blockno = b) (NBUF + 1)
      (s.links.next none) with
  | none => .fault
  | some (some i) =>
    .done i (s.set p i { s.buf i with refcnt := (s.buf i).refcnt + 1 } (.waiting i b))
  | some none =>
    match walk s.links.prev (fun i => (s.buf i).refcnt = 0 ∧ (s.buf i).dirty = false) (NBUF + 1)
        (s.links.prev none) with
    | none => .fault
    | some (some i) =>
      .done i (s.set p i { s.buf i with
        dev := dev, blockno := b, valid := false, dirty := false, refcnt := 1 } (.waiting i b))
    | some none => .panic "bget: no buffers"

/-- Wait for the lock of buffer `i`, which holds block `b`. -/
def acquiresleep (i : BufId) (b : Nat) : Prog π (BSt π) Lab Unit := .step (.acquire i) fun p s =>
  match (s.buf i).lock with
  | some _ => .blocked
  | none => .done () (s.set p i { s.buf i with lock := some p } (.filling i b))

/-- Look through buffer cache for block on device dev. If not found, allocate a buffer. In
either case, return locked buffer. -/
def bget (dev b : Nat) : Prog π (BSt π) Lab BufId := do
  let i ← .step (.get b) (scan dev b)
  acquiresleep i b
  pure i

/-- Sync buf with disk. If `B_DIRTY` is set, write buf to disk, clear `B_DIRTY`, set
`B_VALID`. Else if `B_VALID` is not set, read buf from disk, set `B_VALID`. -/
def iderw (s : BSt π) (p : π) (i : BufId) : Outcome (BSt π) Unit :=
  let b := s.buf i
  if b.lock = none then .panic "iderw: buf not locked"
  else if b.valid = true ∧ b.dirty = false then .panic "iderw: nothing to do"
  else if FSSIZE ≤ b.blockno then .panic "incorrect blockno"
  else if b.dirty = true then
    .done () { s.set p i { b with valid := true, dirty := false } .idle with
      disk := Function.update s.disk b.blockno b.data }
  else .done () (s.set p i { b with valid := true, data := s.disk b.blockno } .idle)

def bread (dev b : Nat) : Prog π (BSt π) Lab BufId := do
  let i ← bget dev b
  .step (.fill i) fun p s =>
    if (s.buf i).valid = true then
      .done i ((s.set p i (s.buf i) .idle).note (.read b (s.buf i).data))
    else
      match iderw s p i with
      | .done _ s => .done i (s.note (.read b (s.buf i).data))
      | .panic m => .panic m
      | _ => .fault

def edit (i : BufId) (v : Block) : Prog π (BSt π) Lab Unit := .step (.edit i) fun p s =>
  .done () (s.set p i { s.buf i with data := v } (.editing i))

/-- The part of `log_write` that is about the buffer: pin it in the cache with `B_DIRTY`. -/
def logWrite (i : BufId) : Prog π (BSt π) Lab Unit := .step (.pin i) fun p s =>
  .done () ((s.set p i { s.buf i with dirty := true } .idle).note
    (.left (s.buf i).blockno (s.buf i).data))

def bwrite (i : BufId) : Prog π (BSt π) Lab Unit := do
  .step (.mark i) fun p s =>
    if (s.buf i).lock = none then .panic "bwrite"
    else .done () ((s.set p i { s.buf i with dirty := true } (.writing i)).note
      (.left (s.buf i).blockno (s.buf i).data))
  .step (.write i) fun p s => iderw s p i

def brelse (i : BufId) : Prog π (BSt π) Lab Unit := do
  .step (.release i) fun p s =>
    if (s.buf i).lock = none then .panic "brelse"
    else .done () (s.set p i { s.buf i with lock := none } (.releasing i))
  .step (.giveBack i) fun p s =>
    let s := s.set p i { s.buf i with refcnt := (s.buf i).refcnt - 1 } .idle
    if (s.buf i).refcnt = 0 then .done () { s with links := (s.links.unlink i).pushFront i }
    else .done () s

def bioSys (π : Type) [DecidableEq π] : Sys π (BSt π) Lab where
  calls p s x :=
    (∃ b, x = bread ROOTDEV b >>= fun _ => pure ()) ∨
    (∃ i, (s.buf i).lock = some p ∧ (x = brelse i ∨
      ∃ v, x = (edit i v >>= fun _ => logWrite i) ∨ x = (edit i v >>= fun _ => bwrite i)))
  env _ _ := False

def binit : Links BufId := (List.finRange NBUF).foldl Links.pushFront Links.empty

/-- The cache after `binit`, over the disk `d`. -/
def boot (d : Nat → Block) : BSt π :=
  ⟨fun _ => ⟨false, false, 0, 0, none, 0, Bytes.zero⟩, binit, d, fun _ => .idle, []⟩

/-! ## Scripts -/

/-- The calls of a script: `bread`, a change with `log_write`, `brelse`. -/
inductive Call where
  | read (b : Nat)
  | log (i : BufId) (v : Block)
  | release (i : BufId)

def callOf (p : π) (s : BSt π) : Call → Option (Prog π (BSt π) Lab Unit)
  | .read b => some (bread ROOTDEV b >>= fun _ => pure ())
  | .log i v => if (s.buf i).lock = some p then some (edit i v >>= fun _ => logWrite i) else none
  | .release i => if (s.buf i).lock = some p then some (brelse i) else none

theorem callOf_calls (p : π) (s : BSt π) (k : Call) (x : Prog π (BSt π) Lab Unit)
    (h : callOf p s k = some x) : (bioSys π).calls p s x := by
  cases k with
  | read b =>
    simp only [callOf, Option.some.injEq] at h
    exact Or.inl ⟨b, h.symm⟩
  | log i v =>
    simp only [callOf, Option.ite_none_right_eq_some, Option.some.injEq] at h
    exact Or.inr ⟨i, h.1, Or.inr ⟨v, Or.inl h.2.symm⟩⟩
  | release i =>
    simp only [callOf, Option.ite_none_right_eq_some, Option.some.injEq] at h
    exact Or.inr ⟨i, h.1, Or.inl h.2.symm⟩

end Programs

/-! ## Reading the history -/

/-- The contents last left in a block, or those of the disk `d`. -/
def lastLeft (d : Nat → Block) : List Ev → Nat → Block
  | [] => d
  | .left b v :: h => Function.update (lastLeft d h) b v
  | .read _ _ :: h => lastLeft d h

/-- Every `bread` returned the contents last left in its block. -/
def ReadsLast (d : Nat → Block) : List Ev → Prop
  | [] => True
  | .read b v :: h => v = lastLeft d h b ∧ ReadsLast d h
  | .left _ _ :: h => ReadsLast d h

end Xv6.Bio
