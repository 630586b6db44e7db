import Xv6.Lib.Fifo

/-!
# The input of the console

`consoleintr` and `consoleread`, which share a ring of `INPUT_BUF` bytes and three counters under
`cons.lock`: bytes from `r` to `w` have been committed and can be read, bytes from `w` to `e` are
being edited. A device is what the two do between an acquisition and the release of the lock
(`Device`), and a run is any sequence of batches of characters, calls of `consoleread` by any
processes, and returns of theirs from `sleep` (`exec`). The same runs are taken by the ring of the
source and by a queue in two parts (`Queue`), which says what the ring is for.

The echo on the screen is left out.
-/

namespace Xv6.Console

def INPUT_BUF : Nat := 128

instance : NeZero INPUT_BUF := ⟨by decide⟩

abbrev Byte := BitVec 8

def C (x : Char) : Byte := BitVec.ofNat 8 (x.toNat - '@'.toNat)

/-- `'\n'`, `'\r'` and `'\x7f'`. -/
def newline : Byte := 0x0a

def carriageReturn : Byte := 0x0d

def DEL : Byte := 0x7f

/-! ## Calls of `consoleread` -/

/-- The loop of `consoleread` ends with the bytes `dst` delivered and `n` still wanted, or finds
nothing to read. -/
inductive Outcome where
  | done (n : Nat) (dst : List Byte)
  | wait (n : Nat) (dst : List Byte)
deriving DecidableEq

/-- What happens under `cons.lock`: a batch of characters, and the loop of a `consoleread` of
`target` bytes that still wants `n`. -/
structure Device (β : Type) where
  intr : List Byte → β → β
  read : (target n : Nat) → β → (dst : List Byte) → β × Outcome

/-- A call of `consoleread` that waits in `sleep`. -/
structure Reader where
  target : Nat
  n : Nat
  dst : List Byte
deriving DecidableEq

/-- What a process got from `consoleread`, and what the call returned. -/
structure Answer (π : Type) where
  caller : π
  dst : List Byte
  r : BitVec 32
deriving DecidableEq

/-- The device, who waits for it, the answers so far, and the number of process listings. -/
structure St (π β : Type) where
  dev : β
  waits : π → Option Reader
  answers : List (Answer π)
  dumps : Nat

/-- What can happen: an interrupt, which brings the characters that `getc` returns before it is
negative, a process calls `consoleread` to read `n` bytes, or it returns from `sleep`. The flag is
what the process finds in `myproc()->killed`, should it look. -/
inductive Event (π : Type) where
  | intr (cs : List Byte)
  | read (p : π) (n : BitVec 32) (killed : Bool)
  | awake (p : π) (killed : Bool)

section Runs

variable {π β : Type} [DecidableEq π]

/-- A `consoleread` of process `p` runs until it returns, or sleeps. -/
def readOn (D : Device β) (s : St π β) (p : π) (x : Reader) (killed : Bool) : St π β :=
  match D.read x.target x.n s.dev x.dst with
  | (dev, .done n dst) => { s with
      dev := dev
      waits := Function.update s.waits p none
      answers := ⟨p, dst, BitVec.ofNat 32 (x.target - n)⟩ :: s.answers }
  | (dev, .wait n dst) =>
    if killed then { s with
      dev := dev
      waits := Function.update s.waits p none
      answers := ⟨p, dst, -1⟩ :: s.answers }
    else { s with dev := dev, waits := Function.update s.waits p (some ⟨x.target, n, dst⟩) }

/-- One event; a process that is in `consoleread` does not call it, and one that is not does not
return to it. -/
def step (D : Device β) (s : St π β) : Event π → St π β
  | .intr cs => { s with
      dev := D.intr cs s.dev
      dumps := if C 'P' ∈ cs then s.dumps + 1 else s.dumps }
  | .read p n killed =>
    match s.waits p with
    | some _ => s
    | none =>
      if n.toInt ≤ 0 then { s with answers := ⟨p, [], 0⟩ :: s.answers }
      else readOn D s p ⟨n.toNat, n.toNat, []⟩ killed
  | .awake p killed =>
    match s.waits p with
    | some x => readOn D s p x killed
    | none => s

def start (dev : β) : St π β := ⟨dev, fun _ => none, [], 0⟩

def exec (D : Device β) (dev : β) (evs : List (Event π)) : St π β := evs.foldl (step D) (start dev)

end Runs

/-! ## The ring -/

structure Input where
  buf : Fin INPUT_BUF → Byte
  r : BitVec 32
  w : BitVec 32
  e : BitVec 32

namespace Input

/-- `input.buf[i % INPUT_BUF]`. -/
def get (inp : Input) (i : BitVec 32) : Byte := inp.buf (Lib.Fifo.index i)

/-- The loop of `consoleintr` for `^U`. -/
def killLine (inp : Input) : Input :=
  if inp.e ≠ inp.w ∧ inp.get (inp.e - 1) ≠ newline then killLine
    { inp with e := inp.e - 1 } else inp
termination_by (inp.e - inp.w).toNat
decreasing_by
  rename_i h
  have := Lib.Fifo.count_retract (d := inp.buf) (a := inp.w) (b := inp.e) (Ne.symm h.1)
  unfold Lib.Fifo.count at this
  dsimp only at this ⊢
  omega

/-- The `switch` of `consoleintr`. A character is committed with the line before it if it is a
newline or `^D`, or if the ring is full then. -/
def key (inp : Input) (c : Byte) : Input :=
  if c = C 'P' then inp
  else if c = C 'U' then inp.killLine
  else if c = C 'H' ∨ c = DEL then if inp.e ≠ inp.w then { inp with e := inp.e - 1 } else inp
  else if c ≠ 0 ∧ (inp.e - inp.r).toNat < INPUT_BUF then
    let c := if c = carriageReturn then newline else c
    let inp := { inp with buf := Function.update inp.buf (Lib.Fifo.index inp.e) c, e := inp.e + 1 }
    if c = newline ∨ c = C 'D' ∨ inp.e =
      inp.r + BitVec.ofNat 32 INPUT_BUF then { inp with w := inp.e }
    else inp
  else inp

def consoleintr (cs : List Byte) (inp : Input) : Input := cs.foldl key inp

/-- The loop of `consoleread`; a `^D` that ends it is put back if bytes have been delivered. -/
def consoleread (target : Nat) : Nat → Input → List Byte → Input × Outcome
  | 0, inp, dst => (inp, .done 0 dst)
  | n + 1, inp, dst =>
    if inp.r = inp.w then (inp, .wait (n + 1) dst)
    else
      let c := inp.get inp.r
      let inp := { inp with r := inp.r + 1 }
      if c = C 'D' then
        (if n + 1 < target then { inp with r := inp.r - 1 } else inp, .done (n + 1) dst)
      else if c = newline then (inp, .done n (dst ++ [c]))
      else consoleread target n inp (dst ++ [c])

end Input

def ring : Device Input := ⟨Input.consoleintr, Input.consoleread⟩

/-- `input` when the kernel starts. -/
def input₀ : Input := ⟨fun _ => 0, 0, 0, 0⟩

/-! ## The queue -/

structure Queue where
  committed : List Byte
  edit : List Byte

namespace Queue

def append (q : Queue) (c : Byte) : Queue :=
  if q.committed.length + q.edit.length < INPUT_BUF then
    if c = newline ∨ c = C 'D' ∨ q.committed.length + q.edit.length + 1 = INPUT_BUF then
      ⟨q.committed ++ (q.edit ++ [c]), []⟩
    else ⟨q.committed, q.edit ++ [c]⟩
  else q

def key (q : Queue) (c : Byte) : Queue :=
  if c = 0 ∨ c = C 'P' then q
  else if c = C 'U' then { q with edit := [] }
  else if c = C 'H' ∨ c = DEL then { q with edit := q.edit.dropLast }
  else q.append (if c = carriageReturn then newline else c)

/-- Deliver committed bytes in order, up to `n` of them, up to and including a newline, or up to a
`^D`, which is taken out of the queue only if nothing has been delivered. -/
def deliver : Nat → Queue → List Byte → Queue × Outcome
  | 0, q, dst => (q, .done 0 dst)
  | n + 1, ⟨[], edit⟩, dst => (⟨[], edit⟩, .wait (n + 1) dst)
  | n + 1, ⟨c :: l, edit⟩, dst =>
    if c = C 'D' then (if dst = [] then ⟨l, edit⟩ else ⟨c :: l, edit⟩, .done (n + 1) dst)
    else if c = newline then (⟨l, edit⟩, .done n (dst ++ [c]))
    else deliver n ⟨l, edit⟩ (dst ++ [c])

end Queue

def queue : Device Queue := ⟨fun cs q => cs.foldl Queue.key q, fun _ n q dst => q.deliver n dst⟩

end Xv6.Console
