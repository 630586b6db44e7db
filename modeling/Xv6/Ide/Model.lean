import Xv6.Lib.Chain
import Xv6.Param

/-!
# The disk drivers

`ide.c` as a machine of processes in `iderw`, the device and its interrupt handler, with a step for
each access to the shared state: a process may be stopped anywhere, and the handler runs on some
processor when the device has raised its interrupt. `idelock` is a spin lock; a process that finds
it taken does not step. A sleeping process may be woken at any time.

The device does one command at a time and raises one interrupt for it, without an error. The
contents of a block are of any type `δ`, and processes and buffers are any.

`queued`, `served` and `log` are not in the source. They record the requests in the order of the
queue, those that have been completed, and all that has been done to the buffers.
-/

namespace Xv6.Ide

open Lib
open Function (update)

variable {π β δ : Type} [DecidableEq π] [DecidableEq β]

structure Buf (δ : Type) where
  valid : Bool
  dirty : Bool
  dev : Nat
  blockno : Nat
  data : δ

/-- `(b->flags & (B_VALID|B_DIRTY)) == B_VALID`. -/
def Buf.done (x : Buf δ) : Bool := x.valid && !x.dirty

/-! ## memide.c -/

structure Mem (β δ : Type) where
  disk : Nat → δ
  buf : β → Buf δ

/-- What is done to buffers: their owner sets one, or a request for one is served. -/
inductive Event (β δ : Type) where
  | set (b : β) (x : Buf δ)
  | rw (b : β)

def Event.request : Event β δ → Option β
  | .set _ _ => none
  | .rw b => some b

namespace Memide

/-- `iderw` of `memide.c`; `held` is the answer of `holdingsleep`. -/
def iderw (disksize : Nat) (held : Bool) (b : β) (m : Mem β δ) : Except String (Mem β δ) :=
  let x := m.buf b
  if held = false then .error "iderw: buf not locked"
  else if x.done then .error "iderw: nothing to do"
  else if x.dev ≠ 1 then .error "iderw: request not for disk 1"
  else if disksize ≤ x.blockno then .error "iderw: block out of range"
  else if x.dirty then .ok ⟨update m.disk x.blockno x.data,
    update m.buf b { x with dirty := false, valid := true }⟩
  else .ok ⟨m.disk, update m.buf b { x with data := m.disk x.blockno, valid := true }⟩

def act (m : Mem β δ) : Event β δ → Except String (Mem β δ)
  | .set b x => .ok { m with buf := update m.buf b x }
  | .rw b => iderw FSSIZE true b m

end Memide

/-! ## ide.c -/

/-- What the device is doing: nothing, a command for a block, with the data if it is a write, or it
has the data of a read ready. -/
inductive Dev (δ : Type) where
  | idle
  | running (blockno : Nat) (out : Option δ)
  | ready (data : δ)

/-- Where a process is: outside `iderw`; before `acquire`; in the loop that looks for the end of the
queue, at the place behind `pp`; at `idestart`; at the test of the flags; asleep on the buffer, or
woken and before `acquire` in `sleep`; and at `release`. -/
inductive Pc (β : Type) where
  | out
  | enter (b : β)
  | walk (b : β) (pp : Option β)
  | start (b : β)
  | test (b : β)
  | asleep (b : β)
  | woken (b : β)
  | fin (b : β)

/-- Where the interrupt handler is: not running; at `acquire`; at the head of the queue; reading the
data of the buffer it has taken off; setting its flags; at `wakeup`; at the next request; and at
`release`. -/
inductive IPc (β : Type) where
  | idle
  | acq
  | take
  | read (b : β)
  | flags (b : β)
  | wake (b : β)
  | next
  | rel

/-- Who holds `idelock`. -/
inductive Ctx (π : Type) where
  | proc (p : π)
  | intr

structure St (π β δ : Type) where
  buf : β → Buf δ
  holder : β → Option π
  idelock : Option (Ctx π)
  idequeue : Option β
  qnext : β → Option β
  disk : Nat → δ
  dev : Dev δ
  irq : Bool
  pc : π → Pc β
  ipc : IPc β
  queued : List β
  served : List β
  log : List (Event β δ)

/-- The panics of `iderw` before the request is queued. -/
def check (havedisk1 held : Bool) (x : Buf δ) : Option String :=
  if held = false then some "iderw: buf not locked"
  else if x.done then some "iderw: nothing to do"
  else if x.dev ≠ 0 ∧ havedisk1 = false then some "iderw: ide disk 1 not present"
  else none

/-- `idestart`: the command for the device. A block is one sector. -/
def idestart (x : Buf δ) : Except String (Dev δ) :=
  if FSSIZE ≤ x.blockno then .error "incorrect blockno"
  else .ok (.running x.blockno (if x.dirty then some x.data else none))

namespace St

variable (s : St π β δ)

def setPc (p : π) (c : Pc β) : St π β δ := { s with pc := update s.pc p c }

def setBuf (b : β) (x : Buf δ) : St π β δ := { s with buf := update s.buf b x }

/-- `*pp = b`. -/
def link (pp : Option β) (b : β) : St π β δ :=
  match pp with
  | none => { s with idequeue := some b }
  | some x => { s with qnext := update s.qnext x (some b) }

def wakeup (b : β) : St π β δ :=
  { s with pc := fun p => match s.pc p with
      | .asleep b' => if b' = b then .woken b else .asleep b'
      | c => c }

end St

/-- The device is not busy, so that `idewait` returns. -/
def Dev.free : Dev δ → Bool
  | .running _ _ => false
  | _ => true

/-- The steps. Buffers are locked with `acquiresleep`, and the owner of one may set it as it likes
while it is not in `iderw`; a request is for disk 1, and for a block that is on it. -/
inductive Step (s : St π β δ) : St π β δ → Prop
  | acquiresleep (p : π) (b : β) (h : s.pc p = .out) (hb : s.holder b = none) :
    Step s { s with holder := update s.holder b (some p) }
  | releasesleep (p : π) (b : β) (h : s.pc p = .out) (hb : s.holder b = some p) :
    Step s { s with holder := update s.holder b none }
  | set (p : π) (b : β) (x : Buf δ) (h : s.pc p = .out) (hb : s.holder b = some p) :
    Step s { s.setBuf b x with log := s.log ++ [.set b x] }
  -- iderw
  | call (p : π) (b : β) (h : s.pc p = .out) (hb : s.holder b = some p)
    (hc : check true true (s.buf b) = none) (hdev : (s.buf b).dev = 1)
    (hblk : (s.buf b).blockno < FSSIZE) : Step s (s.setPc p (.enter b))
  | acquire (p : π) (b : β) (h : s.pc p = .enter b) (hl : s.idelock = none) :
    Step s { s.setPc p (.walk b none) with
      idelock := some (.proc p), qnext := update s.qnext b none }
  | walk (p : π) (b y : β) (pp : Option β) (h : s.pc p = .walk b pp)
    (hy : Chain.deref s.qnext s.idequeue pp = some y) : Step s (s.setPc p (.walk b (some y)))
  | link (p : π) (b : β) (pp : Option β) (h : s.pc p = .walk b pp)
    (hend : Chain.deref s.qnext s.idequeue pp = none) :
    Step s { (s.link pp b).setPc p (.start b) with queued := s.queued ++ [b] }
  | start (p : π) (b : β) (d : Dev δ) (h : s.pc p = .start b) (hq : s.idequeue = some b)
    (hfree : s.dev.free = true) (hd : idestart (s.buf b) = .ok d) :
    Step s { s.setPc p (.test b) with dev := d }
  | noStart (p : π) (b : β) (h : s.pc p = .start b) (hq : s.idequeue ≠ some b) :
    Step s (s.setPc p (.test b))
  | testDone (p : π) (b : β) (h : s.pc p = .test b) (hd : (s.buf b).done = true) :
    Step s (s.setPc p (.fin b))
  | sleep (p : π) (b : β) (h : s.pc p = .test b) (hd : (s.buf b).done = false) :
    Step s { s.setPc p (.asleep b) with idelock := none }
  | kill (p : π) (b : β) (h : s.pc p = .asleep b) : Step s (s.setPc p (.woken b))
  | reacquire (p : π) (b : β) (h : s.pc p = .woken b) (hl : s.idelock = none) :
    Step s { s.setPc p (.test b) with idelock := some (.proc p) }
  | release (p : π) (b : β) (h : s.pc p = .fin b) :
    Step s { s.setPc p .out with idelock := none }
  -- the device
  | write (n : Nat) (v : δ) (h : s.dev = .running n (some v)) :
    Step s { s with disk := update s.disk n v, dev := .idle, irq := true }
  | fetch (n : Nat) (h : s.dev = .running n none) :
    Step s { s with dev := .ready (s.disk n), irq := true }
  -- ideintr
  | intr (h : s.ipc = .idle) (hi : s.irq = true) : Step s { s with ipc := .acq, irq := false }
  | iacquire (h : s.ipc = .acq) (hl : s.idelock = none) :
    Step s { s with ipc := .take, idelock := some .intr }
  | empty (h : s.ipc = .take) (hq : s.idequeue = none) : Step s { s with ipc := .rel }
  | take (b : β) (h : s.ipc = .take) (hq : s.idequeue = some b) :
    Step s { s with ipc := .read b, idequeue := s.qnext b }
  | skip (b : β) (h : s.ipc = .read b) (hd : (s.buf b).dirty = true) :
    Step s { s with ipc := .flags b }
  -- `insl` gives what the device has ready, and anything if it has nothing
  | insl (b : β) (v : δ) (h : s.ipc = .read b) (hd : (s.buf b).dirty = false)
    (hv : ∀ w, s.dev = .ready w → v = w) :
    Step s { s.setBuf b { s.buf b with data := v } with ipc := .flags b, dev := .idle }
  | flags (b : β) (h : s.ipc = .flags b) :
    Step s { s.setBuf b { s.buf b with valid := true, dirty := false } with
      ipc := .wake b, served := s.served ++ [b], log := s.log ++ [.rw b] }
  | wakeup (b : β) (h : s.ipc = .wake b) : Step s { s.wakeup b with ipc := .next }
  | next (b : β) (d : Dev δ) (h : s.ipc = .next) (hq : s.idequeue = some b)
    (hfree : s.dev.free = true) (hd : idestart (s.buf b) = .ok d) :
    Step s { s with ipc := .rel, dev := d }
  | noNext (h : s.ipc = .next) (hq : s.idequeue = none) : Step s { s with ipc := .rel }
  | irelease (h : s.ipc = .rel) : Step s { s with ipc := .idle, idelock := none }

structure Init (s : St π β δ) : Prop where
  pc : ∀ p, s.pc p = .out
  ipc : s.ipc = .idle
  idelock : s.idelock = none
  idequeue : s.idequeue = none
  dev : s.dev = .idle
  irq : s.irq = false
  queued : s.queued = []
  served : s.served = []
  log : s.log = []

/-- The states of all runs from `s0`. -/
inductive Reach (s0 : St π β δ) : St π β δ → Prop
  | init : Reach s0 s0
  | step {s s' : St π β δ} (h : Reach s0 s) (hs : Step s s') : Reach s0 s'

end Xv6.Ide
