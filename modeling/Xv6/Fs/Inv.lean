import Xv6.Fs.Calls
import Xv6.Fs.Directory
import Xv6.Lib.Counting

/-!
# The invariant of the inode cache, the file table and the disk

The invariant comes in parts, each over the components it depends on: the slots of the cache
agree with the disk, references are counted, locks are held by processes with a reference.

Two parts are only asked for when they are needed. `Unlinked` is about inodes without links: of
the references to one that is cached, one belongs to a process that may still free it. `Dirs` and
`Notes` are about directories: an entry names an inode that was allocated later, so that locks are
taken in the order of time, and nobody writes into a directory but through its entries.
-/

namespace Xv6.Fs

open Lib

variable {π : Type} [DecidableEq π] [Fintype π]

/-! ## The parts -/

/-- Slots with references hold different inodes of the disk, and a valid one holds a copy. -/
structure Cache (sb : Superblock) (disk : Disk) (inode : Slot → Inode π) : Prop where
  slots : ∀ i, 0 < (inode i).ref →
    (inode i).dev = ROOTDEV ∧ 0 < (inode i).inum ∧ (inode i).inum < sb.ninodes.toNat
  uniq : ∀ i j, 0 < (inode i).ref → 0 < (inode j).ref → (inode i).inum = (inode j).inum → i = j
  coherent : ∀ i, 0 < (inode i).ref → (inode i).valid = true →
    (inode i).d = dinode sb disk (inode i).inum ∧ (inode i).d.type ≠ 0

/-- The slots a process refers to in the variables of its system call. -/
def Note.slots (n : Note) : List Slot := n.toks.map Prod.fst

/-- The references of a process to slot `i`. -/
def ownRefs (x : Proc) (n : Note) (i : Slot) : Nat :=
  n.slots.count i + if x.cwd = some i then 1 else 0

/-- An open file of slot `i`. -/
def File.refersTo (f : File) (i : Slot) : Prop := 0 < f.ref ∧ f.type = .inode ∧ f.ip = i

instance (f : File) (i : Slot) : Decidable (f.refersTo i) := by
  unfold File.refersTo
  infer_instance

/-- The open files of slot `i`. -/
def openRefs (file : FileId → File) (i : Slot) : Nat := ∑ f, if (file f).refersTo i then 1 else 0

/-- The references to slot `i`. -/
def refsTo (file : FileId → File) (proc : π → Proc) (note : π → Note) (i : Slot) : Nat :=
  (∑ p, ownRefs (proc p) (note p) i) + openRefs file i

/-- `ref` counts the references, a reference in a variable is to the inode it was got for, and who
puts a reference has it. -/
structure Tallies (inode : Slot → Inode π) (file : FileId → File) (proc : π → Proc)
    (note : π → Note) : Prop where
  refs : ∀ i, (inode i).ref = refsTo file proc note i
  toks : ∀ p t, t ∈ (note p).toks → (inode t.1).inum = t.2
  puts : ∀ p i st, (note p).put = some (i, st) → i ∈ (note p).slots

/-- `ref` of a file counts its descriptors. A file without type has one or none. -/
structure Opens (file : FileId → File) (proc : π → Proc) : Prop where
  count : ∀ f, (file f).ref = ∑ p, (proc p).opens f
  untyped : ∀ f, (file f).type = .none → (file f).ref ≤ 1
  unused : ∀ f, (file f).ref = 0 → (file f).type = .none

/-- The process refers to slot `i`, by itself or through a file it has open. -/
def Uses (file : FileId → File) (x : Proc) (n : Note) (i : Slot) : Prop :=
  i ∈ n.slots ∨ ∃ fd f, x.ofile fd = some f ∧ (file f).type = .inode ∧ (file f).ip = i

def Holding (inode : Slot → Inode π) (file : FileId → File) (proc : π → Proc)
    (note : π → Note) : Prop :=
  ∀ i p, (inode i).lock = some p → Uses file (proc p) (note p) i

/-- The processes that will drop their reference to slot `i` and have decided not to free it. -/
def dropping (note : π → Note) (i : Slot) : Nat :=
  ∑ p, if (note p).put = some (i, .dropping) then 1 else 0

/-- Some reference to a cached inode without links belongs to a process that may still free it. -/
def Unlinked (inode : Slot → Inode π) (note : π → Note) : Prop :=
  ∀ i, (inode i).valid = true → (inode i).d.nlink = 0 → dropping note i < (inode i).ref

def Dead (x : Proc) (n : Note) : Prop :=
  x.live = false → n = Note.none ∧ x.cwd = none ∧ ∀ fd, x.ofile fd = none

/-! ## The protocol -/

structure FileKey where
  type : FdType
  readable : Bool
  writable : Bool
  ip : Slot

def File.key (f : File) : FileKey := ⟨f.type, f.readable, f.writable, f.ip⟩

def Inode.type? (x : Inode π) : Option (BitVec 16) := if x.valid then some x.d.type else none

/-- What process `p` sees of a slot: the type, while it holds the lock. -/
def Inode.heldBy (x : Inode π) (p : π) : Option (Option (BitVec 16)) :=
  if x.lock = some p then some x.type? else none

/-- A process sees what belongs to it, the types of the inodes it has locked, and its open
files. -/
structure View where
  proc : Proc
  note : Note
  held : Slot → Option (Option (BitVec 16))
  keys : Fd → Option FileKey

def view (p : π) (s : FsSt π) : View where
  proc := s.proc p
  note := s.note p
  held i := (s.inode i).heldBy p
  keys fd := ((s.proc p).ofile fd).map fun f => (s.file f).key

namespace View

def setNote (v : View) (n : Note) : View := { v with note := n }

def setHeld (v : View) (i : Slot) (o : Option (Option (BitVec 16))) : View :=
  { v with held := Function.update v.held i o }

@[simp] theorem held_setHeld (v : View) (i : Slot) (o : Option (Option (BitVec 16))) :
    (v.setHeld i o).held = Function.update v.held i o := rfl

end View

/-- `ip->ref` is read as 1, or some other reference may still free the inode. -/
def Leaves (s : FsSt π) (i : Slot) : Prop :=
  (s.inode i).ref = 1 ∨ dropping s.note i + 1 < (s.inode i).ref

end Xv6.Fs
