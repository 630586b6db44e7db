import Xv6.Param
import Xv6.Lib.Interleave

/-!
# The redo log: what `commit` and `recover_from_log` do to the disk

The routines of `log.c` that move blocks between the buffer cache, the log area and the
home locations, as programs whose actions are single calls of `bread` and `bwrite`. The
buffer cache is seen as the block store it implements: `buf` is what `bread` returns, and
`bwrite` changes `buf` and the disk. `writes` records the block writes in issue order. That `bget`
finds a buffer is left to the cache: it does while fewer than `NBUF` are held or pinned, and where
it does not the kernel panics and the disk is as a crash at that point would leave it.

The in-memory header holds `log.lh.block[0 .. n-1]`; its array has room for `LOGSIZE`
numbers, which is a field of the type.
-/

namespace Xv6.Log

open Lib

/-- The part of `struct logheader` in use: `block[0 .. n-1]`. -/
structure LogHeader where
  block : List (BitVec 32)
  cap : block.length ≤ LOGSIZE

namespace LogHeader

def n (lh : LogHeader) : Nat := lh.block.length

def empty : LogHeader := ⟨[], Nat.zero_le _⟩

@[simp] theorem empty_block : empty.block = [] := rfl

@[simp] theorem empty_n : empty.n = 0 := rfl

theorem eq_empty {lh : LogHeader} (h : lh.n = 0) : lh = empty := by
  obtain ⟨block, cap⟩ := lh
  obtain rfl : block = [] := List.length_eq_zero_iff.mp h
  rfl

end LogHeader

/-- `lh->n` of a header block, a signed `int`. -/
def headN (b : Block) : Int := (b.load Codec.u32 0).toInt

/-- `lh->block[0 .. k-1]` of a header block. -/
def headBlocks (b : Block) (k : Nat) : List (BitVec 32) := b.loadList Codec.u32 4 k

/-- The header block `b` after `write_head` has stored `n` and the first `n` numbers. -/
def putHead (lh : LogHeader) (b : Block) : Block :=
  (b.store Codec.u32 0 (BitVec.ofNat 32 lh.n)).storeList Codec.u32 4 lh.block

structure LogMem where
  start : Nat
  size : Nat
  lh : LogHeader
  buf : Nat → Block
  disk : Nat → Block
  writes : List (Nat × Block)

/-- The blocks of the on-disk log: the header and `size - 1` data blocks. -/
def LogMem.InLog (m : LogMem) (b : Nat) : Prop := m.start ≤ b ∧ b < m.start + m.size

instance (m : LogMem) (b : Nat) : Decidable (m.InLog b) := by unfold LogMem.InLog; infer_instance

/-- Block `b` is written, through the cache to the disk. -/
def LogMem.put (m : LogMem) (b : Nat) (v : Block) : LogMem :=
  { m with
    buf := Function.update m.buf b v
    disk := Function.update m.disk b v
    writes := m.writes ++ [(b, v)] }

namespace LogMem

variable (m : LogMem) (b : Nat) (v : Block)

@[simp] theorem put_start : (m.put b v).start = m.start := rfl

@[simp] theorem put_size : (m.put b v).size = m.size := rfl

@[simp] theorem put_lh : (m.put b v).lh = m.lh := rfl

@[simp] theorem put_buf : (m.put b v).buf = Function.update m.buf b v := rfl

@[simp] theorem put_disk : (m.put b v).disk = Function.update m.disk b v := rfl

@[simp] theorem put_writes : (m.put b v).writes = m.writes ++ [(b, v)] := rfl

end LogMem

section Programs

variable {π : Type}

def mem : Prog π LogMem Unit LogMem := .step () fun _ m => .done m m

def setLh (lh : LogHeader) : Prog π LogMem Unit Unit := .step () fun _ m => .done () { m with lh }

def bread (b : Nat) : Prog π LogMem Unit Block := .step () fun _ m => .done (m.buf b) m

def bwrite (b : Nat) (v : Block) : Prog π LogMem Unit Unit :=
  .step () fun _ m => .done () (m.put b v)

/-- An index past the end of an array: the source has no defined behaviour there. -/
def outOfBounds {α : Type} : Prog π LogMem Unit α := .step () fun _ _ => .fault

/-- `for (tail = ...; tail < log.lh.n; tail++)`. The array has `LOGSIZE` entries, so a
round with `tail ≥ LOGSIZE` would index past its end. -/
def forTail (body : Nat → BitVec 32 → Prog π LogMem Unit Unit) :
    Nat → Nat → Prog π LogMem Unit Unit
  | 0, _ => outOfBounds
  | fuel + 1, tail => do
    let m ← mem
    match m.lh.block[tail]? with
    | none => pure ()
    | some b =>
      body tail b
      forTail body fuel (tail + 1)

def installTrans : Prog π LogMem Unit Unit :=
  forTail (fun tail b => do
    let m ← mem
    let lbuf ← bread (m.start + tail + 1)
    let _dbuf ← bread b.toNat
    bwrite b.toNat lbuf) (LOGSIZE + 1) 0

def readHead : Prog π LogMem Unit Unit := do
  let m ← mem
  let b ← bread m.start
  if h : (headN b).toNat ≤ LOGSIZE then
    setLh ⟨headBlocks b (headN b).toNat, by simpa [headBlocks] using h⟩
  else
    outOfBounds

def writeHead : Prog π LogMem Unit Unit := do
  let m ← mem
  let b ← bread m.start
  bwrite m.start (putHead m.lh b)

def recoverFromLog : Prog π LogMem Unit Unit := do
  readHead
  installTrans
  setLh .empty
  writeHead

def writeLog : Prog π LogMem Unit Unit :=
  forTail (fun tail b => do
    let m ← mem
    let _to ← bread (m.start + tail + 1)
    let frm ← bread b.toNat
    bwrite (m.start + tail + 1) frm) (LOGSIZE + 1) 0

def commit : Prog π LogMem Unit Unit := do
  let m ← mem
  if 0 < m.lh.n then
    writeLog
    writeHead
    installTrans
    setLh .empty
    writeHead

end Programs

/-! ## Reading a header back -/

theorem headN_putHead (lh : LogHeader) (b : Block) : headN (putHead lh b) = lh.n := by
  have hcap := lh.cap
  unfold headN putHead
  rw [Bytes.load_storeList_before _ _ _ _ (by decide), Bytes.load_store_same _ _ _ (by decide)]
  rw [BitVec.toInt_eq_toNat_of_lt]
  · simp only [BitVec.toNat_ofNat, Int.natCast_inj]
    apply Nat.mod_eq_of_lt
    simp only [LogHeader.n, LOGSIZE, MAXOPBLOCKS] at hcap ⊢
    omega
  · simp only [BitVec.toNat_ofNat, LogHeader.n, LOGSIZE, MAXOPBLOCKS] at hcap ⊢
    omega

theorem headBlocks_putHead (lh : LogHeader) (b : Block) :
    headBlocks (putHead lh b) lh.n = lh.block := by
  apply Bytes.loadList_storeList
  have hcap := lh.cap
  have h4 : Codec.u32.size = 4 := rfl
  rw [h4]
  simp only [BSIZE, LOGSIZE, MAXOPBLOCKS] at hcap ⊢
  omega

end Xv6.Log
