import Xv6.Fs.Layout

/-!
# Blocks and the contents of one inode

`balloc`, `bfree`, `bmap`, `itrunc`, `readi`, `writei` and the loops over directory entries:
the code that runs under the lock of one inode. It works on the blocks of the disk and on the
locked inode `ip`; a panic ends it. Two records are not in the source: `given`, every block that
`balloc` has handed out, with the disk and the inode as they were before, and `logged`, every block
number that was passed to `log_write`.

The superblock is the one that `iinit` has read into `sb`. Only `bfree` reads it again.
-/

namespace Xv6.Fs

open Lib

/-- A block that `balloc` handed out, from this disk, to a call on this inode. -/
structure Given where
  disk : Disk
  ip : Dinode
  block : Nat

structure InodeSt where
  disk : Disk
  ip : Dinode
  given : List Given
  logged : List Nat

abbrev FsM (α : Type) := StateT InodeSt (Except String) α

def halt {α : Type} (msg : String) : FsM α := fun _ => .error msg

/-! ## Blocks -/

def bzero (d : Disk) (b : Nat) : Disk := Function.update d b Bytes.zero

/-- The first block whose bit in the free map is clear: the two loops of `balloc` run through
the block numbers in order. -/
def firstFree (sb : Superblock) (d : Disk) : Option Nat :=
  (List.range sb.size.toNat).find? fun b => !bit sb d b

/-- `balloc`: allocate a zeroed disk block. -/
def balloc (sb : Superblock) : FsM Nat := fun s =>
  match firstFree sb s.disk with
  | some b => .ok (b, { s with
      disk := bzero (putMapBit sb s.disk b true) b
      given := ⟨s.disk, s.ip, b⟩ :: s.given
      logged := b :: BBLOCK b sb :: s.logged })
  | none => .error "balloc: out of blocks"

/-- `bfree`: free a disk block. -/
def bfree (b : Nat) : FsM Unit := fun s =>
  let sb := readsb s.disk
  if bit sb s.disk b then .ok ((), { s with
    disk := putMapBit sb s.disk b false
    logged := BBLOCK b sb :: s.logged })
  else .error "freeing free block"

/-! ## The blocks of an inode -/

/-- `ip->addrs[k]`. -/
def Dinode.addr (ip : Dinode) (k : Nat) : Nat :=
  if h : k < NDIRECT + 1 then (ip.addrs ⟨k, h⟩).toNat else 0

/-- `ip->addrs[k] = b`. -/
def Dinode.setAddr (ip : Dinode) (k b : Nat) : Dinode :=
  { ip with addrs := fun j => if j.val = k then BitVec.ofNat 32 b else ip.addrs j }

/-- `ip->addrs[k]`, allocated if it is zero. -/
def addrOrAlloc (sb : Superblock) (k : Nat) : FsM Nat := do
  let s ← get
  if s.ip.addr k = 0 then
    let b ← balloc sb
    modify fun s => { s with ip := s.ip.setAddr k b }
    return b
  else
    return s.ip.addr k

/-- `bmap`: the disk block of block `bn` of the inode, allocated if there is none. -/
def bmap (sb : Superblock) (bn : Nat) : FsM Nat := do
  if bn < NDIRECT then
    addrOrAlloc sb bn
  else if bn - NDIRECT < NINDIRECT then
    let ind ← addrOrAlloc sb NDIRECT
    let s ← get
    if entry (s.disk ind) (bn - NDIRECT) = 0 then
      let b ← balloc sb
      modify fun s => { s with
        disk := Function.update s.disk ind (setEntry (s.disk ind) (bn - NDIRECT) b)
        logged := ind :: s.logged }
      return b
    else
      return entry (s.disk ind) (bn - NDIRECT)
  else
    halt "bmap: out of range"

/-- `iupdate`: copy the inode to its place on the disk. -/
def iupdate (sb : Superblock) (i : Nat) : FsM Unit :=
  modify fun s => { s with
    disk := putDinode sb s.disk i s.ip
    logged := IBLOCK i sb :: s.logged }

/-- `itrunc` frees the direct block in `ip->addrs[k]`, if there is one. -/
def freeDirect (k : Nat) : FsM Unit := do
  let s ← get
  if s.ip.addr k = 0 then pure ()
  else do
    bfree (s.ip.addr k)
    modify fun s => { s with ip := s.ip.setAddr k 0 }

/-- `itrunc` frees the block in `a[j]` of the indirect block `ind`, if there is one. -/
def freeEntry (ind j : Nat) : FsM Unit := do
  let s ← get
  if entry (s.disk ind) j = 0 then pure () else bfree (entry (s.disk ind) j)

/-- The loops of `itrunc`. -/
def freeAll (f : Nat → FsM Unit) : List Nat → FsM Unit
  | [] => pure ()
  | k :: ks => do
    f k
    freeAll f ks

/-- The part of `itrunc` that frees the indirect block. -/
def freeIndirect : FsM Unit := do
  let s ← get
  if s.ip.addr NDIRECT = 0 then pure ()
  else do
    freeAll (freeEntry (s.ip.addr NDIRECT)) (List.range NINDIRECT)
    bfree (s.ip.addr NDIRECT)
    modify fun s => { s with ip := s.ip.setAddr NDIRECT 0 }

/-- `itrunc`: discard the contents of inode `i`. -/
def itrunc (sb : Superblock) (i : Nat) : FsM Unit := do
  freeAll freeDirect (List.range NDIRECT)
  freeIndirect
  modify fun s => { s with ip := { s.ip with size := 0 } }
  iupdate sb i

/-- The code of `iput` that frees inode `i`; the caller then clears `ip->valid`. -/
def ifree (sb : Superblock) (i : Nat) : FsM Unit := do
  itrunc sb i
  modify fun s => { s with ip := { s.ip with type := 0 } }
  iupdate sb i

/-! ## Reading and writing -/

/-- The loop of `readi`: `n` bytes from `off` on, a block at a time. Every pass reads at least
one byte, so `n` passes are enough. -/
def readLoop (sb : Superblock) : (passes : Nat) → (off n : Nat) → FsM (List UInt8)
  | 0, _, _ => pure []
  | passes + 1, off, n =>
    if n = 0 then pure []
    else do
      let b ← bmap sb (off / BSIZE)
      let s ← get
      let m := min n (BSIZE - off % BSIZE)
      let rest ← readLoop sb passes (off + m) (n - m)
      return (s.disk b).slice (off % BSIZE) m ++ rest

/-- `readi`, for an inode that is not a device; `none` is the answer -1. -/
def readi (sb : Superblock) (off n : Nat) : FsM (Option (List UInt8)) := do
  let s ← get
  let size := s.ip.size.toNat
  if size < off ∨ (off + n) % 2 ^ 32 < off then return none
  else
    let n := if size < off + n then size - off else n
    let l ← readLoop sb n off n
    return some l

/-- The loop of `writei`. -/
def writeLoop (sb : Superblock) : (passes : Nat) → (off : Nat) → (src : List UInt8) → FsM Unit
  | 0, _, _ => pure ()
  | passes + 1, off, src =>
    if src.length = 0 then pure ()
    else do
      let b ← bmap sb (off / BSIZE)
      let m := min src.length (BSIZE - off % BSIZE)
      modify fun s => { s with
        disk := Function.update s.disk b ((s.disk b).splice (off % BSIZE) (src.take m))
        logged := b :: s.logged }
      writeLoop sb passes (off + m) (src.drop m)

/-- `writei` has written `n` bytes, up to `last`: the inode grows if that is behind its end. -/
def growSize (sb : Superblock) (i n last : Nat) : FsM Unit := do
  let s ← get
  if 0 < n ∧ s.ip.size.toNat < last then do
    modify fun s => { s with ip := { s.ip with size := BitVec.ofNat 32 last } }
    iupdate sb i
  else pure ()

/-- `writei` to inode `i`, which is not a device; `none` is the answer -1. -/
def writei (sb : Superblock) (i off : Nat) (src : List UInt8) : FsM (Option Nat) := do
  let s ← get
  if s.ip.size.toNat < off ∨ (off + src.length) % 2 ^ 32 < off then return none
  else if MAXFILE * BSIZE < off + src.length then return none
  else do
    writeLoop sb src.length off src
    growSize sb i src.length (off + src.length)
    return some src.length

/-! ## Directories -/

/-- The part of a name that is compared: the bytes before the first zero. -/
def Name.text (n : Name) : List UInt8 := n.1.takeWhile (· ≠ 0)

/-- `namecmp(s, t) == 0`. -/
def namecmp (s t : Name) : Bool := s.text = t.text

/-- Read the directory entry at `off`, or panic. -/
def readDirent (sb : Superblock) (off : Nat) (msg : String) : FsM Dirent := do
  match ← readi sb off 16 with
  | some l => if l.length = 16 then return Dirent.codec.dec l else halt msg
  | none => halt msg

/-- Run through the entries of a directory from entry `k` on, as long as they start below its
size, and answer the offset of the first one that is wanted. -/
def scan (sb : Superblock) (msg : String) (want : Dirent → Bool) :
    (entries k : Nat) → FsM (Option (Nat × Dirent))
  | 0, _ => pure none
  | entries + 1, k => do
    let s ← get
    if 16 * k < s.ip.size.toNat then
      let de ← readDirent sb (16 * k) msg
      if want de then return some (16 * k, de) else scan sb msg want entries (k + 1)
    else return none

def entriesOf (ip : Dinode) : Nat := ip.size.toNat / 16 + 1

/-- The loop of `dirlookup`: the number and the offset of the entry with a name. -/
def lookup (sb : Superblock) (name : Name) : FsM (Option (Nat × Nat)) := do
  let s ← get
  if s.ip.type ≠ T_DIR then halt "dirlookup not DIR"
  else
    let r ← scan sb "dirlookup read" (fun de => de.inum ≠ 0 && namecmp name de.name)
      (entriesOf s.ip) 0
    return r.map fun x => (x.2.inum.toNat, x.1)

/-- Where the loop of `dirlink` stops: at the entry it has found, or at the end. -/
def freePlace (ip : Dinode) : Option (Nat × Dirent) → Nat
  | some (off, _) => off
  | none => 16 * ((ip.size.toNat + 15) / 16)

/-- The second half of `dirlink`: write the entry into the first free place of directory `i`. -/
def addEntry (sb : Superblock) (i : Nat) (name : Name) (inum : Nat) : FsM Unit := do
  let s ← get
  let r ← scan sb "dirlink read" (fun de => de.inum = 0) (entriesOf s.ip) 0
  match ← writei sb i (freePlace s.ip r) (Dirent.codec.enc ⟨BitVec.ofNat 16 inum, name⟩) with
  | some _ => return ()
  | none => halt "dirlink"

def isdirempty (sb : Superblock) : FsM Bool := do
  let s ← get
  let r ← scan sb "isdirempty: readi" (fun de => de.inum ≠ 0) (entriesOf s.ip) 2
  return r.isNone

/-- `sys_unlink` overwrites the entry at `off` of directory `i` with zeros. -/
def eraseEntry (sb : Superblock) (i off : Nat) : FsM Unit := do
  match ← writei sb i off (List.replicate 16 0) with
  | some _ => return ()
  | none => halt "unlink: writei"

end Xv6.Fs
