import Xv6.Param

/-!
# The on-disk format

The structures of `fs.h` as they lie in the blocks of the disk: the superblock, the inodes
of the inode blocks, the bits of the free map and the entries of directories. A store into
one of them reads back, and leaves the others alone.
-/

namespace Xv6.Fs

open Lib

/-- The contents of the blocks of the one disk, as the buffer cache shows them. -/
abbrev Disk := Nat → Block

def T_DIR : BitVec 16 := 1
def T_FILE : BitVec 16 := 2
def T_DEV : BitVec 16 := 3

/-! ## The superblock -/

/-- `struct superblock`. -/
structure Superblock where
  size : BitVec 32
  nblocks : BitVec 32
  ninodes : BitVec 32
  nlog : BitVec 32
  logstart : BitVec 32
  inodestart : BitVec 32
  bmapstart : BitVec 32
deriving DecidableEq

def Superblock.codec : Codec Superblock :=
  (Codec.u32.pair <| Codec.u32.pair <| Codec.u32.pair <| Codec.u32.pair <| Codec.u32.pair <|
    Codec.u32.pair Codec.u32).map
    (fun x => ⟨x.1, x.2.1, x.2.2.1, x.2.2.2.1, x.2.2.2.2.1, x.2.2.2.2.2.1, x.2.2.2.2.2.2⟩)
    (fun s => (s.size, s.nblocks, s.ninodes, s.nlog, s.logstart, s.inodestart, s.bmapstart))
    (fun _ => rfl)

def readsb (d : Disk) : Superblock := (d 1).load Superblock.codec 0

/-- The first data block: the data blocks are the last `nblocks` ones. -/
def Superblock.firstData (sb : Superblock) : Nat := sb.size.toNat - sb.nblocks.toNat

def IPB : Nat := BSIZE / 64

/-- The block that holds inode `i`. -/
def IBLOCK (i : Nat) (sb : Superblock) : Nat := i / IPB + sb.inodestart.toNat

/-- The block of the free map that holds the bit of block `b`. -/
def BBLOCK (b : Nat) (sb : Superblock) : Nat := b / BPB + sb.bmapstart.toNat

/-- The superblock, the inode blocks, the free map and the data blocks follow each other on
the disk, and inode numbers fit into a directory entry. -/
structure Superblock.Ok (sb : Superblock) : Prop where
  super : 1 < sb.inodestart.toNat
  inodes : ∀ i < sb.ninodes.toNat, IBLOCK i sb < sb.bmapstart.toNat
  bitmap : ∀ b < sb.size.toNat, BBLOCK b sb < sb.firstData
  data : sb.firstData ≤ sb.size.toNat
  root : ROOTINO < sb.ninodes.toNat
  inums : sb.ninodes.toNat ≤ 2 ^ 16

/-! ## Inodes -/

/-- `struct dinode`. -/
structure Dinode where
  type : BitVec 16
  major : BitVec 16
  minor : BitVec 16
  nlink : BitVec 16
  size : BitVec 32
  addrs : Fin (NDIRECT + 1) → BitVec 32
deriving DecidableEq

def Dinode.codec : Codec Dinode :=
  (Codec.u16.pair <| Codec.u16.pair <| Codec.u16.pair <| Codec.u16.pair <| Codec.u32.pair <|
    Codec.u32.array (NDIRECT + 1)).map
    (fun x => ⟨x.1, x.2.1, x.2.2.1, x.2.2.2.1, x.2.2.2.2.1, x.2.2.2.2.2⟩)
    (fun d => (d.type, d.major, d.minor, d.nlink, d.size, d.addrs))
    (fun _ => rfl)

/-- All fields zero, as `memset` leaves them. -/
def Dinode.zero : Dinode := ⟨0, 0, 0, 0, 0, fun _ => 0⟩

/-- The inode `i` on the disk. -/
def dinode (sb : Superblock) (d : Disk) (i : Nat) : Dinode :=
  (d (IBLOCK i sb)).load Dinode.codec (i % IPB * 64)

/-- Write inode `i` into its block. -/
def putDinode (sb : Superblock) (d : Disk) (i : Nat) (ip : Dinode) : Disk :=
  Function.update d (IBLOCK i sb) ((d (IBLOCK i sb)).store Dinode.codec (i % IPB * 64) ip)

@[simp] theorem Dinode.size_codec : Dinode.codec.size = 64 := rfl

theorem IPB_eq : IPB = 8 := rfl

theorem dinode_putDinode (sb : Superblock) (d : Disk) (i j : Nat) (ip : Dinode) :
    dinode sb (putDinode sb d i ip) j = if j = i then ip else dinode sb d j := by
  unfold dinode putDinode
  by_cases hb : IBLOCK j sb = IBLOCK i sb
  · rw [hb, Function.update_self]
    simp only [IBLOCK, IPB_eq] at hb ⊢
    split
    · next hij =>
      subst hij
      exact Bytes.load_store_same _ _ _ (by simp [BSIZE]; omega)
    · next hij =>
      -- same block, other place
      apply Bytes.load_store_disjoint
      simp only [Dinode.size_codec]
      omega
  · have hij : j ≠ i := fun h => hb (h ▸ rfl)
    rw [Function.update_of_ne hb, if_neg hij]

variable {sb : Superblock} {d : Disk} {i b : Nat}

theorem putDinode_of_ne {ip : Dinode} (h : b ≠ IBLOCK i sb) : putDinode sb d i ip b = d b := by
  unfold putDinode
  exact Function.update_of_ne h _ _

variable {d' : Disk}

theorem dinode_congr (h : d' (IBLOCK i sb) = d (IBLOCK i sb)) : dinode sb d' i = dinode sb d i := by
  unfold dinode
  rw [h]

/-! ## Directory entries -/

/-- A file name as the file system compares it: `DIRSIZ` bytes. -/
abbrev Name := { l : List UInt8 // l.length = DIRSIZ }

/-- `struct dirent`. -/
structure Dirent where
  inum : BitVec 16
  name : Name
deriving DecidableEq

def Dirent.codec : Codec Dirent :=
  (Codec.u16.pair (Codec.raw DIRSIZ)).map (fun x => ⟨x.1, x.2⟩) (fun e => (e.inum, e.name))
    (fun _ => rfl)

/-! ## The free map -/

/-- Bit `k` of a block. -/
def getBit (b : Block) (k : Nat) : Bool := (b.get (k / 8)).toBitVec.getLsbD (k % 8)

/-- Set or clear bit `k` of a block. -/
def putBit (b : Block) (k : Nat) (v : Bool) : Block :=
  b.splice (k / 8) [UInt8.ofBitVec
    (if v then (b.get (k / 8)).toBitVec ||| BitVec.twoPow 8 (k % 8)
     else (b.get (k / 8)).toBitVec &&& ~~~BitVec.twoPow 8 (k % 8))]

/-- The bit of block `b` in the free map. -/
def bit (sb : Superblock) (d : Disk) (b : Nat) : Bool := getBit (d (BBLOCK b sb)) (b % BPB)

def putMapBit (sb : Superblock) (d : Disk) (b : Nat) (v : Bool) : Disk :=
  Function.update d (BBLOCK b sb) (putBit (d (BBLOCK b sb)) (b % BPB) v)

theorem getBit_putBit {b : Block} {k k' : Nat} (v : Bool) (hk : k < BPB) (hk' : k' < BPB) :
    getBit (putBit b k v) k' = if k' = k then v else getBit b k' := by
  have h8 : BPB = 8 * BSIZE := rfl
  unfold getBit putBit
  by_cases hb : k' / 8 = k / 8
  · rw [hb, Bytes.get_splice_of_mem b (by omega) (le_refl _) (by simp)]
    have hlt : k' % 8 < 8 := Nat.mod_lt _ (by omega)
    simp only [Nat.sub_self, List.getElem_cons_zero]
    by_cases hkk : k' = k
    · subst hkk
      cases v <;> simp [hlt]
    · have hne : k' % 8 ≠ k % 8 := by omega
      cases v <;> simp [hkk, hne, hlt]
  · have hkk : k' ≠ k := fun h => hb (h ▸ rfl)
    rw [Bytes.get_splice_of_not_mem b (by simp; omega), if_neg hkk]

theorem bit_putMapBit (sb : Superblock) (d : Disk) (b b' : Nat) (v : Bool) :
    bit sb (putMapBit sb d b v) b' = if b' = b then v else bit sb d b' := by
  have hpos : 0 < BPB := by decide
  have hdiv := Nat.div_add_mod b BPB
  have hdiv' := Nat.div_add_mod b' BPB
  unfold bit putMapBit
  by_cases hb : BBLOCK b' sb = BBLOCK b sb
  · rw [hb, Function.update_self, getBit_putBit v (Nat.mod_lt _ hpos) (Nat.mod_lt _ hpos)]
    have hq : b' / BPB = b / BPB := by
      unfold BBLOCK at hb
      omega
    by_cases hbb : b' = b
    · simp [hbb]
    · have hm : b' % BPB ≠ b % BPB := by
        intro hm
        rw [hq, hm] at hdiv'
        omega
      rw [if_neg hm, if_neg hbb]
  · have hbb : b' ≠ b := fun h => hb (h ▸ rfl)
    rw [Function.update_of_ne hb, if_neg hbb]

theorem putMapBit_of_ne {c : Nat} {v : Bool} (h : c ≠ BBLOCK b sb) :
    putMapBit sb d b v c = d c := by
  unfold putMapBit
  exact Function.update_of_ne h _ _

theorem bit_congr (h : d' (BBLOCK b sb) = d (BBLOCK b sb)) : bit sb d' b = bit sb d b := by
  unfold bit
  rw [h]

/-! ## Indirect blocks -/

/-- `a[j]`, where `a` is the contents of an indirect block. -/
def entry (b : Block) (j : Nat) : Nat := (b.load Codec.u32 (4 * j)).toNat

def setEntry (b : Block) (j a : Nat) : Block := b.store Codec.u32 (4 * j) (BitVec.ofNat 32 a)

theorem entry_setEntry {b : Block} {j j' a : Nat} (hj : j < NINDIRECT) (ha : a < 2 ^ 32) :
    entry (setEntry b j a) j' = if j' = j then a else entry b j' := by
  have h4 : Codec.u32.size = 4 := rfl
  have hn : NINDIRECT = 128 := rfl
  unfold entry setEntry
  split
  · next h =>
    subst h
    rw [Bytes.load_store_same _ _ _ (by rw [h4]; unfold BSIZE; omega)]
    exact BitVec.toNat_ofNat a 32 ▸ Nat.mod_eq_of_lt ha
  · next h => rw [Bytes.load_store_disjoint _ _ _ _ (by omega)]

@[simp] theorem entry_zero (j : Nat) : entry Bytes.zero j = 0 := by
  unfold entry Bytes.load
  rw [Bytes.slice_zero]
  rfl

end Xv6.Fs
