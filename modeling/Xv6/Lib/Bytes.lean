import Mathlib.Data.BitVec
import Mathlib.Tactic.Ring

/-!
# Byte arrays and the records stored in them

A byte array of fixed length, read and written by ranges, and codecs: values written as a
fixed number of bytes and read back. A record stored at an offset is read back unchanged,
and storing it changes no record that lies outside its bytes.
-/

namespace Xv6.Lib

/-- An array of `n` bytes. -/
def Bytes (n : Nat) := Fin n → UInt8

variable {off off' : Nat}

namespace Bytes

variable {n : Nat}

/-- The byte at `i`, and 0 past the end. -/
def get (b : Bytes n) (i : Nat) : UInt8 := if h : i < n then b ⟨i, h⟩ else 0

/-- The `len` bytes from `off` on. -/
def slice (b : Bytes n) (off len : Nat) : List UInt8 :=
  (List.range len).map fun i => b.get (off + i)

/-- Overwrite the bytes from `off` on with a list, as far as both reach. -/
def splice (b : Bytes n) (off : Nat) (l : List UInt8) : Bytes n := fun i =>
  if off ≤ i.val then (l[i.val - off]?).getD (b i) else b i

def zero : Bytes n := fun _ => 0

@[simp] theorem get_zero (i : Nat) : (zero : Bytes n).get i = 0 := by
  simp [get, zero]

@[simp] theorem length_slice (b : Bytes n) (off len : Nat) : (b.slice off len).length = len := by
  simp [slice]

variable {len i : Nat}

theorem getElem?_slice (b : Bytes n) (h : i < len) :
    (b.slice off len)[i]? = some (b.get (off + i)) := by
  simp [slice, h]

variable {l : List UInt8}

theorem get_splice_of_mem (b : Bytes n) (hn : i < n) (ho : off ≤ i) (hi : i < off + l.length) :
    (b.splice off l).get i = l[i - off] := by
  simp only [get, hn, dif_pos, splice, ho, if_pos]
  rw [List.getElem?_eq_getElem (by omega)]
  rfl

theorem get_splice_of_not_mem (b : Bytes n) (h : i < off ∨ off + l.length ≤ i) :
    (b.splice off l).get i = b.get i := by
  unfold get splice
  split
  · dsimp only
    split
    · rw [List.getElem?_eq_none (by omega)]
      rfl
    · rfl
  · rfl

theorem slice_splice_same (b : Bytes n) (h : off + l.length ≤ n) :
    (b.splice off l).slice off l.length = l := by
  apply List.ext_getElem?
  intro i
  by_cases hi : i < l.length
  · rw [getElem?_slice _ hi, List.getElem?_eq_getElem hi,
      get_splice_of_mem b (by omega) (by omega) (by omega)]
    simp
  · rw [List.getElem?_eq_none (by simpa using hi), List.getElem?_eq_none (by omega)]

theorem slice_splice_disjoint (b : Bytes n) (h : off' + len ≤ off ∨ off + l.length ≤ off') :
    (b.splice off l).slice off' len = b.slice off' len := by
  unfold slice
  apply List.map_congr_left
  intro i hi
  have hi' : i < len := by simpa using hi
  exact get_splice_of_not_mem b (by omega)

theorem slice_zero (off len : Nat) : (zero : Bytes n).slice off len = List.replicate len 0 := by
  simp [slice, List.map_const']

end Bytes

/-! ## Little-endian numbers -/

def leBytes : Nat → Nat → List UInt8
  | 0, _ => []
  | k + 1, v => UInt8.ofNat v :: leBytes k (v / 256)

def leVal : List UInt8 → Nat
  | [] => 0
  | b :: bs => b.toNat + 256 * leVal bs

@[simp] theorem length_leBytes (k v : Nat) : (leBytes k v).length = k := by
  induction k generalizing v with
  | zero => rfl
  | succ k ih => simp [leBytes, ih]

theorem leVal_leBytes (k v : Nat) : leVal (leBytes k v) = v % 256 ^ k := by
  induction k generalizing v with
  | zero => simp [leBytes, leVal, Nat.mod_one]
  | succ k ih =>
    have hb : (UInt8.ofNat v).toNat = v % 256 := by simp
    rw [leBytes, leVal, ih, hb, Nat.pow_succ, Nat.mul_comm (256 ^ k) 256, Nat.mod_mul]

/-! ## Codecs -/

structure Codec (α : Type) where
  size : Nat
  enc : α → List UInt8
  dec : List UInt8 → α
  length_enc : ∀ a, (enc a).length = size
  dec_enc : ∀ a, dec (enc a) = a

attribute [simp] Codec.length_enc Codec.dec_enc

namespace Codec

variable {α β : Type}

/-- Machine words of `k` bytes. -/
def word (k : Nat) : Codec (BitVec (8 * k)) where
  size := k
  enc v := leBytes k v.toNat
  dec l := BitVec.ofNat _ (leVal l)
  length_enc _ := length_leBytes _ _
  dec_enc v := by
    apply BitVec.eq_of_toNat_eq
    rw [leVal_leBytes, BitVec.toNat_ofNat]
    have h : (2 : Nat) ^ (8 * k) = 256 ^ k := by rw [Nat.pow_mul]
    rw [h, Nat.mod_mod, Nat.mod_eq_of_lt (h ▸ v.isLt)]

def u16 : Codec (BitVec 16) := word 2

def u32 : Codec (BitVec 32) := word 4

def pair (c : Codec α) (d : Codec β) : Codec (α × β) where
  size := c.size + d.size
  enc x := c.enc x.1 ++ d.enc x.2
  dec l := (c.dec (l.take c.size), d.dec (l.drop c.size))
  length_enc x := by simp
  dec_enc x := by
    have h1 : (c.enc x.1 ++ d.enc x.2).take c.size = c.enc x.1 := by
      rw [← c.length_enc x.1, List.take_left]
    have h2 : (c.enc x.1 ++ d.enc x.2).drop c.size = d.enc x.2 := by
      rw [← c.length_enc x.1, List.drop_left]
    simp [h1, h2]

def raw (k : Nat) : Codec { l : List UInt8 // l.length = k } where
  size := k
  enc l := l.1
  dec l := ⟨(l ++ List.replicate k 0).take k, by simp⟩
  length_enc l := l.2
  dec_enc l := by
    apply Subtype.ext
    simp [← l.2]

/-- `k` values one after the other. -/
def array (c : Codec α) : (k : Nat) → Codec (Fin k → α)
  | 0 => ⟨0, fun _ => [], fun _ i => i.elim0, fun _ => rfl, fun _ => funext fun i => i.elim0⟩
  | k + 1 =>
    let r := pair c (array c k)
    { size := r.size
      enc := fun f => r.enc (f 0, fun i => f i.succ)
      dec := fun l => Fin.cons (r.dec l).1 (r.dec l).2
      length_enc := fun f => r.length_enc _
      dec_enc := fun f => by
        rw [r.dec_enc]
        exact Fin.cons_self_tail f }

def map (c : Codec α) (f : α → β) (g : β → α) (h : ∀ b, f (g b) = b) : Codec β where
  size := c.size
  enc b := c.enc (g b)
  dec l := f (c.dec l)
  length_enc _ := c.length_enc _
  dec_enc b := by rw [c.dec_enc, h]

end Codec

namespace Bytes

variable {n : Nat} {α β : Type}

/-- The record at `off`. -/
def load (c : Codec α) (b : Bytes n) (off : Nat) : α := c.dec (b.slice off c.size)

/-- Write a record at `off`. -/
def store (c : Codec α) (b : Bytes n) (off : Nat) (a : α) : Bytes n := b.splice off (c.enc a)

theorem load_store_same (c : Codec α) (b : Bytes n) (a : α) (h : off + c.size ≤ n) :
    (b.store c off a).load c off = a := by
  have hl : off + (c.enc a).length ≤ n := by simpa using h
  have hs := slice_splice_same b hl
  rw [c.length_enc] at hs
  rw [load, store, hs, c.dec_enc]

theorem load_store_disjoint (c : Codec α) (d : Codec β) (b : Bytes n) (a : α)
    (h : off' + d.size ≤ off ∨ off + c.size ≤ off') :
    (b.store c off a).load d off' = b.load d off' := by
  rw [load, store, slice_splice_disjoint b (by simpa using h)]
  rfl

/-- Records of one kind, one after the other from `off` on. -/
def storeList (c : Codec α) (b : Bytes n) (off : Nat) : List α → Bytes n
  | [] => b
  | a :: as => (b.store c off a).storeList c (off + c.size) as

def loadList (c : Codec α) (b : Bytes n) (off : Nat) : Nat → List α
  | 0 => []
  | k + 1 => b.load c off :: b.loadList c (off + c.size) k

@[simp] theorem length_loadList (c : Codec α) (b : Bytes n) (off k : Nat) :
    (b.loadList c off k).length = k := by
  induction k generalizing off with
  | zero => rfl
  | succ k ih => simp [loadList, ih]

theorem load_storeList_before (c : Codec α) (d : Codec β) (b : Bytes n) (as : List α)
    (h : off' + d.size ≤ off) : (b.storeList c off as).load d off' = b.load d off' := by
  induction as generalizing b off with
  | nil => rfl
  | cons a as ih =>
    rw [storeList, ih _ (by omega), load_store_disjoint _ _ _ _ (Or.inl h)]

theorem loadList_storeList (c : Codec α) (b : Bytes n) (as : List α)
    (h : off + as.length * c.size ≤ n) : (b.storeList c off as).loadList c off as.length = as := by
  induction as generalizing b off with
  | nil => rfl
  | cons a as ih =>
    have hlen : (as.length + 1) * c.size = as.length * c.size + c.size := by ring
    rw [List.length_cons, hlen] at h
    simp only [storeList, List.length_cons, loadList]
    rw [load_storeList_before _ _ _ _ (le_refl _), load_store_same _ _ _ (by omega),
      ih _ (by omega)]

end Bytes

end Xv6.Lib
