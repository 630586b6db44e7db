import Mathlib.Data.Nat.ModEq

/-!
# Ring buffers with free-running counters

A ring of `m` cells with the numbers of elements read and written so far, as machine words of `w`
bits that wrap around. The cell of an element is its number modulo `m`. As long as `m` divides
`2 ^ w`, the wrap-around does no harm: the number of elements in the ring is the difference of the
counters, and the elements leave it in the order in which they came.
-/

namespace Xv6.Lib

variable {α : Type} {m w : Nat} [NeZero m]

structure Fifo (α : Type) (m w : Nat) where
  data : Fin m → α
  nread : BitVec w
  nwrite : BitVec w

namespace Fifo

def index (n : BitVec w) : Fin m := Fin.ofNat m n.toNat

def count (q : Fifo α m w) : Nat := (q.nwrite - q.nread).toNat

def contents (q : Fifo α m w) : List α :=
  (List.range q.count).map fun j => q.data (index (q.nread + BitVec.ofNat w j))

def push (q : Fifo α m w) (a : α) : Fifo α m w :=
  { q with data := Function.update q.data (index q.nwrite) a, nwrite := q.nwrite + 1 }

def front (q : Fifo α m w) : α := q.data (index q.nread)

def pop (q : Fifo α m w) : Fifo α m w := { q with nread := q.nread + 1 }

variable {q : Fifo α m w}

section
omit [NeZero m]

@[simp] theorem count_eq_zero : q.count = 0 ↔ q.nread = q.nwrite := by
  unfold count
  constructor
  · intro h
    have h' : q.nwrite - q.nread = 0#w := BitVec.eq_of_toNat_eq (by simpa using h)
    rw [← BitVec.sub_add_cancel q.nwrite q.nread, h', BitVec.zero_add]
  · intro h
    rw [h]
    simp

theorem count_eq_iff (hm : m < 2 ^ w) : q.count = m ↔ q.nwrite = q.nread + BitVec.ofNat w m := by
  unfold count
  constructor
  · intro h
    have h' : q.nwrite - q.nread = BitVec.ofNat w m :=
      BitVec.eq_of_toNat_eq (by rw [h, BitVec.toNat_ofNat, Nat.mod_eq_of_lt hm])
    rw [← h', BitVec.add_comm, BitVec.sub_add_cancel]
  · intro h
    rw [h, BitVec.add_comm, BitVec.add_sub_cancel, BitVec.toNat_ofNat, Nat.mod_eq_of_lt hm]

theorem nwrite_eq (q : Fifo α m w) : q.nwrite = q.nread + BitVec.ofNat w q.count := by
  unfold count
  rw [BitVec.ofNat_toNat, BitVec.setWidth_eq, BitVec.add_comm, BitVec.sub_add_cancel]

end

theorem index_add (hm : m ∣ 2 ^ w) (n : BitVec w) (j : Nat) :
    (index (n + BitVec.ofNat w j) : Fin m) = Fin.ofNat m (n.toNat + j) := by
  unfold index
  apply Fin.ext
  simp only [Fin.val_ofNat, BitVec.toNat_add, BitVec.toNat_ofNat, Nat.add_mod_mod]
  exact Nat.mod_mod_of_dvd _ hm

theorem index_ne (hm : m ∣ 2 ^ w) (n : BitVec w) {i j : Nat} (hij : i < j) (hj : j - i < m) :
    (index (n + BitVec.ofNat w i) : Fin m) ≠ index (n + BitVec.ofNat w j) := by
  rw [index_add hm, index_add hm]
  intro h
  have h' : n.toNat + i ≡ n.toNat + j [MOD m] := congrArg Fin.val h
  have hdvd : m ∣ j - i := by
    have := (Nat.modEq_iff_dvd' (Nat.add_le_add_left hij.le _)).1 h'
    rwa [Nat.add_sub_add_left] at this
  exact absurd (Nat.le_of_dvd (Nat.sub_pos_of_lt hij) hdvd) (Nat.not_le.2 hj)

omit [NeZero m] in
theorem count_succ {x y : BitVec w} (h : x + 1 = y) (hx : x.toNat + 1 < 2 ^ w ∨ 0 < y.toNat) :
    x.toNat + 1 = y.toNat := by
  have he : y.toNat = (x.toNat + 1) % 2 ^ w := by
    rw [← h]
    simp [BitVec.toNat_add]
  by_cases hlt : x.toNat + 1 < 2 ^ w
  · rw [he, Nat.mod_eq_of_lt hlt]
  · have hx' : x.toNat + 1 = 2 ^ w := by
      have := x.isLt
      omega
    rw [hx', Nat.mod_self] at he
    omega

theorem count_push (hw : m < 2 ^ w) (h : q.count < m) (a : α) : (q.push a).count = q.count + 1 := by
  have he : q.nwrite - q.nread + 1 = q.nwrite + 1 - q.nread := by
    rw [BitVec.sub_eq_add_neg, BitVec.sub_eq_add_neg]
    ac_rfl
  exact (count_succ he (.inl (Nat.lt_of_le_of_lt h hw))).symm

theorem contents_push (hm : m ∣ 2 ^ w) (hw : m < 2 ^ w) (h : q.count < m) (a : α) :
    (q.push a).contents = q.contents ++ [a] := by
  unfold contents
  rw [count_push hw h, List.range_succ, List.map_append, List.map_singleton]
  congr 1
  · refine List.map_congr_left fun j hj => ?_
    have hj' : j < q.count := List.mem_range.1 hj
    refine Function.update_of_ne ?_ ..
    rw [nwrite_eq q]
    exact index_ne hm _ hj' (by omega)
  · congr 1
    change Function.update q.data (index q.nwrite) a _ = a
    rw [nwrite_eq q]
    exact Function.update_self ..

omit [NeZero m] in
theorem count_pop (h : 0 < q.count) : q.pop.count + 1 = q.count := by
  refine count_succ ?_ (.inr h)
  change q.nwrite - (q.nread + 1) + 1 = _
  rw [← BitVec.add_sub_cancel (q.nwrite - (q.nread + 1) + 1) q.nread, BitVec.add_assoc,
    BitVec.add_comm 1, BitVec.sub_add_cancel]

theorem contents_pop (h : 0 < q.count) : q.contents = q.front :: q.pop.contents := by
  unfold contents
  rw [← count_pop h, List.range_succ_eq_map, List.map_cons, List.map_map]
  congr 1
  · change q.data _ = q.data _
    simp
  · refine List.map_congr_left fun j _ => ?_
    change q.data (index (q.nread + BitVec.ofNat w (j + 1))) =
      q.data (index (q.nread + 1 + BitVec.ofNat w j))
    rw [BitVec.add_assoc, Nat.add_comm j 1, BitVec.ofNat_add]
    rfl

/-! ### Parts of a ring -/

theorem length_contents (q : Fifo α m w) : q.contents.length = q.count := by
  simp [contents]

variable {d : Fin m → α} {a b c : BitVec w}

omit [NeZero m] in
theorem count_append (h : (⟨d, a, b⟩ : Fifo α m w).count + (⟨d, b, c⟩ : Fifo α m w).count < 2 ^ w) :
    (⟨d, a, c⟩ : Fifo α m w).count = (⟨d, a, b⟩ : Fifo α m w).count +
    (⟨d, b, c⟩ : Fifo α m w).count := by
  unfold count at h ⊢
  dsimp only at h ⊢
  have he : c - a = (b - a) + (c - b) := by
    rw [BitVec.add_comm, ← BitVec.add_sub_cancel (c - b + (b - a)) a, BitVec.add_assoc,
      BitVec.sub_add_cancel, BitVec.sub_add_cancel]
  rw [he, BitVec.toNat_add, Nat.mod_eq_of_lt h]

theorem contents_append (h : (⟨d, a, b⟩ : Fifo α m w).count + (⟨d, b, c⟩ : Fifo α m w).count < 2 ^
    w) :
    (⟨d, a, c⟩ : Fifo α m w).contents =
      (⟨d, a, b⟩ : Fifo α m w).contents ++ (⟨d, b, c⟩ : Fifo α m w).contents := by
  have hb : b = a + BitVec.ofNat w (⟨d, a, b⟩ : Fifo α m w).count :=
    nwrite_eq (⟨d, a, b⟩ : Fifo α m w)
  unfold contents
  rw [count_append h, List.range_add, List.map_append, List.map_map]
  congr 1
  refine List.map_congr_left fun j _ => ?_
  change d (index (a + BitVec.ofNat w ((⟨d, a, b⟩ : Fifo α m w).count + j))) = _
  rw [BitVec.ofNat_add, ← BitVec.add_assoc, ← hb]

theorem contents_update (hm : m ∣ 2 ^ w) (hw : m < 2 ^ w)
    (h : (⟨d, a, b⟩ : Fifo α m w).count + (⟨d, b, c⟩ : Fifo α m w).count < m) (x : α) :
    (⟨Function.update d (index c) x, a, b⟩ : Fifo α m w).contents =
      (⟨d, a, b⟩ : Fifo α m w).contents := by
  have hc : c = a + BitVec.ofNat w (⟨d, a, c⟩ : Fifo α m w).count :=
    nwrite_eq (⟨d, a, c⟩ : Fifo α m w)
  have hcount := count_append (Nat.lt_trans h hw)
  refine List.map_congr_left fun j hj => ?_
  have hj' : j < (⟨d, a, b⟩ : Fifo α m w).count := List.mem_range.1 hj
  refine Function.update_of_ne ?_ ..
  rw [hc]
  exact index_ne hm _ (by omega) (by omega)

omit [NeZero m] in
theorem count_retract (h : a ≠ b) :
    (⟨d, a, b - 1⟩ : Fifo α m w).count + 1 = (⟨d, a, b⟩ : Fifo α m w).count := by
  refine count_succ ?_ (.inr (Nat.pos_of_ne_zero fun h0 => h (count_eq_zero.1 h0)))
  change b - 1 - a + 1 = b - a
  rw [BitVec.sub_eq_add_neg, BitVec.sub_eq_add_neg, BitVec.sub_eq_add_neg, BitVec.add_assoc,
    BitVec.add_comm (-a), ← BitVec.add_assoc, BitVec.add_assoc b, BitVec.add_comm (-1 : BitVec w)]
  rw [← BitVec.sub_eq_add_neg 1 1, BitVec.sub_self, BitVec.add_zero]

theorem contents_retract (h : a ≠ b) : (⟨d, a, b⟩ : Fifo α m w).contents =
      (⟨d, a, b - 1⟩ : Fifo α m w).contents ++ [d (index (b - 1))] := by
  have hb : b - 1 = a + BitVec.ofNat w (⟨d, a, b - 1⟩ : Fifo α m w).count :=
    nwrite_eq (⟨d, a, b - 1⟩ : Fifo α m w)
  unfold contents
  rw [← count_retract h, List.range_succ, List.map_append, List.map_singleton]
  congr 1
  exact congrArg (fun i => [d (index i)]) hb.symm

end Fifo

end Xv6.Lib
