import Xv6.Fs.Blocks
import Xv6.Lib.Hoare
import Xv6.Lib.Ownership

/-!
# Who owns which block

A position of an inode is one of its direct entries, its indirect block, or an entry of that.
`Own` says of a disk and the inodes over it that every block above the metadata belongs to at
most one position of one allocated inode, that the free map is exact, and that the allocated
blocks of a file are the first ones. Blocks that `balloc` has marked and that no inode refers
to yet are in transit.

`Work` is what the code under the lock of inode `i` keeps, step by step: `Own`, and the blocks
of every other inode as they were when it started.
-/

namespace Xv6.Fs

open Lib
open Function (update update_of_ne update_self)

/-! ## Positions -/

def NPOS : Nat := MAXFILE + 1

def blockAt (d : Disk) (ip : Dinode) (pos : Nat) : Nat :=
  if pos ≤ NDIRECT then ip.addr pos
  else if ip.addr NDIRECT = 0 then 0
  else entry (d (ip.addr NDIRECT)) (pos - (NDIRECT + 1))

/-- The position of block `k` of a file. -/
def filePos (k : Nat) : Nat := if k < NDIRECT then k else k + 1

def dataBlocks (ip : Dinode) : Nat := (ip.size.toNat + (BSIZE - 1)) / BSIZE

/-- Inode `i` is allocated. -/
def Allocated (sb : Superblock) (D : Nat → Dinode) (i : Nat) : Prop :=
  i < sb.ninodes.toNat ∧ (D i).type ≠ 0

instance (sb : Superblock) (D : Nat → Dinode) (i : Nat) : Decidable (Allocated sb D i) := by
  unfold Allocated
  infer_instance

def refs (sb : Superblock) (d : Disk) (D : Nat → Dinode) (k : Nat × Nat) : Nat :=
  if Allocated sb D k.1 ∧ k.2 < NPOS then blockAt d (D k.1) k.2 else 0

theorem filePos_lt {k : Nat} (h : k < MAXFILE) : filePos k < NPOS := by
  unfold filePos NPOS
  split <;> omega

theorem lt_of_filePos_lt {k : Nat} (h : filePos k < NPOS) : k < MAXFILE := by
  have h12 : MAXFILE = NDIRECT + NINDIRECT := rfl
  have hpos : 0 < NINDIRECT := by decide
  unfold filePos NPOS at h
  split at h <;> omega

theorem filePos_ne {k : Nat} : filePos k ≠ NDIRECT := by
  unfold filePos
  split <;> omega

theorem filePos_inj {k k' : Nat} (h : filePos k = filePos k') : k = k' := by
  unfold filePos at h
  split at h <;> split at h <;> omega

theorem blockAt_of_le {d : Disk} {ip : Dinode} {pos : Nat} (h : pos ≤ NDIRECT) :
    blockAt d ip pos = ip.addr pos := if_pos h

theorem blockAt_indirect (d : Disk) (ip : Dinode) : blockAt d ip NDIRECT = ip.addr NDIRECT :=
  blockAt_of_le (le_refl _)

theorem blockAt_entry {d : Disk} {ip : Dinode} {j : Nat} (h : ip.addr NDIRECT ≠ 0) :
    blockAt d ip (NDIRECT + 1 + j) = entry (d (ip.addr NDIRECT)) j := by
  unfold blockAt
  rw [if_neg (by omega), if_neg h, Nat.add_sub_cancel_left]

theorem blockAt_congr {d d' : Disk} {ip : Dinode} {pos : Nat}
    (h : ip.addr NDIRECT ≠ 0 → d' (ip.addr NDIRECT) = d (ip.addr NDIRECT)) :
    blockAt d' ip pos = blockAt d ip pos := by
  unfold blockAt
  split
  · rfl
  · split
    · rfl
    · next h0 => rw [h h0]

theorem refs_of {sb : Superblock} {d : Disk} {D : Nat → Dinode} {i pos : Nat}
    (hi : Allocated sb D i) (hp : pos < NPOS) : refs sb d D (i, pos) = blockAt d (D i) pos :=
  if_pos ⟨hi, hp⟩

@[simp] theorem addr_setAddr {ip : Dinode} {k k' b : Nat} (hk : k ≤ NDIRECT) (hb : b < 2 ^ 32) :
    (ip.setAddr k b).addr k' = if k' = k then b else ip.addr k' := by
  unfold Dinode.addr Dinode.setAddr
  by_cases h : k' = k
  · subst h
    rw [dif_pos (by omega), if_pos rfl]
    dsimp only
    rw [if_pos rfl, BitVec.toNat_ofNat, Nat.mod_eq_of_lt hb]
  · rw [if_neg h]
    split
    · dsimp only
      rw [if_neg h]
    · rfl

/-! ## The invariant -/

/-- Every block has at most one owner, the free map is exact, and of the blocks of inode `i`
those below `nb i` are there. The blocks in `E` are in transit. -/
structure Own (sb : Superblock) (d : Disk) (D : Nat → Dinode) (nb : Nat → Nat)
    (E : Nat → Prop) : Prop where
  owned : Owned sb.firstData sb.size.toNat (refs sb d D) E (bit sb d)
  exact : ∀ i, Allocated sb D i → ∀ k < MAXFILE, (blockAt d (D i) (filePos k) ≠ 0 ↔ k < nb i)
  nb_le : ∀ i, Allocated sb D i → nb i ≤ MAXFILE

variable {sb : Superblock} {d d' : Disk} {D : Nat → Dinode} {nb : Nat → Nat} {E : Nat → Prop}
  {i j b pos : Nat} {ip : Dinode}

theorem Own.range (h : Own sb d D nb E) (pos : Nat) (hi : Allocated sb D i) (hp : pos < NPOS)
    (h0 : blockAt d (D i) pos ≠ 0) :
    sb.firstData ≤ blockAt d (D i) pos ∧ blockAt d (D i) pos < sb.size.toNat := by
  have := h.owned.range (i, pos)
  rw [refs_of hi hp] at this
  exact this h0

theorem Own.inj (h : Own sb d D nb E) {pos' : Nat} (hi : Allocated sb D i) (hj : Allocated sb D j)
    (hp : pos < NPOS) (hp' : pos' < NPOS) (he : blockAt d (D i) pos = blockAt d (D j) pos')
    (h0 : blockAt d (D i) pos ≠ 0) : i = j ∧ pos = pos' := by
  have := h.owned.inj (i, pos) (j, pos')
  rw [refs_of hi hp, refs_of hj hp'] at this
  exact Prod.ext_iff.1 (this he h0)

theorem Own.disk (h : Own sb d D nb E) {E' : Nat → Prop}
    (howned : Owned sb.firstData sb.size.toNat (refs sb d D) E' (bit sb d'))
    (href : ∀ i, Allocated sb D i → ∀ pos < NPOS, blockAt d' (D i) pos = blockAt d (D i) pos) :
    Own sb d' D nb E' := by
  refine ⟨howned.congr (fun k => ?_) (fun _ => Iff.rfl) (fun _ _ => rfl), fun i hi k hk => ?_,
    h.nb_le⟩
  · unfold refs
    split
    · next hc => exact href k.1 hc.1 k.2 hc.2
    · rfl
  · rw [href i hi _ (filePos_lt hk)]
    exact h.exact i hi k hk

theorem Own.blockAt_eq (h : Own sb d D nb E) (hi : Allocated sb D i)
    (hd : ∀ c, sb.firstData ≤ c → c < sb.size.toNat → refs sb d D (i, NDIRECT) = c → d' c = d c) :
    blockAt d' (D i) pos = blockAt d (D i) pos := by
  apply blockAt_congr
  intro h0
  have h12 : NDIRECT < NPOS := by decide
  have hr := h.range NDIRECT hi h12 (by rwa [blockAt_indirect])
  rw [blockAt_indirect] at hr
  exact hd _ hr.1 hr.2 (by rw [refs_of hi h12, blockAt_indirect])

/-! ## Work under the lock of one inode -/

theorem allocated_update_ne (h : j ≠ i) :
    Allocated sb (update D i ip) j ↔ Allocated sb D j := by
  unfold Allocated
  rw [update_of_ne h]

theorem allocated_update_self :
    Allocated sb (update D i ip) i ↔ i < sb.ninodes.toNat ∧ ip.type ≠ 0 := by
  unfold Allocated
  rw [update_self]

theorem refs_update_ne (ip : Dinode) (h : j ≠ i) :
    refs sb d (update D i ip) (j, pos) = refs sb d D (j, pos) := by
  unfold refs
  simp only [allocated_update_ne h, update_of_ne h]

theorem refs_update_self (hi : i < sb.ninodes.toNat) (ht : ip.type ≠ 0) :
    refs sb d (update D i ip) (i, pos) = if pos < NPOS then blockAt d ip pos else 0 := by
  unfold refs
  simp only [allocated_update_self, hi, ht, ne_eq, not_false_eq_true, and_self, true_and,
    update_self]

/-- A block that `balloc` handed out was in use nowhere, when the inodes were those of the disk
`d0` with inode `i` as the code had it. -/
structure Fresh (sb : Superblock) (D : Nat → Dinode) (i : Nat) (d0 : Disk) (g : Given) : Prop where
  unused : ∀ k, refs sb g.disk (update D i g.ip) k ≠ g.block
  low : ∀ b < sb.bmapstart.toNat, g.disk b = d0 b

/-- What the code under the lock of inode `i` keeps: started in `s0` with the other inodes as
`D`, it has reached `s`, where the inode has `n` blocks and the blocks in `E` are in transit. -/
structure Work (sb : Superblock) (D : Nat → Dinode) (i : Nat) (s0 : InodeSt) (n : Nat)
    (E : Nat → Prop) (s : InodeSt) : Prop where
  type : s.ip.type ≠ 0
  own : Own sb s.disk (update D i s.ip)
    (update (fun j => dataBlocks (D j)) i n) E
  low : ∀ b < sb.bmapstart.toNat, s.disk b = s0.disk b
  others : ∀ j, j ≠ i → Allocated sb D j → ∀ pos < NPOS, blockAt s0.disk (D j) pos ≠ 0 →
    s.disk (blockAt s0.disk (D j) pos) = s0.disk (blockAt s0.disk (D j) pos)
  given : ∀ g ∈ s.given, g ∈ s0.given ∨ Fresh sb D i s0.disk g

def nothing (_ : Nat) : Prop := False

def Fine (msg : String) : Prop := msg ≠ "freeing free block"

variable {s0 s s' : InodeSt} {n : Nat}

namespace Work

theorem allocated (W : Work sb D i s0 n E s) (hi : i < sb.ninodes.toNat) :
    Allocated sb (update D i s.ip) i := allocated_update_self.2 ⟨hi, W.type⟩

theorem relog (W : Work sb D i s0 n E s) (l : List Nat) :
    Work sb D i s0 n E { s with logged := l } :=
  ⟨W.type, W.own, W.low, W.others, W.given⟩

theorem blockAt_other (W : Work sb D i s0 n E s) (hj : j ≠ i) (hA : Allocated sb D j) :
    blockAt s.disk (D j) pos = blockAt s0.disk (D j) pos := by
  apply blockAt_congr
  intro h0
  have := W.others j hj hA NDIRECT (by decide)
  rw [blockAt_indirect] at this
  exact this h0

theorem step (W : Work sb D i s0 n E s) {s' : InodeSt} {n' : Nat} {E' : Nat → Prop}
    (ht : s'.ip.type ≠ 0)
    (hown : Own sb s'.disk (update D i s'.ip)
      (update (fun j => dataBlocks (D j)) i n') E')
    (hd : ∀ c, s'.disk c = s.disk c ∨ (sb.bmapstart.toNat ≤ c ∧ ∀ j, j ≠ i → ∀ pos,
      refs sb s.disk D (j, pos) ≠ 0 → refs sb s.disk D (j, pos) ≠ c))
    (hg : ∀ g ∈ s'.given, g ∈ s.given ∨ Fresh sb D i s0.disk g) :
    Work sb D i s0 n' E' s' := by
  refine ⟨ht, hown, fun b hb => ?_, fun j hj hA pos hp h0 => ?_, fun g hgm => ?_⟩
  · rcases hd b with h | ⟨h, -⟩
    · rw [h, W.low b hb]
    · omega
  · rcases hd (blockAt s0.disk (D j) pos) with h | ⟨-, h⟩
    · rw [h, W.others j hj hA pos hp h0]
    · have hr : refs sb s.disk D (j, pos) = blockAt s0.disk (D j) pos := by
        rw [refs_of hA hp, W.blockAt_other hj hA]
      exact absurd hr (h j hj pos (by rw [hr]; exact h0))
  · rcases hg g hgm with h | h
    · exact W.given g h
    · exact .inr h

end Work

end Xv6.Fs
