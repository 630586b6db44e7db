import Xv6.Fs.ByteArray

/-!
# Fresh disks

A disk of 4000 blocks with one block of inodes, none of which has a block: whatever types and link
counts they are given, the disk is consistent, and all data blocks are free. Files and directories
of any size can be written on it.
-/

namespace Xv6.Fs

open Lib

variable {ips : List (Nat × Dinode)} {b j : Nat}

def bigSb : Superblock := ⟨4000, 3996, 8, 0, 2, 2, 3⟩

theorem ok_bigSb : bigSb.Ok := by
  refine ⟨by decide, fun i hi => ?_, fun b hb => ?_, by decide, by decide, by decide⟩
  · have hi : i < 8 := hi
    have hz : i / IPB = 0 := Nat.div_eq_of_lt hi
    rw [IBLOCK, hz]
    decide
  · have hb : b < 4000 := hb
    have hz : b / BPB = 0 := Nat.div_eq_of_lt (lt_trans hb (by decide))
    rw [BBLOCK, hz]
    decide

def markedDisk : Disk :=
  [0, 1, 2, 3].foldl (fun d b => putMapBit bigSb d b true) fun _ => Bytes.zero

/-- The first `k` inodes are free. -/
def zeroedDisk : (k : Nat) → Disk
  | 0 => markedDisk
  | k + 1 => putDinode bigSb (zeroedDisk k) k Dinode.zero

/-- The inodes `ips`, on a disk that is otherwise empty. -/
def freshDisk : List (Nat × Dinode) → Disk
  | [] => zeroedDisk 8
  | (j, ip) :: ips => putDinode bigSb (freshDisk ips) j ip

def Dinode.Empty (ip : Dinode) : Prop := ip.size = 0 ∧ ip.addrs = fun _ => 0

theorem bit_markedDisk : bit bigSb markedDisk b = decide (b < 4) := by
  have hzero : bit bigSb (fun _ => Bytes.zero) b = false := by
    simp [bit, getBit, Bytes.get_zero]
  simp only [markedDisk, List.foldl, bit_putMapBit, hzero]
  by_cases hb : b < 4
  · interval_cases b <;> rfl
  · simp only [show b ≠ 0 by omega, show b ≠ 1 by omega, show b ≠ 2 by omega, show b ≠ 3 by omega,
      if_false, hb, decide_false]

theorem block_ne (hb : b < 4000) (hj : j < 8) : BBLOCK b bigSb ≠ IBLOCK j bigSb := by
  have h1 : b / BPB = 0 := Nat.div_eq_of_lt (lt_trans hb (by decide))
  have h2 : j / IPB = 0 := Nat.div_eq_of_lt hj
  rw [BBLOCK, IBLOCK, h1, h2]
  decide

theorem bit_zeroedDisk {k : Nat} (hk : k ≤ 8) (hb : b < 4000) :
    bit bigSb (zeroedDisk k) b = decide (b < 4) := by
  induction k with
  | zero => exact bit_markedDisk
  | succ k ih =>
    rw [zeroedDisk, bit_congr (putDinode_of_ne (block_ne hb hk))]
    exact ih (by omega)

theorem dinode_zeroedDisk {k : Nat} (hj : j < k) : dinode bigSb (zeroedDisk k) j = Dinode.zero := by
  induction k with
  | zero => omega
  | succ k ih =>
    rw [zeroedDisk, dinode_putDinode]
    split
    · rfl
    · exact ih (by omega)

theorem bit_freshDisk (hips : ∀ x ∈ ips, x.1 < 8) (hb : b < 4000) :
    bit bigSb (freshDisk ips) b = decide (b < 4) := by
  induction ips with
  | nil => exact bit_zeroedDisk le_rfl hb
  | cons x ips ih =>
    rw [freshDisk, bit_congr (putDinode_of_ne (block_ne hb (hips x (by simp))))]
    exact ih fun y hy => hips y (List.mem_cons_of_mem _ hy)

theorem empty_freshDisk (hips : ∀ x ∈ ips, x.2.Empty) (hj : j < 8) :
    (dinode bigSb (freshDisk ips) j).Empty := by
  induction ips with
  | nil =>
    rw [freshDisk, dinode_zeroedDisk hj]
    exact ⟨rfl, rfl⟩
  | cons x ips ih =>
    rw [freshDisk, dinode_putDinode]
    split
    · exact hips x (by simp)
    · exact ih fun y hy => hips y (List.mem_cons_of_mem _ hy)

theorem owner_of_empty {d : Disk} (hbit : ∀ b < 4000, bit bigSb d b = decide (b < 4))
    (hempty : ∀ j < 8, (dinode bigSb d j).Empty) : Owner bigSb d :=
  owner_of_bare (by decide) hbit fun j hj => hempty j hj.1

theorem owner_freshDisk (hlt : ∀ x ∈ ips, x.1 < 8) (hips : ∀ x ∈ ips, x.2.Empty) :
    Owner bigSb (freshDisk ips) :=
  owner_of_empty (fun _ hb => bit_freshDisk hlt hb) fun _ hj => empty_freshDisk hips hj

theorem room_freshDisk (hlt : ∀ x ∈ ips, x.1 < 8) : room bigSb (freshDisk ips) = 3996 :=
  room_of_bits fun _ hb => bit_freshDisk hlt hb

theorem exists_file {n : Nat} (hn : n ≤ MAXFILE * BSIZE) : ∃ u : InodeSt, Owner bigSb u.disk ∧
    dinode bigSb u.disk 1 = u.ip ∧ u.ip.type = T_FILE ∧ u.ip.size.toNat = n := by
  have hown : Owner bigSb (freshDisk [(1, emptyFile)]) := owner_freshDisk (by decide) (by
    rintro x hx
    obtain rfl := List.mem_singleton.1 hx
    exact ⟨rfl, rfl⟩)
  have hip : dinode bigSb (freshDisk [(1, emptyFile)]) 1 = emptyFile := by
    rw [freshDisk, dinode_putDinode, if_pos rfl]
  have hspec : Sat (writei bigSb 1 0 (List.replicate n 7))
      ⟨freshDisk [(1, emptyFile)], emptyFile, [], []⟩ _ _ :=
    writei_spec ok_bigSb (by decide) hown hip (by decide)
  have hsat := hspec.and
    (writei_room ok_bigSb (by decide) hown hip (by decide) (Nat.zero_le _) (by simpa using hn))
  cases hrun :
    writei bigSb 1 0 (List.replicate n 7) ⟨freshDisk [(1, emptyFile)], emptyFile, [], []⟩ with
  | error msg =>
    have hlt := (hsat.error hrun).2.2
    dsimp only at hlt
    rw [room_freshDisk (by decide)] at hlt
    have hb : blocksFor (0 + (List.replicate n (7 : UInt8)).length) ≤ MAXFILE := by
      refine blocksFor_le ?_
      rw [List.length_replicate, Nat.mul_comm]
      omega
    have hmf : MAXFILE = 140 := rfl
    unfold lacks at hlt
    split at hlt <;> omega
  | ok r =>
    obtain ⟨⟨hsec, hres⟩, hr, -⟩ := hsat.ok hrun
    rw [hr] at hres
    refine ⟨r.2, hsec.own, hsec.inode, ?_, ?_⟩
    · rw [hres.2.fields]
      rfl
    · rw [hres.2.size, List.length_replicate, Nat.zero_add]
      exact max_eq_right (Nat.zero_le n)

end Xv6.Fs
