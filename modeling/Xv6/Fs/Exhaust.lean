import Xv6.Bio.Refinement
import Xv6.Fs.InFlight

/-!
# Running out of cached inodes and buffers

The inode cache has `NINODE` slots and the buffer cache `NBUF` buffers. Nothing in the kernel keeps
the demand below that: `NFILE` files may be open, and `NPROC` processes may have a current directory
and be in a system call.
-/

namespace Xv6.Fs.Demand

open Lib

/-- Neither cache can be exhausted while the demand is smaller than the cache: for the inode cache
the open files, the current directories and three references for every call under way, for the
buffer cache the buffers that are held or waited for and those that are pinned. -/
theorem caches_suffice {π : Type} [DecidableEq π] [Fintype π] (sb : Superblock) (d : Disk)
    (init : π) :
    (∀ c, Reach (fsSys sb) (.start (boot d init)) c →
      openInodes c.shared + cwds c.shared + callRefs * inCall c < NINODE →
      ∀ p, (∀ e, (iget e).panicOf p c.shared = none) ∧ ¬ c.Panics p "iget: no inodes") ∧
    ∀ c, Reach (Bio.bioSys π) (.start (Bio.boot d)) c →
      Bio.bufRefs c + Bio.pinned c.shared < NBUF →
      ∀ p, (∀ b, (Bio.bget ROOTDEV b).panicOf p c.shared = none) ∧
        ¬ c.Panics p "bget: no buffers" :=
  ⟨fun _ hr hfew => iget_finds hr hfew, fun _ hr hfew => Bio.bget_finds hr hfew⟩

/-! ## Runs -/

section Runs

variable {π : Type} [DecidableEq π]

def session (sb : Superblock) : List (π × Call π) → FsSt π → Option (FsSt π)
  | [], s => some s
  | (p, c) :: cs, s =>
    if (s.proc p).live then
      match (c.prog sb).run p s with
      | some (_, s') => session sb cs s'
      | none => none
    else none

theorem reach_session {sb : Superblock} {c0 : Config π (FsSt π) Lab} {cs : List (π × Call π)}
    {s s' : FsSt π} (hr : Reach (fsSys sb) c0 (.start s)) (h : session sb cs s = some s') :
    Reach (fsSys sb) c0 (.start s') := by
  induction cs generalizing s with
  | nil =>
    cases h
    exact hr
  | cons k cs ih =>
    obtain ⟨p, c⟩ := k
    simp only [session, Option.ite_none_right_eq_some] at h
    obtain ⟨hlive, h⟩ := h
    split at h
    · rename_i a s1 hrun
      exact ih (hr.call_run ⟨hlive, .inl ⟨c, rfl⟩⟩ hrun) h
    · cases h

end Runs

/-- The superblock that `mkfs` writes. -/
def mkfsSb : Superblock := ⟨1000, 941, 200, 30, 2, 32, 58⟩

def dirInode (size block : BitVec 32) : Dinode :=
  ⟨T_DIR, 0, 0, 1, size, fun k => if k = 0 then block else 0⟩

/-- The root directory, the directories 2 to 5 in it, and the empty files 6 to 53. -/
def treeInode (e : Nat) : Dinode :=
  if e = ROOTINO then dirInode 96 59
  else if 2 ≤ e ∧ e < 6 then dirInode 224 (BitVec.ofNat 32 (58 + e))
  else if 6 ≤ e ∧ e < 54 then ⟨T_FILE, 0, 0, 1, 0, fun _ => 0⟩
  else Dinode.zero

/-- The entries of the directories: `a` to `d` in the root, `A` to `L` in each of these. -/
def treeEntry (e k : Nat) : Dirent :=
  if k = 0 then ⟨BitVec.ofNat 16 e, dot⟩
  else if k = 1 then ⟨1, dotdot⟩
  else if e = ROOTINO ∧ k < 6 then ⟨BitVec.ofNat 16 k, Name.ofList [UInt8.ofNat (95 + k)]⟩
  else if e ≠ ROOTINO ∧ k < 14 then
    ⟨BitVec.ofNat 16 (12 * (e - 2) + 4 + k), Name.ofList [UInt8.ofNat (63 + k)]⟩
  else ⟨0, Name.ofList []⟩

/-- A disk with four directories of twelve files: the superblock, the inodes, the free map and the
blocks of the directories. -/
def treeDisk : Disk := fun b j =>
  if b = 1 then (Superblock.codec.enc mkfsSb).getD j 0
  else if 32 ≤ b ∧ b < 58 then
    (Dinode.codec.enc (treeInode ((b - 32) * 8 + j / 64))).getD (j % 64) 0
  else if b = 58 then if j.val < 8 then 255 else 0
  else if 59 ≤ b ∧ b < 64 then (Dirent.codec.enc (treeEntry (b - 58) (j / 16))).getD (j % 16) 0
  else 0

/-- Two processes with one open file, and a reader with one buffer. -/
theorem caches_suffice_one_file :
    (∃ c, Reach (fsSys mkfsSb) (.start (boot treeDisk (0 : Fin 2))) c ∧
      openInodes c.shared = 1 ∧ cwds c.shared = 2 ∧
      ∀ p, (∀ e, (iget e).panicOf p c.shared = none) ∧ ¬ c.Panics p "iget: no inodes") ∧
    ∃ c, Reach (Bio.bioSys (Fin 2)) (.start (Bio.boot treeDisk)) c ∧ Bio.bufRefs c = 1 ∧
      ∀ p, (∀ b, (Bio.bget ROOTDEV b).panicOf p c.shared = none) ∧
        ¬ c.Panics p "bget: no buffers" := by
  obtain ⟨higet, hbget⟩ := caches_suffice mkfsSb treeDisk (0 : Fin 2)
  have hrun : ((session mkfsSb [(0, .fork 1), (0, .open (some [slash, 97, slash, 65]) O_RDWR)]
      (boot treeDisk (0 : Fin 2))).map fun s => decide (openInodes s = 1 ∧ cwds s = 2)) =
      some true := by
    decide +kernel
  obtain ⟨s, hs, hone⟩ := Option.map_eq_some_iff.1 hrun
  obtain ⟨hfile, hcwd⟩ := of_decide_eq_true hone
  have hreach := reach_session .refl hs
  obtain ⟨c, hc, hrefs, hpinned⟩ := Run.of_play (Bio.bioSys (Fin 2)) (fun _ _ => True)
    Bio.callOf_calls (c := .start (Bio.boot treeDisk)) [.call 0 (.read 1), .act 0 3]
    (P := fun c => Bio.bufRefs c = 1 ∧ Bio.pinned c.shared = 0) (by decide +kernel)
  refine ⟨⟨_, hreach, hfile, hcwd, higet _ hreach ?_⟩, c, hc, hrefs, hbget c hc ?_⟩
  · have hidle : inCall (Config.start s : Config (Fin 2) (FsSt (Fin 2)) Lab) = 0 := rfl
    rw [hidle]
    simp only [Config.start, hfile, hcwd]
    decide
  · rw [hrefs, hpinned]
    decide

def opens46 : List (Fin 4 × Call (Fin 4)) :=
  [(0, .fork 1), (0, .fork 2), (0, .fork 3)] ++
    ((List.finRange 4).map fun p => (p, .chdir (some [UInt8.ofNat (97 + p)]))) ++
    (List.range 46).map fun k =>
      (Fin.ofNat 4 (k / 12), .open (some [UInt8.ofNat (65 + k % 12)]) O_RDWR)

/-- The current directories and the 46 open files of four processes fill the inode cache, and `open`
of another file panics. Thirty processes that read a block each fill the buffer cache, and the next
one panics. -/
theorem caches_exhausted :
    (∃ c, Reach (fsSys mkfsSb) (.start (boot treeDisk (0 : Fin 4))) c ∧
      c.Panics 3 "iget: no inodes") ∧
    ∃ c, Reach (Bio.bioSys (Fin 31)) (.start (Bio.boot treeDisk)) c ∧
      c.Panics 30 "bget: no buffers" := by
  constructor
  · have hrun : ((session mkfsSb opens46 (boot treeDisk 0)).map fun s =>
        decide ((s.proc 3).live = true ∧
          ((Call.open (some [75]) O_RDWR).prog mkfsSb).panicOf 3 s = some "iget: no inodes")) =
        some true := by
      decide +kernel
    obtain ⟨s, hs, hlast⟩ := Option.map_eq_some_iff.1 hrun
    obtain ⟨hlive, hpanic⟩ := of_decide_eq_true hlast
    have hreach : Reach (fsSys mkfsSb) (.start (boot treeDisk 0)) (.start s) :=
      reach_session .refl hs
    exact hreach.call_panics ⟨hlive, .inl ⟨_, rfl⟩⟩ hpanic
  · exact Run.of_play (Bio.bioSys (Fin 31)) (fun _ _ => True) Bio.callOf_calls
      (c := .start (Bio.boot treeDisk))
      ((List.range 30).flatMap (fun k => [.call (Fin.ofNat 31 k) (.read k),
        .act (Fin.ofNat 31 k) 1]) ++ [.call 30 (.read 30)])
      (P := fun c => c.Panics 30 "bget: no buffers") (by decide +kernel)

end Xv6.Fs.Demand
