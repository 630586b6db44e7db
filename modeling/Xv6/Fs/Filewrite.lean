import Xv6.Fs.Blank
import Xv6.Fs.Calls

/-!
# Writing through an open file

`filewrite` cuts its data into chunks and writes each one in a transaction of its own, with the lock
of the inode held while the offset is read, the bytes are copied and the offset is moved on. What
a chunk does, and then what a call does that runs alone.
-/

namespace Xv6.Fs

open Lib
open List (length_append length_drop length_take take_nil take_of_length_le)
open Prog (after_bind after_mono after_ret after_step run_bind run_step)

variable {π : Type} {sb : Superblock} {p : π} {fd : Fd} {f : FileId} {i : Slot}
  {s s' s1 t : FsSt π} {src : List UInt8}

/-! ## Writing into a list of bytes -/

/-- The bytes `src` in place of those from `off` on. -/
def splice (l : List UInt8) (off : Nat) (src : List UInt8) : List UInt8 :=
  l.take off ++ src ++ l.drop (off + src.length)

variable {l : List UInt8} {off : Nat}

theorem splice_nil : splice l off [] = l := by
  simp [splice]

theorem length_splice (h : off ≤ l.length) :
    (splice l off src).length = max l.length (off + src.length) := by
  simp only [splice, length_append, length_take, length_drop]
  omega

theorem splice_splice {src' : List UInt8} (h : off ≤ l.length) :
    splice (splice l off src) (off + src.length) src' = splice l off (src ++ src') := by
  have hlen : (l.take off ++ src).length = off + src.length := by
    rw [length_append, length_take]
    omega
  have htake : (splice l off src).take (off + src.length) = l.take off ++ src :=
    List.take_left' hlen
  have hdrop : (splice l off src).drop (off + src.length + src'.length) =
      l.drop (off + (src ++ src').length) := by
    rw [← List.drop_drop, splice, List.drop_left' hlen, List.drop_drop, length_append,
      Nat.add_assoc]
  rw [splice, htake, hdrop, splice, List.append_assoc (l.take off)]

/-! ## One chunk -/

/-- The file `f` refers to the inode in slot `i`, that of a regular file on a consistent disk. -/
structure Regular (sb : Superblock) (f : FileId) (i : Slot) (s : FsSt π) : Prop where
  own : Owner sb s.disk
  kind : (s.file f).type = .inode
  writable : (s.file f).writable = true
  ip : (s.file f).ip = i
  off_lt : (s.file f).off < 2 ^ 32
  inum_lt : (s.inode i).inum < sb.ninodes.toNat
  copy : (s.inode i).valid = true → (s.inode i).d = dinode sb s.disk (s.inode i).inum
  type : (dinode sb s.disk (s.inode i).inum).type = T_FILE

/-- The inode in slot `i` as it is on the disk. -/
def onDisk (sb : Superblock) (i : Slot) (s : FsSt π) : Dinode := dinode sb s.disk (s.inode i).inum

/-- The bytes of the file of the inode in slot `i`. -/
def data (sb : Superblock) (i : Slot) (s : FsSt π) : List UInt8 := contents s.disk (onDisk sb i s)

/-- Neither the disk nor a file, a process or the inode number of slot `i` has changed. -/
structure Frame (i : Slot) (s s' : FsSt π) : Prop where
  disk : s'.disk = s.disk
  file : s'.file = s.file
  proc : s'.proc = s.proc
  inum : (s'.inode i).inum = (s.inode i).inum

theorem Frame.onDisk (h : Frame i s s') : onDisk sb i s' = onDisk sb i s := by
  unfold Fs.onDisk
  rw [h.disk, h.inum]

theorem Frame.regular (h : Frame i s s') (hr : Regular sb f i s)
    (hcopy : (s'.inode i).valid = true → (s'.inode i).d = Fs.onDisk sb i s') :
    Regular sb f i s' := by
  refine ⟨?_, ?_, ?_, ?_, ?_, ?_, hcopy, ?_⟩
  · rw [h.disk]
    exact hr.own
  · rw [h.file]
    exact hr.kind
  · rw [h.file]
    exact hr.writable
  · rw [h.file]
    exact hr.ip
  · rw [h.file]
    exact hr.off_lt
  · rw [h.inum]
    exact hr.inum_lt
  · rw [h.disk, h.inum]
    exact hr.type

theorem length_data : (data sb i s).length = (onDisk sb i s).size.toNat := length_contents

theorem Regular.no_lack (hr : Regular sb f i s) {n : Nat} (h : n ≤ (data sb i s).length) :
    lacks (blocksFor n) (dataBlocks (onDisk sb i s)) (onDisk sb i s) ≤ room sb s.disk := by
  have ht : (onDisk sb i s).type ≠ 0 := by
    rw [onDisk, hr.type]
    decide
  have hW := hr.own.work (i := (s.inode i).inum) (s := ⟨s.disk, onDisk sb i s, [], []⟩) rfl ht
  rw [length_data] at h
  have hzero : lacks (blocksFor n) (dataBlocks (onDisk sb i s)) (onDisk sb i s) = 0 :=
    hW.lacks_zero hr.inum_lt (Nat.div_le_div_right (by dsimp only; omega))
  rw [hzero]
  exact Nat.zero_le _

variable [DecidableEq π]

theorem after_ilock (hr : Regular sb f i s) :
    (ilock sb i).after p (fun _ s' => Frame i s s' ∧ (s'.inode i).d = onDisk sb i s) s := by
  refine after_step fun b s' hf => ?_
  split at hf
  · cases hf
  · split at hf
    · cases hf
    · split at hf
      · rename_i hv
        cases hf
        refine ⟨⟨rfl, rfl, rfl, ?_⟩, ?_⟩
        · simp [FsSt.setInode, FsSt.setNote]
        · simpa [FsSt.setInode, FsSt.setNote, onDisk] using hr.copy hv
      · split at hf
        · cases hf
        · cases hf
          refine ⟨⟨rfl, rfl, rfl, ?_⟩, ?_⟩
          · simp [FsSt.setInode, FsSt.setNote]
          · simp [FsSt.setInode, FsSt.setNote, onDisk]

/-- What a chunk has done: it was refused, or its bytes have been written at the offset and the
offset has moved on. -/
structure Chunk (sb : Superblock) (f : FileId) (i : Slot) (src : List UInt8) (s : FsSt π)
    (r : Option Nat) (s' : FsSt π) : Prop where
  regular : Regular sb f i s'
  proc : s'.proc = s.proc
  answer : r = if (s.file f).off ≤ (data sb i s).length ∧
      (s.file f).off + src.length ≤ MAXFILE * BSIZE then some src.length else none
  off : (s'.file f).off = (s.file f).off + r.getD 0
  data : data sb i s' = splice (data sb i s) (s.file f).off (src.take (r.getD 0))

theorem after_writeInode (hsb : sb.Ok) (hr : Regular sb f i s)
    (hd : (s.inode i).d = onDisk sb i s) :
    (writeInode sb i off src).after p (fun r s' => Regular sb f i s' ∧
      (s'.inode i).d = onDisk sb i s' ∧ s'.proc = s.proc ∧ s'.file = s.file ∧
      r = (if off ≤ (data sb i s).length ∧ off + src.length ≤ MAXFILE * BSIZE then some src.length
        else none) ∧
      data sb i s' = splice (data sb i s) off (src.take (r.getD 0))) s := by
  have htype : (s.inode i).d.type = T_FILE := by
    rw [hd]
    exact hr.type
  unfold writeInode
  refine after_bind (after_step fun r s1 hf => ?_)
  rw [if_neg (by rw [htype]; decide)] at hf
  cases hf
  refine after_mono (after_onInode (writei_spec (s := s.before i) hsb
    hr.inum_lt hr.own hd.symm (by dsimp only [FsSt.before]; rw [htype]; decide))) ?_
  rintro r _ ⟨u, ⟨hsec, hres⟩, rfl⟩
  have hinode : onDisk sb i (s.after i { s.inode i with d := u.ip } u) = u.ip := by
    simp only [onDisk, FsSt.after, FsSt.setInode, Function.update_self]
    exact hsec.inode
  have hdata : data sb i (s.after i { s.inode i with d := u.ip } u) = contents u.disk u.ip := by
    unfold data
    rw [hinode]
    rfl
  have hold : contents (s.before i).disk (s.before i).ip = data sb i s := by
    simp only [FsSt.before, hd, data]
  have hcopy : (((s.after i { s.inode i with d := u.ip } u)).inode i).d =
      onDisk sb i (s.after i { s.inode i with d := u.ip } u) := by
    rw [hinode]
    simp [FsSt.after, FsSt.setInode]
  have hsize : (s.before i).ip.size.toNat = (data sb i s).length := by
    rw [length_data]
    simp only [FsSt.before, hd]
  have hut : u.ip.type = T_FILE := by
    cases r with
    | none =>
      rw [hres.1]
      exact htype
    | some m =>
      rw [hres.2.fields]
      exact htype
  have hreg : Regular sb f i (s.after i { s.inode i with d := u.ip } u) := by
    refine ⟨hsec.own, hr.kind, hr.writable, hr.ip, hr.off_lt, ?_, fun _ => hcopy, ?_⟩
    · simpa [FsSt.after, FsSt.setInode] using hr.inum_lt
    · have := congrArg Dinode.type hinode
      rw [hut] at this
      exact this
  refine ⟨hreg, hcopy, rfl, rfl, ?_⟩
  rw [hdata]
  cases r with
  | none =>
    obtain ⟨rfl, hbad⟩ := hres
    rw [hsize] at hbad
    rw [if_neg (by rw [Nat.mul_comm]; omega)]
    refine ⟨rfl, ?_⟩
    rw [hold]
    exact splice_nil.symm
  | some m =>
    obtain ⟨rfl, hw⟩ := hres
    have hstart := hw.start
    have hend := hw.size
    have hmax := (hsec.own.work hsec.inode (by rw [hut]; decide)).size_le hr.inum_lt
    rw [hsize] at hstart hend
    rw [Nat.mul_comm] at hmax
    rw [if_pos ⟨hstart, by omega⟩]
    refine ⟨rfl, ?_⟩
    rw [hw.contents, hold, Option.getD_some, List.take_length]
    rfl

theorem Regular.moved {x : Inode π} {n : Note} (hr : Regular sb f i s) (off : Nat)
    (hoff : off < 2 ^ 32) (hinum : x.inum = (s.inode i).inum)
    (hcopy : x.valid = true → x.d = onDisk sb i s) :
    Regular sb f i (((s.setFile f { s.file f with off := off }).setInode i x).setNote p n) ∧
    data sb i (((s.setFile f { s.file f with off := off }).setInode i x).setNote p n) =
      data sb i s := by
  have hsame : onDisk sb i (((s.setFile f { s.file f with off := off }).setInode i x).setNote p n) =
      onDisk sb i s := by
    simp [onDisk, FsSt.setFile, FsSt.setInode, FsSt.setNote, hinum]
  refine ⟨⟨hr.own, ?_, ?_, ?_, ?_, ?_, ?_, ?_⟩, ?_⟩
  · simpa [FsSt.setFile, FsSt.setInode, FsSt.setNote] using hr.kind
  · simpa [FsSt.setFile, FsSt.setInode, FsSt.setNote] using hr.writable
  · simpa [FsSt.setFile, FsSt.setInode, FsSt.setNote] using hr.ip
  · simpa [FsSt.setFile, FsSt.setInode, FsSt.setNote] using hoff
  · simpa [FsSt.setFile, FsSt.setInode, FsSt.setNote, hinum] using hr.inum_lt
  · simpa [FsSt.setFile, FsSt.setInode, FsSt.setNote, hinum, onDisk] using hcopy
  · simpa [FsSt.setFile, FsSt.setInode, FsSt.setNote, hinum] using hr.type
  · unfold data
    rw [hsame]
    rfl

theorem after_writeChunk (hsb : sb.Ok) (hr : Regular sb f i s)
    (hfd : (s.proc p).ofile fd = some f) :
    (writeChunk sb fd i src).after p (Chunk sb f i src s) s := by
  unfold writeChunk
  refine after_bind (after_step fun _ s0 hf => ?_)
  cases hf
  refine after_bind (after_mono (after_ilock hr) ?_)
  rintro _ s1 ⟨hframe, hd⟩
  rw [← hframe.onDisk] at hd
  have hr1 : Regular sb f i s1 := hframe.regular hr fun _ => hd
  refine after_bind (after_step fun off s2 hf => ?_)
  rw [hframe.proc, hfd] at hf
  cases hf
  refine after_bind (after_mono (after_writeInode hsb hr1 hd) ?_)
  rintro r s2 ⟨hr2, hd2, hproc, hfile, hans, hdata⟩
  refine after_bind (after_step fun _ s3 hf => ?_)
  rw [hproc, hframe.proc, hfd] at hf
  cases hf
  refine after_bind (after_step fun _ s4 hf => ?_)
  split at hf
  · cases hf
  cases hf
  refine after_bind (after_step fun _ s5 hf => ?_)
  cases hf
  refine after_ret ?_
  have hlen : (data sb i s1) = data sb i s := by
    unfold data
    rw [hframe.onDisk, hframe.disk]
  rw [hlen, hframe.file] at hans
  rw [hlen, hframe.file] at hdata
  have hoff : ((s.file f).off + r.getD 0) % 2 ^ 32 = (s.file f).off + r.getD 0 := by
    have := hr.off_lt
    have hmf : MAXFILE * BSIZE = 71680 := rfl
    apply Nat.mod_eq_of_lt
    split at hans
    · rw [hans, Option.getD_some]
      omega
    · rw [hans, Option.getD_none]
      omega
  rw [hfile, hframe.file, hoff]
  have hmove := hr2.moved (p := p)
    (n := { s2.note p with want := (s2.note p).want.filter fun w => w.1 ≠ i })
    (x := { s2.inode i with lock := none }) ((s.file f).off + r.getD 0) (by omega) rfl fun _ => hd2
  rw [hfile, hframe.file] at hmove
  exact ⟨hmove.1, hproc.trans hframe.proc, hans,
    by simp [FsSt.setFile, FsSt.setInode, FsSt.setNote], hmove.2.trans hdata⟩

theorem run_writeChunk (fd : Fd) (src : List UInt8) (hsb : sb.Ok) (hr : Regular sb f i s)
    (hfd : (s.proc p).ofile fd = some f)
    (href : 1 ≤ (s.inode i).ref) (hlock : (s.inode i).lock = none)
    (hroom : (s.file f).off ≤ (data sb i s).length → (s.file f).off + src.length ≤ MAXFILE * BSIZE →
      lacks (blocksFor ((s.file f).off + src.length)) (dataBlocks (onDisk sb i s)) (onDisk sb i s) ≤
        room sb s.disk) :
    ∃ r s', (writeChunk sb fd i src).run p s = some (r, s') ∧ (s'.inode i).lock = none ∧
      (s'.inode i).ref = (s.inode i).ref := by
  -- the lock
  obtain ⟨s1, hrun1, href1, hlock1⟩ : ∃ s1, (ilock sb i).run p s = some ((), s1) ∧
      (s1.inode i).ref = (s.inode i).ref ∧ (s1.inode i).lock = some p := by
    have ht : (dinode sb s.disk (s.inode i).inum).type ≠ 0 := by
      rw [hr.type]
      decide
    by_cases hv : (s.inode i).valid = true
    · refine ⟨_, run_step (by rw [if_neg (by omega), hlock]; dsimp only; rw [if_pos hv]), ?_, ?_⟩
      · simp [FsSt.setInode, FsSt.setNote]
      · simp [FsSt.setInode, FsSt.setNote]
    · refine ⟨_, run_step (by rw [if_neg (by omega), hlock]; dsimp only; rw [if_neg hv, if_neg ht]),
        ?_, ?_⟩
      · simp [FsSt.setInode, FsSt.setNote]
      · simp [FsSt.setInode, FsSt.setNote]
  obtain ⟨hframe, hd⟩ := after_ilock hr _ _ hrun1
  have hr1 : Regular sb f i s1 := hframe.regular hr fun _ => by rw [hd, hframe.onDisk]
  -- the bytes
  have htype : (s1.inode i).d.type = T_FILE := by
    rw [hd]
    exact hr.type
  have hsize : (s1.before i).ip.size.toNat = (data sb i s).length := by
    rw [length_data, ← hd]
    rfl
  obtain ⟨a, u, hwrite⟩ : ∃ a u, writei sb (s1.inode i).inum (s.file f).off src (s1.before i) =
      .ok (a, u) := by
    by_cases hin : (s.file f).off ≤ (data sb i s).length ∧
        (s.file f).off + src.length ≤ MAXFILE * BSIZE
    · have hsat := writei_room (s := s1.before i) hsb hr1.inum_lt hr1.own
        (show dinode sb s1.disk (s1.inode i).inum = (s1.inode i).d by rw [hd, ← hframe.onDisk]; rfl)
        (by rw [show (s1.before i).ip.type = T_FILE from htype]; decide)
        (by rw [hsize]; exact hin.1) hin.2
      refine (hsat.monoError fun msg hout => ?_).returns.imp fun a h => h.imp fun u h => h.1
      have hle := hroom hin.1 hin.2
      rw [← hd, ← hframe.disk] at hle
      exact absurd hout.2 (not_lt.2 hle)
    · exact ⟨none, _, writei_refuses (by rw [hsize]; exact hin)⟩
  have hfd1 : (s1.proc p).ofile fd = some f := by
    rw [hframe.proc]
    exact hfd
  have hoff : (offOf fd).run p s1 = some ((s.file f).off, s1) := by
    refine run_step ?_
    rw [hfd1, ← hframe.file]
  have hinode : (writeInode sb i (s.file f).off src).run p s1 =
      some (a, s1.after i { s1.inode i with d := u.ip } u) := by
    have hdev : (devOf i).run p s1 = some (none, s1) := by
      refine run_step ?_
      rw [if_neg (by rw [htype]; decide)]
    exact (run_bind hdev).trans (run_onInode hwrite)
  obtain ⟨s3, hadv, href3, hlock3⟩ : ∃ s3, (advance fd (a.getD 0)).run p
      (s1.after i { s1.inode i with d := u.ip } u) = some ((), s3) ∧
      (s3.inode i).ref = (s.inode i).ref ∧ (s3.inode i).lock = some p := by
    have hfd2 : ((s1.after i { s1.inode i with d := u.ip } u).proc p).ofile fd = some f := hfd1
    refine ⟨_, run_step (by rw [hfd2]), ?_, ?_⟩
    · simpa [FsSt.setFile, FsSt.after, FsSt.setInode] using href1
    · simpa [FsSt.setFile, FsSt.after, FsSt.setInode] using hlock1
  obtain ⟨s4, hunlock, href4, hlock4⟩ : ∃ s4, (iunlock i).run p s3 = some ((), s4) ∧
      (s4.inode i).ref = (s.inode i).ref ∧ (s4.inode i).lock = none := by
    have hheld : ¬ ((s3.inode i).lock = none ∨ (s3.inode i).ref < 1) := by
      rw [hlock3, href3]
      simp
      omega
    refine ⟨_, run_step (if_neg hheld), ?_, ?_⟩
    · simpa [FsSt.setInode, FsSt.setNote] using href3
    · simp [FsSt.setInode, FsSt.setNote]
  refine ⟨a, s4, ?_, hlock4, href4⟩
  have hbegin : begin_op.run p s = some ((), s) := rfl
  have hend : end_op.run p s4 = some ((), s4) := rfl
  unfold writeChunk
  rw [run_bind hbegin, run_bind hrun1, run_bind hoff, run_bind hinode,
    run_bind hadv, run_bind hunlock, run_bind hend]
  rfl

/-! ## A call that runs alone -/

omit [DecidableEq π] in
theorem Chunk.written {r : Option Nat} (h : Chunk sb f i src s r s')
    (hin : (s.file f).off ≤ (Fs.data sb i s).length ∧
      (s.file f).off + src.length ≤ MAXFILE * BSIZE) :
    r = some src.length ∧ (s'.file f).off = (s.file f).off + src.length ∧
      Fs.data sb i s' = splice (Fs.data sb i s) (s.file f).off src := by
  have hr : r = some src.length := by
    rw [h.answer, if_pos hin]
  have hoff := h.off
  have hdata := h.data
  rw [hr, Option.getD_some] at hoff hdata
  rw [List.take_length] at hdata
  exact ⟨hr, hoff, hdata⟩

/-- What the loop of `filewrite` has done: it has written the first `m` bytes. -/
structure Loop (sb : Superblock) (f : FileId) (i : Slot) (src : List UInt8) (s : FsSt π)
    (all : Bool)
    (s' : FsSt π) (m : Nat) : Prop where
  le : m ≤ src.length
  off : (s'.file f).off = (s.file f).off + m
  data : data sb i s' = splice (data sb i s) (s.file f).off (src.take m)
  complete : all = true ↔ m = src.length
  fits : all = true ↔ src = [] ∨
    (s.file f).off ≤ (Fs.data sb i s).length ∧ (s.file f).off + src.length ≤ MAXFILE * BSIZE
  nothing : m = 0 ↔ src = [] ∨ ¬ ((s.file f).off ≤ (Fs.data sb i s).length ∧
    (s.file f).off + (src.take writeMax).length ≤ MAXFILE * BSIZE)

theorem after_writeChunks (hsb : sb.Ok) (hr : Regular sb f i s)
    (hfd : (s.proc p).ofile fd = some f) {passes : Nat} (hpasses : src.length ≤ passes) :
    (writeChunks sb fd i passes src).after p (fun all s' => ∃ m, Loop sb f i src s all s' m) s := by
  have hdone : ∀ {s : FsSt π}, Loop sb f i [] s true s 0 := fun {s} =>
    ⟨le_rfl, rfl, by rw [take_nil, splice_nil], by simp, by simp, by simp⟩
  induction passes generalizing src s with
  | zero =>
    obtain rfl : src = [] := List.length_eq_zero_iff.1 (by omega)
    exact after_ret ⟨0, by simpa using hdone⟩
  | succ passes ih =>
    unfold writeChunks
    by_cases hsrc : src = []
    · rw [if_pos hsrc, hsrc]
      exact after_ret ⟨0, hdone⟩
    rw [if_neg hsrc]
    refine after_bind (after_mono (after_writeChunk hsb hr hfd) fun r s1 hc => ?_)
    have hpos : 0 < src.length := List.length_pos_iff.2 hsrc
    have hmax : 0 < writeMax := by decide
    have hcut : (src.take writeMax).length = min writeMax src.length := length_take
    by_cases hin : (s.file f).off ≤ (data sb i s).length ∧
        (s.file f).off + (src.take writeMax).length ≤ MAXFILE * BSIZE
    · obtain ⟨rfl, hoff, hdata⟩ := hc.written hin
      dsimp only
      rw [if_pos rfl]
      have hfd1 : (s1.proc p).ofile fd = some f := by
        rw [hc.proc]
        exact hfd
      refine after_mono (ih hc.regular hfd1 (by rw [length_drop]; omega)) ?_
      rintro all s' ⟨m, hl⟩
      have hlen : (data sb i s1).length =
          max (data sb i s).length ((s.file f).off + (src.take writeMax).length) := by
        rw [hdata, length_splice hin.1]
      have hm := hl.le
      have hall := hl.complete
      have hfits := hl.fits
      rw [length_drop] at hm hall
      rw [hlen, hoff, length_drop, ← List.length_eq_zero_iff, length_drop] at hfits
      have htake : src.take ((src.take writeMax).length + m) =
          src.take writeMax ++ (src.drop writeMax).take m := by
        rw [hcut]
        by_cases hle : writeMax ≤ src.length
        · rw [min_eq_left hle, List.take_add]
        · rw [take_of_length_le (by omega), take_of_length_le (by omega),
            List.drop_eq_nil_of_le (by omega), take_nil, List.append_nil]
      refine ⟨(src.take writeMax).length + m, by omega, ?_, ?_, by rw [hall]; omega, ?_, ?_⟩
      · rw [hl.off, hoff, Nat.add_assoc]
      · rw [hl.data, hdata, hoff, splice_splice hin.1, htake]
      · rw [hfits, ← List.length_eq_zero_iff]
        omega
      · refine ⟨fun h0 => by omega, ?_⟩
        rintro (h0 | h0)
        · exact absurd h0 hsrc
        · exact absurd hin h0
    · have hans := hc.answer
      rw [if_neg hin] at hans
      have hoff := hc.off
      have hdata := hc.data
      subst hans
      refine after_ret ⟨0, Nat.zero_le _, hoff, hdata, ?_, ?_, ?_⟩
      · exact ⟨nofun, fun h0 => by omega⟩
      · refine ⟨nofun, ?_⟩
        rintro (h0 | h0)
        · exact absurd h0 hsrc
        · exact absurd ⟨h0.1, by omega⟩ hin
      · exact ⟨fun _ => .inr hin, fun _ => rfl⟩

/-- The accounting of `filewrite`: with the answer `r`, the offset has moved on by `r` bytes, the
first `r` bytes have been written there, and nothing else of the file has changed. -/
def Accounts (sb : Superblock) (f : FileId) (i : Slot) (src : List UInt8) (s : FsSt π)
    (r : Option Nat)
    (s' : FsSt π) : Prop :=
  (s'.file f).off = (s.file f).off + r.getD 0 ∧
  data sb i s' = splice (data sb i s) (s.file f).off (src.take (r.getD 0))

def Torn (sb : Superblock) (f : FileId) (i : Slot) (src : List UInt8) (s : FsSt π) : Prop :=
  (s.file f).off ≤ (data sb i s).length ∧
  (s.file f).off + min writeMax src.length ≤ MAXFILE * BSIZE ∧
  MAXFILE * BSIZE < (s.file f).off + src.length

theorem after_filewrite_of {Q : Bool → FsSt π → Prop} (hr : Regular sb f i s)
    (hfd : (s.proc p).ofile fd = some f) (h : (writeChunks sb fd i src.length src).after p Q s) :
    (filewrite sb fd src).after p (fun r s' => ∃ all, Q all s' ∧
      r = if all then some src.length else none) s := by
  unfold filewrite
  refine after_bind (after_step fun _ s0 hf => ?_)
  rw [hfd] at hf
  cases hf
  simp only [Option.map_some, hr.writable, hr.kind, hr.ip, Bool.true_eq_false, if_false]
  exact after_bind (after_mono h fun all s1 hQ => after_ret ⟨all, hQ, rfl⟩)

/-- The accounting of a call that runs alone is right unless the limit of the file size lies between
the end of the first chunk and the end of the data. -/
theorem filewrite_accounts_iff (hsb : sb.Ok) (hr : Regular sb f i s)
    (hfd : (s.proc p).ofile fd = some f) {r : Option Nat}
    (hrun : (filewrite sb fd src).run p s = some (r, s')) :
    Accounts sb f i src s r s' ↔ ¬ Torn sb f i src s := by
  obtain ⟨all, ⟨m, hl⟩, hans⟩ :=
    after_filewrite_of hr hfd (after_writeChunks hsb hr hfd le_rfl) r s' hrun
  have hmax : 0 < writeMax := by decide
  have hcut : (src.take writeMax).length = min writeMax src.length := length_take
  have hcomplete := hl.complete
  have hfits := hl.fits
  have hnothing := hl.nothing
  have hoff := hl.off
  rw [← List.length_eq_zero_iff] at hfits hnothing
  -- the accounting is right iff the bytes written are those of the answer
  have hm : Accounts sb f i src s r s' ↔ m = r.getD 0 := by
    refine ⟨fun h => ?_, fun h => ?_⟩
    · have := h.1
      omega
    · rw [Accounts, ← h]
      exact ⟨hl.off, hl.data⟩
  rw [hm, hans, Torn]
  cases all with
  | true =>
    simp only [if_true, Option.getD_some]
    simp only [true_iff] at hcomplete hfits
    omega
  | false =>
    simp only [Bool.false_eq_true, if_false, Option.getD_none]
    simp only [Bool.false_eq_true, false_iff] at hcomplete hfits
    omega

theorem run_writeChunks_cons (passes : Nat) (hsrc : src ≠ [])
    (h : (writeChunk sb fd i (src.take writeMax)).run p s =
      some (some (src.take writeMax).length, s1)) :
    (writeChunks sb fd i (passes + 1) src).run p s =
      (writeChunks sb fd i passes (src.drop writeMax)).run p s1 := by
  rw [writeChunks, if_neg hsrc, run_bind h]
  dsimp only
  rw [if_pos rfl]

theorem run_writeChunks_stop (passes : Nat) (hsrc : src ≠ [])
    (h : (writeChunk sb fd i (src.take writeMax)).run p s = some (none, s1)) :
    (writeChunks sb fd i (passes + 1) src).run p s = some (false, s1) := by
  rw [writeChunks, if_neg hsrc, run_bind h]
  rfl

theorem run_filewrite (all : Bool) (hr : Regular sb f i s) (hfd : (s.proc p).ofile fd = some f)
    (h : (writeChunks sb fd i src.length src).run p s = some (all, s')) :
    (filewrite sb fd src).run p s = some (if all then some src.length else none, s') := by
  have hfile : (fileOf fd).run p s = some (some (s.file f), s) :=
    run_step (by rw [hfd, Option.map_some])
  unfold filewrite
  rw [run_bind hfile]
  simp only [hr.writable, hr.kind, hr.ip, Bool.true_eq_false, if_false]
  rw [run_bind h]
  rfl

/-- Processes that share the file of the inode in `u`, open at `off`. -/
def openAt (u : InodeSt) (off : Nat) : FsSt π where
  disk := u.disk
  inode := fun i => ⟨ROOTDEV, 1, if i = 0 then 1 else 0, none, decide (i = 0), u.ip⟩
  file := fun f => ⟨if f = 0 then .inode else .none, if f = 0 then 1 else 0, true, true, 0, off⟩
  proc := fun _ => ⟨true, none, fun fd => if fd = 0 then some 0 else none⟩
  note := fun _ => Note.none
  stamp := fun _ => 0
  clock := 0
  given := []
  logged := []

omit [DecidableEq π] in
theorem regular_openAt {u : InodeSt} (off : Nat) (hown : Owner bigSb u.disk)
    (hip : dinode bigSb u.disk 1 = u.ip) (ht : u.ip.type = T_FILE) (hoff : off < 2 ^ 32) :
    Regular bigSb 0 0 (openAt u off : FsSt π) :=
  ⟨hown, rfl, rfl, rfl, hoff, (by decide : 1 < 8), fun _ => hip.symm, by rw [← ht, ← hip]; rfl⟩

/-- A file of the largest size is written 3072 bytes from the offset 70144 on: the call answers -1,
but the first 1536 bytes are written and the offset is 71680. -/
theorem filewrite_torn : ∃ (s s' : FsSt Unit), Regular bigSb 0 0 s ∧ (s.file 0).off = 70144 ∧
    (s.proc ()).ofile 0 = some 0 ∧
    (filewrite bigSb 0 (List.replicate 3072 7)).run () s = some (none, s') ∧
    (s'.file 0).off = 71680 ∧
    data bigSb 0 s' = splice (data bigSb 0 s) 70144 (List.replicate 1536 7) ∧
    ¬ Accounts bigSb 0 0 (List.replicate 3072 7) s none s' := by
  obtain ⟨u, hown, hip, ht, hsize⟩ := exists_file (n := 71680) (by decide)
  have hr := regular_openAt (π := Unit) 70144 hown hip ht (by decide)
  have hlen : (data bigSb 0 (openAt u 70144 : FsSt Unit)).length = 71680 := by
    rw [length_data, ← hsize, ← hip]
    rfl
  have hoff : ((openAt u 70144 : FsSt Unit).file 0).off = 70144 := rfl
  have htake : (List.replicate 3072 (7 : UInt8)).take writeMax = List.replicate 1536 7 := by
    rw [List.take_replicate]
    rfl
  have hdrop : (List.replicate 3072 (7 : UInt8)).drop writeMax = List.replicate 1536 7 := by
    rw [List.drop_replicate]
    rfl
  have hlen' : (List.replicate 1536 (7 : UInt8)).length = 1536 := List.length_replicate
  -- the first chunk is within the limits, and the file has all blocks
  obtain ⟨r1, s1, hrun1, hlock1, href1⟩ := run_writeChunk (p := ()) 0
    (List.replicate 1536 7) ok_bigSb hr rfl (le_refl 1) rfl
    (fun _ _ => hr.no_lack (by rw [hlen, hlen', hoff]))
  have hc1 := after_writeChunk ok_bigSb hr rfl _ _ hrun1
  obtain ⟨rfl, hoff1, hdata1⟩ :=
    hc1.written ⟨by rw [hlen, hoff]; decide, by rw [hlen', hoff]; decide⟩
  have hoff1 : (s1.file 0).off = 71680 := by
    rw [hoff1, hlen']
    rfl
  -- the second one is not
  have hfd1 : (s1.proc ()).ofile 0 = some 0 := by
    rw [hc1.proc]
    rfl
  obtain ⟨r2, s2, hrun2, -, -⟩ := run_writeChunk (p := ()) 0
    (List.replicate 1536 7) ok_bigSb hc1.regular hfd1 (by rw [href1]; exact le_refl 1) hlock1
    (fun _ h => by
      rw [hoff1, hlen'] at h
      exact absurd h (by decide))
  have hc2 := after_writeChunk ok_bigSb hc1.regular hfd1 _ _ hrun2
  have hr2 : r2 = none := by
    rw [hc2.answer, if_neg]
    rw [hoff1, hlen']
    exact fun h => absurd h.2 (by decide)
  subst hr2
  have hne : ∀ n, List.replicate (n + 1) (7 : UInt8) ≠ [] := fun n => by simp [List.replicate_succ]
  have hoff2 : (s2.file 0).off = 71680 := by
    rw [hc2.off, hoff1]
    rfl
  refine ⟨openAt u 70144, s2, hr, rfl, rfl, ?_, hoff2, ?_, fun h => ?_⟩
  · refine run_filewrite false hr rfl ?_
    have hlast : (List.replicate 1536 (7 : UInt8)).take writeMax = List.replicate 1536 7 :=
      take_of_length_le hlen'.le
    rw [List.length_replicate, run_writeChunks_cons 3071 (hne _) (by rw [htake]; exact hrun1),
      hdrop, run_writeChunks_stop 3070 (hne _) (by rw [hlast]; exact hrun2)]
  · rw [hc2.data, Option.getD_none, List.take_zero, splice_nil, hdata1]
    rfl
  · have := h.1
    rw [hoff2, hoff] at this
    exact absurd this (by decide)

theorem filewrite_accounts_byte : ∃ (s s' : FsSt Unit),
    (filewrite bigSb 0 [7]).run () s = some (some 1, s') ∧ Accounts bigSb 0 0 [7] s
    (some 1) s' := by
  obtain ⟨u, hown, hip, ht, hsize⟩ := exists_file (n := 1) (by decide)
  have hr := regular_openAt (π := Unit) 0 hown hip ht (by decide)
  have hoff : ((openAt u 0 : FsSt Unit).file 0).off = 0 := rfl
  have hlen : (data bigSb 0 (openAt u 0 : FsSt Unit)).length = 1 := by
    rw [length_data, ← hsize, ← hip]
    rfl
  obtain ⟨r, s', hrun, -, -⟩ := run_writeChunk (p := ()) 0 [7] ok_bigSb hr rfl
    (le_refl 1) rfl (fun _ _ => hr.no_lack (by rw [hlen, hoff]; decide))
  have hc := after_writeChunk ok_bigSb hr rfl _ _ hrun
  obtain ⟨rfl, -, -⟩ := hc.written ⟨by rw [hoff]; exact Nat.zero_le _, by rw [hoff]; decide⟩
  have hall : (filewrite bigSb 0 [7]).run () (openAt u 0) = some (some 1, s') :=
    run_filewrite true hr rfl (run_writeChunks_cons 0 (by simp) hrun)
  refine ⟨openAt u 0, s', hall, (filewrite_accounts_iff ok_bigSb hr rfl hall).2 fun h => ?_⟩
  exact absurd h.2.2 (by rw [hoff]; decide)

end Xv6.Fs
