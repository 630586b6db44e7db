import Xv6.Fs.ByteArray
import Xv6.Fs.Calls
import Xv6.Lib.Trace

/-!
# Transactions

On every way through every system call, `begin_op` and `end_op` alternate and are balanced at the
end, and each `iput` and each action that calls `log_write` stands between them. The ways are taken
through any states whatever, except that a file that nobody has open has no type: so `fileclose` in
the middle of `sys_open` puts no inode.

The actions that only read an inode call `bmap`, which would log a new block. On a disk without
holes it does not.
-/

namespace Xv6.Fs

open Lib
open Prog (guided_bind guided_ret guided_step run_step)

/-! ## The discipline -/

def Lab.inOp : Lab → Bool
  | .iput _ | .readRef _ | .free _ | .erase _ | .log => true
  | _ => false

/-- Is the process in a transaction after an action? None if the action has no place here. -/
def bracket (o : Bool) (l : Lab) : Option Bool :=
  match l with
  | .beginOp => if o then none else some true
  | .endOp => if o then some false else none
  | l => if l.inOp && !o then none else some o

variable {π : Type}

def FilesOk (s : FsSt π) : Prop := ∀ f, (s.file f).ref = 0 → (s.file f).type = .none

/-- The discipline from `o` to `o'`. -/
abbrev Brackets (p : π) (o o' : Bool) {α : Type} (x : FsProg π α) : Prop :=
  x.Guided bracket FilesOk p o o'

variable {p : π} {o o' : Bool} {α : Type} {i dp ip : Slot}

variable {f : π → FsSt π → Outcome (FsSt π) α}

theorem brackets_other : Brackets p o o (.step .other f) := guided_step rfl

variable {l : Lab}

theorem brackets_log (hl : l.inOp = true) : Brackets p true true (.step l f) := by
  refine guided_step ?_
  cases l <;> first | rfl | cases hl

theorem brackets_panic {msg : String} : Brackets p o o' (panic msg : FsProg π α) := by
  refine Prog.guided_act (u := o) rfl ?_
  rintro b ⟨s, s', -, hf⟩
  cases hf

theorem brackets_begin : Brackets p false true begin_op := guided_step rfl

theorem brackets_end : Brackets p true false end_op := guided_step rfl

variable [DecidableEq π] {sb : Superblock}

theorem brackets_ilock : Brackets p o o (ilock sb i) := guided_step rfl

theorem brackets_iput : Brackets p true true (iput sb i) := by
  refine guided_bind (brackets_log rfl) fun unlinked => ?_
  refine guided_bind (u := true) ?_ fun _ => guided_bind brackets_other fun _ =>
    brackets_other
  unfold iputDecide
  split
  · refine guided_bind (brackets_log rfl) fun r => ?_
    split
    · exact brackets_log rfl
    · exact guided_ret ()
  · exact guided_ret ()

theorem brackets_iunlockput : Brackets p true true (iunlockput sb i) :=
  guided_bind brackets_other fun _ => brackets_iput

/-! ## Directories and paths -/

variable {name : Name}

theorem brackets_dirlookup : Brackets p o o (dirlookup sb dp name) := by
  refine guided_bind brackets_other fun r => ?_
  cases r with
  | none => exact guided_ret none
  | some x => exact guided_bind brackets_other fun i => guided_ret _

variable {e : Nat}

theorem brackets_dirlink : Brackets p true true (dirlink sb dp name e) := by
  refine guided_bind brackets_dirlookup fun r => ?_
  cases r with
  | none => exact guided_bind (brackets_log rfl) fun _ => guided_ret true
  | some x => exact guided_bind brackets_iput fun _ => guided_ret false

variable {parent : Bool}

theorem brackets_walkFrom {names : List Name} :
    Brackets p true true (walkFrom sb parent ip names) := by
  induction names generalizing ip with
  | nil =>
    unfold walkFrom
    split
    · exact guided_bind brackets_iput fun _ => guided_ret none
    · exact guided_ret _
  | cons name rest ih =>
    unfold walkFrom
    refine guided_bind brackets_ilock fun _ => guided_bind brackets_other fun t => ?_
    split
    · exact guided_bind brackets_iunlockput fun _ => guided_ret none
    split
    · exact guided_bind brackets_other fun _ => guided_ret _
    refine guided_bind brackets_dirlookup fun r => ?_
    cases r with
    | none => exact guided_bind brackets_iunlockput fun _ => guided_ret none
    | some x => exact guided_bind brackets_iunlockput fun _ => ih

theorem brackets_namex {path : Path} : Brackets p true true (namex sb parent path) := by
  refine guided_bind (u := true) ?_ fun ip => brackets_walkFrom
  unfold startOf
  split <;> exact brackets_other

theorem brackets_namei {path : Path} : Brackets p true true (namei sb path) :=
  guided_bind brackets_namex fun _ => guided_ret _

/-! ## Creating and removing entries -/

variable {type : BitVec 16}

theorem brackets_createDots : Brackets p true true (createDots sb dp ip e type) := by
  unfold createDots
  split
  · refine guided_bind (brackets_log rfl) fun _ => guided_bind brackets_dirlink fun ok => ?_
    split
    · refine guided_bind brackets_other fun de => guided_bind brackets_dirlink fun ok => ?_
      split
      · exact guided_ret ()
      · exact brackets_panic
    · exact brackets_panic
  · exact guided_ret ()

theorem brackets_ialloc : Brackets p true true (ialloc sb dp type) := by
  unfold ialloc
  induction (List.range (sb.ninodes.toNat - 1)).map (· + 1) with
  | nil => exact brackets_panic
  | cons e es ih =>
    refine guided_bind (brackets_log rfl) fun free => ?_
    split
    · exact brackets_other
    · exact ih

variable {major minor : BitVec 16}

theorem brackets_createNew : Brackets p true true (createNew sb dp name type major minor) := by
  refine guided_bind brackets_ialloc fun ip => guided_bind brackets_ilock fun _ =>
    guided_bind (brackets_log rfl) fun _ => guided_bind brackets_other fun e =>
    guided_bind brackets_createDots fun _ => guided_bind brackets_dirlink fun ok => ?_
  split
  · exact guided_bind brackets_iunlockput fun _ => guided_ret _
  · exact brackets_panic

theorem brackets_create {path : Path} : Brackets p true true (create sb path type major minor) := by
  refine guided_bind brackets_namex fun r => ?_
  cases r with
  | none => exact guided_ret none
  | some x =>
    refine guided_bind brackets_ilock fun _ => guided_bind brackets_dirlookup fun r => ?_
    cases r with
    | none => exact brackets_createNew
    | some y =>
      refine guided_bind brackets_iunlockput fun _ => guided_bind brackets_ilock fun _ =>
        guided_bind brackets_other fun t => ?_
      split
      · exact guided_ret _
      · exact guided_bind brackets_iunlockput fun _ => guided_ret none

theorem brackets_putEnd : Brackets p true false (do iunlockput sb i; end_op) :=
  guided_bind brackets_iunlockput fun _ => brackets_end

theorem brackets_unlinkBack : Brackets p true false (unlinkBack sb ip) :=
  guided_bind brackets_ilock fun _ => guided_bind (brackets_log rfl) fun _ =>
    brackets_putEnd

theorem brackets_linkInto : Brackets p true true (linkInto sb dp ip name) := by
  refine guided_bind brackets_ilock fun _ => guided_bind brackets_other fun other => ?_
  split
  · exact guided_ret false
  · exact guided_bind brackets_other fun e => brackets_dirlink

theorem brackets_sysLink {old new : Option Path} : Brackets p false false (sysLink sb old new) := by
  unfold sysLink
  split
  · refine guided_bind brackets_begin fun _ => guided_bind brackets_namei fun r => ?_
    cases r with
    | none => exact brackets_end
    | some ip =>
      refine guided_bind brackets_ilock fun _ => guided_bind brackets_other fun t => ?_
      split
      · exact brackets_putEnd
      refine guided_bind (brackets_log rfl) fun _ => guided_bind brackets_other fun _ =>
        guided_bind brackets_namex fun r => ?_
      cases r with
      | none => exact brackets_unlinkBack
      | some x =>
        refine guided_bind brackets_linkInto fun linked =>
          guided_bind brackets_iunlockput fun _ => ?_
        split
        · exact guided_bind brackets_iput fun _ => brackets_end
        · exact brackets_unlinkBack
  · exact guided_ret ()

variable {off : Nat}

theorem brackets_unlinkEntry {dir : Bool} :
    Brackets p true false (unlinkEntry sb dp ip off dir) := by
  refine guided_bind (brackets_log rfl) fun _ => guided_bind (u := true) ?_ fun _ =>
    guided_bind brackets_iunlockput fun _ => guided_bind (brackets_log rfl) fun _ =>
    brackets_putEnd
  unfold dropDotdot
  split
  · exact brackets_log rfl
  · exact guided_ret ()

variable {path : Option Path}

theorem brackets_sysUnlink : Brackets p false false (sysUnlink sb path) := by
  unfold sysUnlink
  cases path with
  | none => exact guided_ret ()
  | some path =>
    refine guided_bind brackets_begin fun _ => guided_bind brackets_namex fun r => ?_
    cases r with
    | none => exact brackets_end
    | some x =>
      refine guided_bind brackets_ilock fun _ => ?_
      dsimp only
      split
      · exact brackets_putEnd
      refine guided_bind brackets_dirlookup fun r => ?_
      cases r with
      | none => exact brackets_putEnd
      | some y =>
        refine guided_bind brackets_ilock fun _ => guided_bind brackets_other fun c => ?_
        split
        · exact brackets_unlinkEntry
        · exact guided_bind brackets_iunlockput fun _ => brackets_putEnd

/-! ## Files -/

section
omit [DecidableEq π]

theorem FilesOk.putOf {s : FsSt π} (h : FilesOk s) {f : FileId} (hf : (s.file f).ref = 0) :
    (s.file f).putOf = none := by
  unfold File.putOf
  rw [h f hf]
  exact if_neg nofun

theorem brackets_endNone : Brackets p true false (do end_op; return none : FsProg π (Option Fd)) :=
  guided_bind brackets_end fun _ => guided_ret _

end

/-- Without a file or a descriptor for it, the open fails and changes nothing. -/
theorem FilesOk.run_openFile {s : FsSt π} (h : FilesOk s) (p : π) :
    ((∀ f, (s.file f).ref ≠ 0) ∨ ∀ fd, (s.proc p).ofile fd ≠ none) ∧
      openFile.run p s = some (.failed none, s) ∨
    ∃ f fd, (s.file f).ref = 0 ∧
      ((List.finRange NOFILE).find? fun fd => ((s.proc p).ofile fd).isNone) = some fd ∧
      openFile.run p s = some (.ok f fd, (s.setFile f { s.file f with ref := 1 }).setProc p
        { s.proc p with ofile := Function.update (s.proc p).ofile fd (some f) }) := by
  cases hf : (List.finRange NFILE).find? fun f => (s.file f).ref == 0 with
  | none => exact .inl ⟨.inl (by simpa using hf), run_step (by simp only [hf])⟩
  | some f =>
    have href : (s.file f).ref = 0 := by simpa using List.find?_some hf
    cases hfd : (List.finRange NOFILE).find? fun fd => ((s.proc p).ofile fd).isNone with
    | none =>
      have hsame : s.setFile f { s.file f with type := .none } = s := by
        rw [← h f href]
        simp [FsSt.setFile]
      refine .inl ⟨.inr (by simpa using hfd), run_step ?_⟩
      simp only [hf, hfd, h.putOf href, hsame]
    | some fd => exact .inr ⟨f, fd, href, rfl, run_step (by simp only [hf, hfd])⟩

theorem brackets_putEndNone :
    Brackets p true false (do iunlockput sb i; end_op; return none : FsProg π (Option Fd)) :=
  guided_bind brackets_iunlockput fun _ => brackets_endNone

variable {omode : BitVec 32}

theorem brackets_openInode : Brackets p true false (openInode sb ip omode) := by
  refine Prog.guided_step_bind (u := true) rfl ?_
  rintro r ⟨s, s', hI, hf⟩
  cases r with
  | ok f fd =>
    exact guided_bind brackets_other fun _ => guided_bind brackets_end fun _ =>
      guided_bind brackets_other fun _ => guided_ret _
  | failed put =>
    have hput : put = none := by
      split at hf
      · cases hf
        rfl
      · next f hfind =>
        split at hf
        · cases hf
          exact hI.putOf (by simpa using List.find?_some hfind)
        · cases hf
    subst hput
    exact brackets_putEndNone

theorem brackets_sysOpen : Brackets p false false (sysOpen sb path omode) := by
  unfold sysOpen
  cases path with
  | none => exact guided_ret _
  | some path =>
    refine guided_bind brackets_begin fun _ => ?_
    split
    · refine guided_bind brackets_create fun r => ?_
      cases r with
      | none => exact brackets_endNone
      | some ip => exact brackets_openInode
    · refine guided_bind brackets_namei fun r => ?_
      cases r with
      | none => exact brackets_endNone
      | some ip =>
        refine guided_bind brackets_ilock fun _ => guided_bind brackets_other fun t => ?_
        split
        · exact brackets_putEndNone
        · exact brackets_openInode

theorem brackets_sysMake : Brackets p false false (sysMake sb path type major minor) := by
  refine guided_bind brackets_begin fun _ => ?_
  cases path with
  | none => exact brackets_end
  | some path =>
    refine guided_bind brackets_create fun r => ?_
    cases r with
    | none => exact brackets_end
    | some ip => exact brackets_putEnd

theorem brackets_sysChdir : Brackets p false false (sysChdir sb path) := by
  refine guided_bind brackets_begin fun _ => ?_
  cases path with
  | none => exact brackets_end
  | some path =>
    refine guided_bind brackets_namei fun r => ?_
    cases r with
    | none => exact brackets_end
    | some ip =>
      refine guided_bind brackets_ilock fun _ => guided_bind brackets_other fun t => ?_
      split
      · exact brackets_putEnd
      · exact guided_bind brackets_other fun _ => guided_bind brackets_other fun old =>
          guided_bind brackets_iput fun _ => guided_bind brackets_end fun _ =>
          brackets_other

theorem brackets_console : Brackets p o o (console sb i) :=
  guided_bind brackets_other fun _ => brackets_ilock

variable {n : Nat} {con : Option Nat}

theorem brackets_readInode : Brackets p o o (readInode sb i off n con) := by
  refine guided_bind brackets_other fun d => ?_
  split
  · exact guided_bind brackets_console fun _ => guided_ret _
  · exact guided_ret _
  · exact guided_bind brackets_other fun l => guided_ret _

variable {fd : Fd}

theorem brackets_sysRead : Brackets p false false (sysRead sb fd n con) := by
  refine guided_bind brackets_other fun f => ?_
  cases f with
  | none => exact guided_ret ()
  | some f =>
    dsimp only
    split
    · exact guided_ret ()
    split
    · exact brackets_panic
    · exact guided_ret ()
    · exact guided_bind brackets_ilock fun _ => guided_bind brackets_other fun off =>
        guided_bind brackets_readInode fun r => guided_bind brackets_other fun _ =>
        brackets_other

variable {src : List UInt8}

theorem brackets_writeChunk : Brackets p false false (writeChunk sb fd i src) := by
  refine guided_bind brackets_begin fun _ => guided_bind brackets_ilock fun _ =>
    guided_bind brackets_other fun off => guided_bind (u := true) ?_ fun r =>
    guided_bind brackets_other fun _ => guided_bind brackets_other fun _ =>
    guided_bind brackets_end fun _ => guided_ret r
  refine guided_bind brackets_other fun d => ?_
  split
  · exact guided_bind brackets_console fun _ => guided_ret _
  · exact guided_ret _
  · exact brackets_log rfl

theorem brackets_writeChunks {passes : Nat} :
    Brackets p false false (writeChunks sb fd i passes src) := by
  induction passes generalizing src with
  | zero => exact guided_ret _
  | succ passes ih =>
    unfold writeChunks
    split
    · exact guided_ret _
    refine guided_bind brackets_writeChunk fun r => ?_
    cases r with
    | none => exact guided_ret _
    | some r =>
      dsimp only
      split
      · exact ih
      · exact brackets_panic

theorem brackets_filewrite : Brackets p false false (filewrite sb fd src) := by
  refine guided_bind brackets_other fun f => ?_
  cases f with
  | none => exact guided_ret _
  | some f =>
    dsimp only
    split
    · exact guided_ret _
    split
    · exact brackets_panic
    · exact guided_ret _
    · exact guided_bind brackets_writeChunks fun _ => guided_ret _

theorem brackets_sysWrite : Brackets p false false (sysWrite sb fd src) :=
  guided_bind brackets_filewrite fun _ => guided_ret _

theorem brackets_putClosed {put : Option Slot} : Brackets p false false (putClosed sb put) := by
  cases put with
  | none => exact guided_ret ()
  | some i =>
    exact guided_bind brackets_begin fun _ => guided_bind brackets_iput fun _ =>
      brackets_end

theorem brackets_sysClose : Brackets p false false (sysClose sb fd) :=
  guided_bind brackets_other fun _ => brackets_putClosed

theorem brackets_sysPipe {mem : Bool} : Brackets p false false (sysPipe sb mem) := by
  refine guided_bind brackets_other fun put => ?_
  induction put with
  | nil => exact guided_ret ()
  | cons i is ih => exact guided_bind brackets_putClosed fun _ => ih

theorem brackets_sysExec {reads : List (Nat × Nat × Bool)} {stack : Bool} :
    Brackets p false false (sysExec sb path reads stack) := by
  unfold sysExec
  cases path with
  | none => exact guided_ret ()
  | some path =>
    refine guided_bind brackets_begin fun _ => guided_bind brackets_namei fun r => ?_
    cases r with
    | none => exact brackets_end
    | some ip =>
      refine guided_bind brackets_ilock fun _ => guided_bind (u := true) ?_ fun good => ?_
      · induction reads with
        | nil => exact guided_ret true
        | cons x reads ih =>
          refine guided_bind brackets_readInode fun _ => ?_
          split
          · exact ih
          · exact guided_ret false
      · split
        · refine guided_bind brackets_iunlockput fun _ => guided_bind brackets_end fun _ => ?_
          split <;> exact guided_ret ()
        · exact brackets_putEnd

theorem brackets_sysExit : Brackets p false false (sysExit sb) := by
  refine guided_bind (u := false) ?_ fun _ => guided_bind brackets_begin fun _ =>
    guided_bind brackets_other fun i => guided_bind brackets_iput fun _ =>
    guided_bind brackets_end fun _ => brackets_other
  induction List.finRange NOFILE with
  | nil => exact guided_ret ()
  | cons fd fds ih => exact guided_bind brackets_sysClose fun _ => ih

/-! ## All system calls -/

/-- A system call with its arguments. Of `exec` these are the reads that the image asks for, with
what comes of them, and whether there is a stack, and of `pipe` whether there is a page. -/
inductive Call (π : Type) where
  | open (path : Option Path) (omode : BitVec 32)
  | mkdir (path : Option Path)
  | mknod (path : Option Path) (major minor : BitVec 16)
  | link (old new : Option Path)
  | unlink (path : Option Path)
  | chdir (path : Option Path)
  | exec (path : Option Path) (reads : List (Nat × Nat × Bool)) (stack : Bool)
  | read (fd : Fd) (n : Nat) (con : Option Nat)
  | write (fd : Fd) (src : List UInt8)
  | close (fd : Fd)
  | dup (fd : Fd)
  | pipe (mem : Bool)
  | fork (q : π)
  | exit

def Call.prog (sb : Superblock) : Call π → FsProg π Unit
  | .open path omode => do
    let _ ← sysOpen sb path omode
    return ()
  | .mkdir path => sysMkdir sb path
  | .mknod path major minor => sysMknod sb path major minor
  | .link old new => sysLink sb old new
  | .unlink path => sysUnlink sb path
  | .chdir path => sysChdir sb path
  | .exec path reads stack => sysExec sb path reads stack
  | .read fd n con => sysRead sb fd n con
  | .write fd src => sysWrite sb fd src
  | .close fd => sysClose sb fd
  | .dup fd => sysDup fd
  | .pipe mem => sysPipe sb mem
  | .fork q => sysFork q
  | .exit => sysExit sb

theorem Call.brackets (c : Call π) : Brackets p false false (c.prog sb) := by
  cases c with
  | «open» path omode => exact guided_bind brackets_sysOpen fun _ => guided_ret _
  | mkdir path => exact brackets_sysMake
  | mknod path major minor => exact brackets_sysMake
  | link old new => exact brackets_sysLink
  | unlink path => exact brackets_sysUnlink
  | chdir path => exact brackets_sysChdir
  | exec path reads stack => exact brackets_sysExec
  | read fd n con => exact brackets_sysRead
  | write fd src => exact brackets_sysWrite
  | close fd => exact brackets_sysClose
  | dup fd => exact brackets_other
  | pipe mem => exact brackets_sysPipe
  | fork q => exact brackets_other
  | exit => exact brackets_sysExit

/-! ## Many processes -/

/-- What a process does in its life: calls one after the other, the last of which may not have
ended. -/
inductive Session (sb : Superblock) (p : π) : List Lab → Prop
  | last {c : Call π} {tr : List Lab} {r : Option Unit} (h : (c.prog sb).Path FilesOk p tr r) :
    Session sb p tr
  | next {c : Call π} {tr tr' : List Lab} {a : Unit}
    (h : (c.prog sb).Path FilesOk p tr (some a)) (h' : Session sb p tr') : Session sb p (tr ++ tr')

theorem Session.brackets {tr : List Lab} (h : Session sb p tr) :
    ∃ o, tr.foldlM bracket false = some o := by
  induction h with
  | last h =>
    obtain ⟨o, ho, -⟩ := Call.brackets _ _ _ h
    exact ⟨o, ho⟩
  | next h _ ih =>
    obtain ⟨o, ho, hend⟩ := Call.brackets _ _ _ h
    obtain ⟨o', ho'⟩ := ih
    refine ⟨o', ?_⟩
    rw [List.foldlM_append, ho, hend rfl]
    exact ho'

/-- What process `p` does in a run of all processes. -/
def labelsOf (p : π) (g : List (π × Lab)) : List Lab := (g.filter fun x => x.1 = p).map Prod.snd

/-- `log.outstanding`, from `n` on. -/
def outstanding (n : Nat) (g : List (π × Lab)) : Nat :=
  g.foldl (fun n x => match x.2 with
    | .beginOp => n + 1
    | .endOp => n - 1
    | _ => n) n

def track (S : Finset π) (x : π × Lab) : Finset π :=
  match x.2 with
  | .beginOp => insert x.1 S
  | .endOp => S.erase x.1
  | _ => S

variable {g : List (π × Lab)}

theorem labelsOf_cons_self : labelsOf p ((p, l) :: g) = l :: labelsOf p g := by
  simp [labelsOf]

theorem labelsOf_cons_ne {q : π} (h : q ≠ p) : labelsOf p ((q, l) :: g) = labelsOf p g := by
  simp [labelsOf, h]

variable {S : Finset π}

theorem track_step (h : bracket (decide (p ∈ S)) l = some o) :
    o = decide (p ∈ track S (p, l)) ∧ outstanding S.card [(p, l)] = (track S (p, l)).card ∧
      ∀ q, q ≠ p → (q ∈ track S (p, l) ↔ q ∈ S) := by
  by_cases hp : p ∈ S
  · cases l <;> simp_all [bracket, track, outstanding, Lab.inOp, Finset.card_erase_of_mem]
  · cases l <;> simp_all [bracket, track, outstanding, Lab.inOp]

theorem outstanding_pos {g1 g2 : List (π × Lab)}
    (h : ∀ q, ∃ o, (labelsOf q (g1 ++ (p, l) :: g2)).foldlM bracket (decide (q ∈ S)) = some o)
    (hl : l.inOp = true) : 1 ≤ outstanding S.card g1 := by
  induction g1 generalizing S with
  | nil =>
    obtain ⟨o, ho⟩ := h p
    rw [List.nil_append, labelsOf_cons_self, List.foldlM_cons] at ho
    have hp : p ∈ S := by
      by_contra hp
      cases l <;> simp_all [bracket, Lab.inOp]
    exact Finset.card_pos.2 ⟨p, hp⟩
  | cons x g1 ih =>
    obtain ⟨q, m⟩ := x
    obtain ⟨o, ho⟩ := h q
    rw [List.cons_append, labelsOf_cons_self, List.foldlM_cons] at ho
    obtain ⟨o1, h1, h2⟩ := Option.bind_eq_some_iff.1 ho
    obtain ⟨hself, hcard, hother⟩ := track_step h1
    have hout : outstanding S.card ((q, m) :: g1) = outstanding (track S (q, m)).card g1 := by
      rw [← hcard]
      rfl
    rw [hout]
    refine ih fun q' => ?_
    by_cases hq : q' = q
    · subst hq
      exact ⟨o, by rw [← hself]; exact h2⟩
    · obtain ⟨o', ho'⟩ := h q'
      rw [List.cons_append, labelsOf_cons_ne (Ne.symm hq)] at ho'
      refine ⟨o', ?_⟩
      simp only [hother q' hq]
      exact ho'

/-! ## Reading -/

/-- The code leaves the disk, the inode and the record of new blocks as they are, so that it calls
`log_write` for none. -/
def Silent {α : Type} (x : FsM α) (s : InodeSt) : Prop := ∀ a s', x s = .ok (a, s') → s' = s

theorem silent_of_sat {x : FsM α} {s : InodeSt} {Q : α → Prop} {E : String → Prop}
    (h : Sat x s (fun a s' => s' = s ∧ Q a) E) : Silent x s :=
  fun _ _ hx => (h.ok hx).1

/-- On every way through a system call `begin_op` and `end_op` alternate, starting with `begin_op`;
they are balanced when the call returns; and an `iput` or an action that calls `log_write` stands
between them. In every interleaving of processes that make such calls, one transaction is
outstanding when `log_write` is called, so that it does not panic. The code that only reads a locked
inode on a disk without holes calls it nowhere. -/
theorem transactions (sb : Superblock) :
    (∀ (p : π) (c : Call π) (tr : List Lab) (r : Option Unit), (c.prog sb).Path FilesOk p tr r →
      ∃ o, tr.foldlM bracket false = some o ∧ (r.isSome → o = false)) ∧
    (∀ g1 (p : π) (l : Lab) g2, (∀ q, Session sb q (labelsOf q (g1 ++ (p, l) :: g2))) →
      l.inOp = true → 1 ≤ outstanding 0 g1) ∧
    ∀ (s : InodeSt) (i : Nat), sb.Ok → i < sb.ninodes.toNat → Owner sb s.disk →
      dinode sb s.disk i = s.ip → s.ip.type ≠ 0 →
      (∀ off n, Silent (readi sb off n) s) ∧ (∀ name, Silent (lookup sb name) s) ∧
        Silent (isdirempty sb) s := by
  refine ⟨fun p c => c.brackets, fun g1 p l g2 h hl => ?_, fun s i hsb hi h hip ht => ?_⟩
  · have hS : (∅ : Finset π).card = 0 := rfl
    rw [← hS]
    have hlabels : ∀ q, ∃ o, (labelsOf q (g1 ++ (p, l) :: g2)).foldlM bracket
        (decide (q ∈ (∅ : Finset π))) = some o := by
      intro q
      obtain ⟨o, ho⟩ := (h q).brackets
      exact ⟨o, by simpa using ho⟩
    exact outstanding_pos hlabels hl
  · exact ⟨fun off n => silent_of_sat ((h.work hip ht).readi hsb hi),
      fun name => silent_of_sat (lookup_spec hsb hi h hip name),
      silent_of_sat (isdirempty_spec hsb hi h hip ht)⟩

/-- A process has a file open that has been unlinked. -/
def unlinkedFs : FsSt Unit where
  disk := smallDisk
  inode := fun _ => ⟨ROOTDEV, 1, 1, none, true, { emptyFile with nlink := 0 }⟩
  file := fun f => if f = 0 then ⟨.inode, 1, true, true, 0, 0⟩ else ⟨.none, 0, false, false, 0, 0⟩
  proc := fun _ => ⟨true, none, fun fd => if fd = 0 then some 0 else none⟩
  note := fun _ => .none
  stamp := fun _ => 0
  clock := 0
  given := []
  logged := []

def closeUnlinked : List Lab :=
  [.other, .beginOp, .iput 0, .readRef 0, .free 0, .other, .other, .endOp]

/-- The file is closed: `iput` frees the inode. -/
theorem transactions_close :
    ((Call.close 0 : Call Unit).prog smallSb).Path FilesOk () closeUnlinked (some ()) ∧
    closeUnlinked.foldlM bracket false = some false ∧
    Silent (readi smallSb 0 1) ⟨smallDisk, emptyFile, [], []⟩ := by
  have hok : FilesOk unlinkedFs := by
    intro f hf
    by_cases h0 : f = 0
    · rw [h0] at hf
      exact absurd hf (by decide)
    · exact congrArg File.type (if_neg h0)
  have hpath : ((Call.close 0 : Call Unit).prog smallSb).Path FilesOk () closeUnlinked (some ()) :=
    .act hok rfl (.act hok rfl (.act hok rfl (.act hok rfl (.act hok rfl (.act hok rfl
      (.act hok rfl (.act hok rfl (.ret ()))))))))
  obtain ⟨hcall, -, hread⟩ := @transactions Unit _ smallSb
  obtain ⟨o, ho, hend⟩ := hcall () (.close 0) _ _ hpath
  refine ⟨hpath, ?_, ?_⟩
  · rw [ho, hend rfl]
  · exact (hread ⟨smallDisk, emptyFile, [], []⟩ 1 ok_smallSb (by decide) owner_smallDisk
      dinode_smallDisk (by decide)).1 0 1

end Xv6.Fs
