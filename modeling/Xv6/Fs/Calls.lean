import Xv6.Fs.State

/-!
# The system calls on files

`dirlookup`, `dirlink`, `namex`, `create` and the system calls of `sysfile.c` with the functions of
`file.c` they call, and the parts of `exec`, `fork` and `exit` that touch inodes and files. What
runs under the lock of one inode between two operations on locks is one action, and so is a
critical section under `icache.lock` or `ftable.lock`. Several of these are one action in `openFile`
and `openPipe`, and in `sysDup` and `sysFork`. Nobody else knows a file before it is in `ofile`, and
a count is raised by a process that has a reference itself, so that to the others it is above theirs
before and after. Only the `filealloc` of another process may miss a file that is on its way back to
the table; it then does what it does on a full table.

`begin_op` and `end_op` order the writes on the disk, and do nothing to the blocks as the buffer
cache shows them: here they are actions that change nothing. A path that the kernel cannot read
from user memory is `none`. The only device with functions in `devsw` is the console, which unlocks
the inode, waits and locks it again.
-/

namespace Xv6.Fs

open Lib

variable {π : Type} [DecidableEq π] (sb : Superblock)

def begin_op : FsProg π Unit := .step .beginOp fun _ s => .done () s

def end_op : FsProg π Unit := .step .endOp fun _ s => .done () s

/-! ## Directories -/

def Name.ofList (l : List UInt8) : Name :=
  ⟨(l ++ List.replicate DIRSIZ 0).take DIRSIZ, by simp [DIRSIZ]⟩

/-- The names `.` and `..`. -/
def dot : Name := Name.ofList [46]
def dotdot : Name := Name.ofList [46, 46]

/-- `.` or `..`. -/
def Name.isDot (n : Name) : Bool := namecmp n dot || namecmp n dotdot

/-- The loop of `dirlookup` in the directory `dp`. -/
def dirscan (dp : Slot) (name : Name) : FsProg π (Option (Nat × Nat)) :=
  .step .other fun p s =>
    match lookup sb name ⟨s.disk, (s.inode dp).d, [], []⟩ with
    | .ok (some (e, off), t) => .done (some (e, off)) { s.setNote p { s.note p with
        want := if name.isDot then .none else some (dp, e) } with logged := t.logged ++ s.logged }
    | .ok (none, t) => .done none { s with logged := t.logged ++ s.logged }
    | .error msg => .panic msg

/-- `dirlookup`: the inode of an entry, and the offset of the entry. -/
def dirlookup (dp : Slot) (name : Name) : FsProg π (Option (Slot × Nat)) := do
  match ← dirscan sb dp name with
  | some (e, off) =>
    let i ← iget e
    return some (i, off)
  | none => return none

/-- `dirlink(dp, name, inum)`; `false` is the answer -1. -/
def dirlink (dp : Slot) (name : Name) (inum : Nat) : FsProg π Bool := do
  match ← dirlookup sb dp name with
  | some (i, _) =>
    iput sb i
    return false
  | none =>
    onInode .log dp fun d => addEntry sb d name inum
    return true

/-! ## Paths -/

abbrev Path := List UInt8

def slash : UInt8 := 47

/-- `skipelem`: the next element of a path, cut to `DIRSIZ` bytes, and the rest of the path. -/
def skipelem (path : Path) : Option (Name × Path) :=
  match path.dropWhile (· = slash) with
  | [] => none
  | c :: cs =>
    let elem := (c :: cs).takeWhile (· ≠ slash)
    let rest := ((c :: cs).dropWhile (· ≠ slash)).dropWhile (· = slash)
    some (Name.ofList elem, rest)

/-- The elements of a path, as the loop of `namex` takes them off; every one has a byte. -/
def elems : (bytes : Nat) → Path → List Name
  | 0, _ => []
  | bytes + 1, path =>
    match skipelem path with
    | none => []
    | some (name, rest) => name :: elems bytes rest

/-- `ip->type`, read under the lock. With `mark` the process remembers that the inode is not a
directory. -/
def typeOf (mark : Bool) (i : Slot) : FsProg π (BitVec 16) :=
  .step .other fun p s =>
    .done (s.inode i).d.type (s.setNote p { s.note p with
      firm := if mark ∧ (s.inode i).d.type ≠ T_DIR then some i else (s.note p).firm })

/-- The loop of `namex` from the inode `ip` on. -/
def walkFrom (parent : Bool) : (ip : Slot) → List Name → FsProg π (Option (Slot × Name))
  | ip, [] =>
    if parent then do
      iput sb ip
      return none
    else return some (ip, dot)
  | ip, name :: rest => do
    ilock sb ip
    let t ← typeOf false ip
    if t ≠ T_DIR then do
      iunlockput sb ip
      return none
    else if parent ∧ rest = [] then do
      iunlock ip
      return some (ip, name)
    else
      match ← dirlookup sb ip name with
      | none =>
        iunlockput sb ip
        return none
      | some (next, _) =>
        iunlockput sb ip
        walkFrom parent next rest

/-- Where `namex` starts. -/
def startOf (path : Path) : FsProg π Slot :=
  if path.head? = some slash then iget ROOTINO else idupCwd

/-- `namex`: the inode of a path, or that of its parent with the final element. -/
def namex (parent : Bool) (path : Path) : FsProg π (Option (Slot × Name)) := do
  let ip ← startOf path
  walkFrom sb parent ip (elems path.length path)

def namei (path : Path) : FsProg π (Option Slot) := do
  let r ← namex sb false path
  return r.map Prod.fst

def nameiparent (path : Path) : FsProg π (Option (Slot × Name)) := namex sb true path

/-! ## Creating and removing entries -/

/-- Change fields of the locked inode, and `iupdate`. -/
def setFields (i : Slot) (f : Dinode → Dinode) : FsProg π Unit :=
  onInode .log i fun e => do
    modify fun s => { s with ip := f s.ip }
    iupdate sb e

def inumOf (i : Slot) : FsProg π Nat := .step .other fun _ s => .done (s.inode i).inum s

/-- `create` makes the entries `.` and `..` of a new directory `ip` in `dp`. -/
def createDots (dp ip : Slot) (e : Nat) (type : BitVec 16) : FsProg π Unit :=
  if type = T_DIR then do
    setFields sb dp fun d => { d with nlink := d.nlink + 1 }
    let ok ← dirlink sb ip dot e
    if ok then do
      let de ← inumOf dp
      let ok ← dirlink sb ip dotdot de
      if ok then return () else panic "create dots"
    else panic "create dots"
  else pure ()

/-- `create` has found no entry: allocate an inode and link it into `dp`. -/
def createNew (dp : Slot) (name : Name) (type major minor : BitVec 16) :
    FsProg π (Option Slot) := do
  let ip ← ialloc sb dp type
  ilock sb ip
  setFields sb ip fun d => { d with major := major, minor := minor, nlink := 1 }
  let e ← inumOf ip
  createDots sb dp ip e type
  let ok ← dirlink sb dp name e
  if ok then do
    iunlockput sb dp
    return some ip
  else panic "create: dirlink"

/-- `create`; the inode it answers is locked. -/
def create (path : Path) (type major minor : BitVec 16) : FsProg π (Option Slot) := do
  match ← nameiparent sb path with
  | none => return none
  | some (dp, name) =>
    ilock sb dp
    match ← dirlookup sb dp name with
    | some (ip, _) =>
      iunlockput sb dp
      ilock sb ip
      let t ← typeOf true ip
      if type = T_FILE ∧ t = T_FILE then return some ip
      else do
        iunlockput sb ip
        return none
    | none => createNew sb dp name type major minor

/-- `sys_link` takes back the link it has counted. -/
def unlinkBack (ip : Slot) : FsProg π Unit := do
  ilock sb ip
  setFields sb ip fun d => { d with nlink := d.nlink - 1 }
  iunlockput sb ip
  end_op

/-- `dp->dev != ip->dev`. -/
def otherDev (dp ip : Slot) : FsProg π Bool :=
  .step .other fun _ s => .done ((s.inode dp).dev != (s.inode ip).dev) s

/-- `sys_link` links the inode `ip` into the directory `dp`. -/
def linkInto (dp ip : Slot) (name : Name) : FsProg π Bool := do
  ilock sb dp
  let other ← otherDev dp ip
  if other then return false
  else do
    let e ← inumOf ip
    dirlink sb dp name e

def sysLink (old new : Option Path) : FsProg π Unit := do
  match old, new with
  | some old, some new =>
    begin_op
    match ← namei sb old with
    | none => end_op
    | some ip =>
      ilock sb ip
      let t ← typeOf true ip
      if t = T_DIR then do
        iunlockput sb ip
        end_op
      else do
        setFields sb ip fun d => { d with nlink := d.nlink + 1 }
        iunlock ip
        match ← nameiparent sb new with
        | none => unlinkBack sb ip
        | some (dp, name) =>
          let linked ← linkInto sb dp ip name
          iunlockput sb dp
          if linked then do
            iput sb ip
            end_op
          else unlinkBack sb ip
  | _, _ => return ()

/-- `sys_unlink` looks at the inode it will unlink: is it a directory, and may it go? -/
def checkUnlink (ip : Slot) : FsProg π (Bool × Bool) :=
  onInode .other ip fun _ => do
    let s ← get
    if s.ip.nlink.toInt < 1 then halt "unlink: nlink < 1"
    else if s.ip.type = T_DIR then do
      let empty ← isdirempty sb
      return (true, empty)
    else return (false, true)

/-- `sys_unlink` counts the `..` of a directory off its parent. -/
def dropDotdot (dp : Slot) (dir : Bool) : FsProg π Unit :=
  if dir then setFields sb dp fun d => { d with nlink := d.nlink - 1 } else pure ()

/-- `sys_unlink` removes the entry at `off` of `dp`, which is that of `ip`. -/
def unlinkEntry (dp ip : Slot) (off : Nat) (dir : Bool) : FsProg π Unit := do
  onInode (.erase ip) dp fun d => eraseEntry sb d off
  dropDotdot sb dp dir
  iunlockput sb dp
  setFields sb ip fun d => { d with nlink := d.nlink - 1 }
  iunlockput sb ip
  end_op

/-- `sys_unlink` gives up. -/
def unlinkBad (dp : Slot) : FsProg π Unit := do
  iunlockput sb dp
  end_op

def sysUnlink (path : Option Path) : FsProg π Unit := do
  match path with
  | none => return ()
  | some path =>
    begin_op
    match ← nameiparent sb path with
    | none => end_op
    | some (dp, name) =>
      ilock sb dp
      if name.isDot then unlinkBad sb dp
      else
        match ← dirlookup sb dp name with
        | none => unlinkBad sb dp
        | some (ip, off) =>
          ilock sb ip
          let (dir, empty) ← checkUnlink sb ip
          if empty then unlinkEntry sb dp ip off dir
          else do
            iunlockput sb ip
            unlinkBad sb dp

/-! ## Files -/

/-- What `filealloc` and `fdalloc` come to: a file with a descriptor, or a failure, with the inode
that `fileclose` puts then, if it finds one in the file. -/
inductive Opened where
  | ok (f : FileId) (fd : Fd)
  | failed (put : Option Slot)

/-- The inode that `fileclose` of the last reference puts. -/
def File.putOf (f : File) : Option Slot := if f.type = .inode then some f.ip else .none

/-- `filealloc` and `fdalloc`; a file that gets no descriptor is given back. -/
def openFile : FsProg π Opened :=
  .step .other fun p s =>
    match (List.finRange NFILE).find? fun f => (s.file f).ref == 0 with
    | none => .done (.failed none) s
    | some f =>
      match (List.finRange NOFILE).find? fun fd => ((s.proc p).ofile fd).isNone with
      | none => .done (.failed (s.file f).putOf) (s.setFile f { s.file f with type := .none })
      | some fd => .done (.ok f fd) ((s.setFile f { s.file f with ref := 1 }).setProc p
          { s.proc p with ofile := Function.update (s.proc p).ofile fd (some f) })

/-- `fileclose` puts the inode of the last reference, in a transaction of its own. -/
def putClosed (put : Option Slot) : FsProg π Unit :=
  match put with
  | none => return ()
  | some i => do
    begin_op
    iput sb i
    end_op

/-- The last lines of `sys_open`: the file takes over the reference to the inode. -/
def fillFile (f : FileId) (i : Slot) (readable writable : Bool) : FsProg π Unit :=
  .step .other fun p s =>
    .done () ((s.setFile f { s.file f with
      type := .inode, ip := i, off := 0, readable := readable, writable := writable }).setNote p
      ((s.note p).handOver i (s.inode i).inum))

def O_RDONLY : BitVec 32 := 0
def O_WRONLY : BitVec 32 := 1
def O_RDWR : BitVec 32 := 2
def O_CREATE : BitVec 32 := 0x200

/-- `sys_open` opens the locked inode `ip`. -/
def openInode (ip : Slot) (omode : BitVec 32) : FsProg π (Option Fd) := do
  match ← openFile with
  | .failed put =>
    putClosed sb put
    iunlockput sb ip
    end_op
    return none
  | .ok f fd =>
    iunlock ip
    end_op
    fillFile f ip (omode &&& O_WRONLY = 0) (omode &&& O_WRONLY ≠ 0 ∨ omode &&& O_RDWR ≠ 0)
    return some fd

/-- `sys_open`; none is the answer -1. -/
def sysOpen (path : Option Path) (omode : BitVec 32) : FsProg π (Option Fd) := do
  match path with
  | none => return none
  | some path =>
    begin_op
    if omode &&& O_CREATE ≠ 0 then do
      match ← create sb path T_FILE 0 0 with
      | none =>
        end_op
        return none
      | some ip => openInode sb ip omode
    else do
      match ← namei sb path with
      | none =>
        end_op
        return none
      | some ip =>
        ilock sb ip
        let t ← typeOf true ip
        if t = T_DIR ∧ omode ≠ O_RDONLY then do
          iunlockput sb ip
          end_op
          return none
        else openInode sb ip omode

/-- `sys_mkdir` and `sys_mknod` put the inode that `create` answers. They begin before they look at
the path. -/
def sysMake (path : Option Path) (type major minor : BitVec 16) : FsProg π Unit := do
  begin_op
  match path with
  | none => end_op
  | some path =>
    match ← create sb path type major minor with
    | none => end_op
    | some ip =>
      iunlockput sb ip
      end_op

def sysMkdir (path : Option Path) : FsProg π Unit := sysMake sb path T_DIR 0 0

def sysMknod (path : Option Path) (major minor : BitVec 16) : FsProg π Unit :=
  sysMake sb path T_DEV major minor

/-- The reference in `p->cwd` is about to be put. -/
def leaveCwd : FsProg π Slot :=
  .step .other fun p s =>
    match (s.proc p).cwd with
    | some i => .done i ((s.setProc p { s.proc p with cwd := none }).setNote p
        ((s.note p).take i (s.inode i).inum))
    | none => .fault

/-- `curproc->cwd = ip`. -/
def enterCwd (i : Slot) : FsProg π Unit :=
  .step .other fun p s =>
    .done () ((s.setProc p { s.proc p with cwd := some i }).setNote p
      ((s.note p).handOver i (s.inode i).inum))

def sysChdir (path : Option Path) : FsProg π Unit := do
  begin_op
  match path with
  | none => end_op
  | some path =>
    match ← namei sb path with
    | none => end_op
    | some ip =>
      ilock sb ip
      let t ← typeOf false ip
      if t ≠ T_DIR then do
        iunlockput sb ip
        end_op
      else do
        iunlock ip
        let old ← leaveCwd
        iput sb old
        end_op
        enterCwd ip

/-! ## Reading and writing files -/

def fileOf (fd : Fd) : FsProg π (Option File) :=
  .step .other fun p s => .done (((s.proc p).ofile fd).map s.file) s

def CONSOLE : BitVec 16 := 1

def devOf (i : Slot) : FsProg π (Option Bool) :=
  .step .other fun _ s =>
    .done (if (s.inode i).d.type = T_DEV then some ((s.inode i).d.major = CONSOLE) else none) s

def console (i : Slot) : FsProg π Unit := do
  iunlock i
  ilock sb i

def advance (fd : Fd) (n : Nat) : FsProg π Unit :=
  .step .other fun p s =>
    match (s.proc p).ofile fd with
    | some f => .done () (s.setFile f { s.file f with off := ((s.file f).off + n) % 2 ^ 32 })
    | none => .done () s

/-- `readi` of the locked inode; `con` is what the console answers. -/
def readInode (i : Slot) (off n : Nat) (con : Option Nat) : FsProg π (Option Nat) := do
  match ← devOf i with
  | some true =>
    console sb i
    return con
  | some false => return none
  | none =>
    let l ← onInode .other i fun _ => readi sb off n
    return l.map List.length

def offOf (fd : Fd) : FsProg π Nat :=
  .step .other fun p s =>
    match (s.proc p).ofile fd with
    | some f => .done (s.file f).off s
    | none => .done 0 s

/-- `fileread`. -/
def sysRead (fd : Fd) (n : Nat) (con : Option Nat) : FsProg π Unit := do
  match ← fileOf fd with
  | none => return ()
  | some f =>
    if f.readable = false then return ()
    else
      match f.type with
      | .none => panic "fileread"
      | .pipe => return ()
      | .inode =>
        ilock sb f.ip
        let off ← offOf fd
        let r ← readInode sb f.ip off n con
        advance fd (r.getD 0)
        iunlock f.ip

/-- `writei` to the locked inode; the console takes everything. -/
def writeInode (i : Slot) (off : Nat) (src : List UInt8) : FsProg π (Option Nat) := do
  match ← devOf i with
  | some true =>
    console sb i
    return some src.length
  | some false => return none
  | none => onInode .log i fun e => writei sb e off src

/-- One pass of the loop of `filewrite`. -/
def writeChunk (fd : Fd) (i : Slot) (src : List UInt8) : FsProg π (Option Nat) := do
  begin_op
  ilock sb i
  let off ← offOf fd
  let r ← writeInode sb i off src
  advance fd (r.getD 0)
  iunlock i
  end_op
  return r

/-- The most that `filewrite` writes in one transaction. -/
def writeMax : Nat := (MAXOPBLOCKS - 1 - 1 - 2) / 2 * 512

/-- The loop of `filewrite`: has everything been written? Every pass that does not end it writes a
byte. -/
def writeChunks (fd : Fd) (i : Slot) : (passes : Nat) → List UInt8 → FsProg π Bool
  | 0, src => return src = []
  | passes + 1, src =>
    if src = [] then return true
    else do
      match ← writeChunk sb fd i (src.take writeMax) with
      | none => return false
      | some r =>
        if r = (src.take writeMax).length then writeChunks fd i passes (src.drop writeMax)
        else panic "short filewrite"

/-- `filewrite`; `none` is the answer -1. -/
def filewrite (fd : Fd) (src : List UInt8) : FsProg π (Option Nat) := do
  match ← fileOf fd with
  | none => return none
  | some f =>
    if f.writable = false then return none
    else
      match f.type with
      | .none => panic "filewrite"
      | .pipe => return none
      | .inode =>
        let all ← writeChunks sb fd f.ip src.length src
        return if all then some src.length else none

def sysWrite (fd : Fd) (src : List UInt8) : FsProg π Unit := do
  let _ ← filewrite sb fd src
  return ()

/-- `filestat`. -/
def sysFstat (fd : Fd) : FsProg π Unit := do
  match ← fileOf fd with
  | none => return ()
  | some f =>
    match f.type with
    | .none => return ()
    | .pipe => return ()
    | .inode =>
      ilock sb f.ip
      iunlock f.ip

/-! ## Descriptors and processes -/

/-- `fdalloc` and `filedup` in `sys_dup`. -/
def sysDup (fd : Fd) : FsProg π Unit :=
  .step .other fun p s =>
    match (s.proc p).ofile fd with
    | none => .done () s
    | some f =>
      match (List.finRange NOFILE).find? fun fd => ((s.proc p).ofile fd).isNone with
      | none => .done () s
      | some fd' =>
        if (s.file f).ref < 1 then .panic "filedup"
        else .done () ((s.setFile f { s.file f with ref := (s.file f).ref + 1 }).setProc p
          { s.proc p with ofile := Function.update (s.proc p).ofile fd' (some f) })

/-- The critical section of `fileclose`, with `ofile[fd] = 0`: the inode to be put, if that was
the last reference. -/
def closeFile (fd : Fd) : FsProg π (Option Slot) :=
  .step .other fun p s =>
    match (s.proc p).ofile fd with
    | none => .done none s
    | some f =>
      if (s.file f).ref < 1 then .panic "fileclose"
      else
        let s' := s.setProc p
          { s.proc p with ofile := Function.update (s.proc p).ofile fd none }
        if 1 < (s.file f).ref then
          .done none (s'.setFile f { s.file f with ref := (s.file f).ref - 1 })
        else
          let i := (s.file f).ip
          match (s.file f).type with
          | .none => .done none (s'.setFile f { s.file f with ref := 0 })
          | .pipe => .done none (s'.setFile f { s.file f with ref := 0, type := .none })
          | .inode =>
            .done (some i) ((s'.setFile f { s.file f with ref := 0, type := .none }).setNote
              p ((s.note p).take i (s.inode i).inum))

/-- `sys_close`: the descriptor is cleared and `fileclose` gives the file up. -/
def sysClose (fd : Fd) : FsProg π Unit := do
  let put ← closeFile fd
  putClosed sb put

/-- `sys_pipe`, with `mem` if `kalloc` gives a page: two files and two descriptors, or a failure, in
which the files that it has got are closed again, before or after they have become ends of a pipe:
the answer is the inodes that `fileclose` puts then. -/
def openPipe (mem : Bool) : FsProg π (List Slot) :=
  .step .other fun p s =>
    match (List.finRange NFILE).filter fun f => (s.file f).ref == 0 with
    | [] => .done [] s
    | [f] => .done (s.file f).putOf.toList (s.setFile f { s.file f with type := .none })
    | f :: g :: _ =>
      if mem then
        match (List.finRange NOFILE).filter fun fd => ((s.proc p).ofile fd).isNone with
        | fd :: fd' :: _ =>
          .done [] (((s.setFile f { s.file f with
              type := .pipe, ref := 1, readable := true, writable := false }).setFile g
            { s.file g with type := .pipe, ref := 1, readable := false, writable := true }).setProc
              p
            { s.proc p with ofile :=
                Function.update (Function.update (s.proc p).ofile fd (some f)) fd' (some g) })
        | _ => .done [] ((s.setFile f { s.file f with type := .none }).setFile g
            { s.file g with type := .none })
      else .done ((s.file f).putOf.toList ++ (s.file g).putOf.toList)
        ((s.setFile f { s.file f with type := .none }).setFile g { s.file g with type := .none })

/-- `fileclose` of several files. -/
def putAll : List Slot → FsProg π Unit
  | [] => return ()
  | i :: is => do
    putClosed sb (some i)
    putAll is

def sysPipe (mem : Bool) : FsProg π Unit := do
  let put ← openPipe mem
  putAll sb put

/-- `exec` reads the ELF header, the program headers and the segments, here as the image asks for
them: each read has its offset and length, and says whether what is read passes the tests and memory
is found for it. The answer is whether the new image is there; a short read is an error too. -/
def execReads (i : Slot) : List (Nat × Nat × Bool) → FsProg π Bool
  | [] => return true
  | (off, n, good) :: reads => do
    let r ← readInode sb i off n none
    if r = some n ∧ good then execReads i reads else return false

/-- The label `bad` of `exec`; the null pointer is none. -/
def execBad (ip : Option Slot) : FsProg π Unit :=
  match ip with
  | none => return ()
  | some ip => do
    iunlockput sb ip
    end_op

/-- `exec`, with `stack` if the stack can be made and filled. -/
def sysExec (path : Option Path) (reads : List (Nat × Nat × Bool)) (stack : Bool) :
    FsProg π Unit := do
  match path with
  | none => return ()
  | some path =>
    begin_op
    match ← namei sb path with
    | none => end_op
    | some ip =>
      ilock sb ip
      let good ← execReads sb ip reads
      if good then do
        iunlockput sb ip
        end_op
        if stack then return () else execBad sb none
      else execBad sb (some ip)

def Proc.opens (x : Proc) (f : FileId) : Nat :=
  ((List.finRange NOFILE).filter fun fd => x.ofile fd = some f).length

/-- `fork`: the child `q` gets the open files and the current directory. -/
def sysFork (q : π) : FsProg π Unit :=
  .step .other fun p s =>
    if (s.proc q).live then .done () s
    else
      match (s.proc p).cwd with
      | none => .fault
      | some i => .done () { (s.setInode i { s.inode i with ref := (s.inode i).ref + 1 }).setProc q
          { s.proc p with live := true } with
          file := fun f => { s.file f with ref := (s.file f).ref + (s.proc p).opens f } }

/-- `exit` closes all files. -/
def closeAll : List Fd → FsProg π Unit
  | [] => return ()
  | fd :: fds => do
    sysClose sb fd
    closeAll fds

def retire : FsProg π Unit :=
  .step .other fun p s => .done () (s.setProc p { s.proc p with live := false })

/-- `exit`. -/
def sysExit : FsProg π Unit := do
  closeAll sb (List.finRange NOFILE)
  begin_op
  let i ← leaveCwd
  iput sb i
  end_op
  retire

end Xv6.Fs
