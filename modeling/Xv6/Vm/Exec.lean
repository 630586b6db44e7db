import Xv6.Vm.Fork

/-!
# exec

`exec` with the allocation of the new address space, the loading of the program and the copying of
the arguments to the new stack. An argument that is longer than the new address space makes the
address of its copy wrap around to the kernel's part, where `walkpgdir` can find no page table.
`uva2ka` does not test for that; the kernel that is built from it traps there.
-/

namespace Xv6.Vm

variable {N : Nat} {s s' : Sys N} {p : Fin N} {t t' : Pgdir} {k k' : Kmem}

abbrev Byte := BitVec 8

instance : NeZero PGSIZE := ⟨by decide⟩

/-- A program header, and whether `readi` can read it and the contents of the segment. `data` is
what the loading of a page of the segment does to the contents of the page. -/
structure Segment where
  readable : Bool
  load : Bool
  vaddr : BitVec 32
  memsz : BitVec 32
  filesz : BitVec 32
  failsAt : Option Nat
  data : Nat → Page → Page

structure Image where
  header : Bool
  segments : List Segment

/-! ## Loading -/

/-- `loaduvm`, for the `n` pages from `v`. It does not test that an entry is present: without one
the segment goes to physical page 0. -/
def loaduvm (t : Pgdir) (g : Segment) : Nat → Nat → Nat → Kmem → Except Panic (Bool × Kmem)
  | 0, _, _, k => .ok (true, k)
  | n + 1, i, v, k =>
    match t.tab (v / NPDENTRIES), t.pte v with
    | none, _ => .error .loaduvm
    | some _, none => .error .wild
    | some _, some e =>
      if g.failsAt = some i then .ok (false, k)
      else loaduvm t g n (i + 1) (v + 1) (k.fill e.pa (g.data i (k.mem e.pa)))

/-- The loop of `exec` over the program headers. The result is the size, none for `bad`. -/
def loadSegments : List Segment → Nat → Pgdir → Kmem → Except Panic (Option Nat × Pgdir × Kmem)
  | [], sz, t, k => .ok (some sz, t, k)
  | g :: l, sz, t, k =>
    if g.readable = false then .ok (none, t, k)
    else if g.load = false then loadSegments l sz t k
    else if g.memsz < g.filesz then .ok (none, t, k)
    else if g.vaddr + g.memsz < g.vaddr then .ok (none, t, k)
    else do
      let (sz, t, k) ← allocuvm t sz (g.vaddr + g.memsz).toNat k
      if sz = 0 then return (none, t, k)
      else if g.vaddr.toNat % PGSIZE ≠ 0 then return (none, t, k)
      else
        let (r, k) ← loaduvm t g (pgroundup g.filesz.toNat) 0 (g.vaddr.toNat / PGSIZE) k
        if r then loadSegments l sz t k else return (none, t, k)

/-- The stack: two pages, of which the lower one is not the user's. -/
def makeStack (sz : Nat) (t : Pgdir) (k : Kmem) : Except Panic (Option Nat × Pgdir × Kmem) := do
  let sz := pgroundup sz * PGSIZE
  let (sz, t, k) ← allocuvm t sz (sz + 2 * PGSIZE) k
  if sz = 0 then return (none, t, k)
  else
    let t ← clearpteu t (sz / PGSIZE - 2)
    return (some sz, t, k)

/-! ## Arguments -/

/-- The little-endian word at byte `i`. -/
def word (c : Nat → Byte) (i : Nat) : Nat :=
  (c i).toNat + 2 ^ 8 * (c (i + 1)).toNat + 2 ^ 16 * (c (i + 2)).toNat
    + 2 ^ 24 * (c (i + 3)).toNat

def patch (off : Nat) (bytes : List Byte) (c : Page) : Page :=
  fun i => if off ≤ i ∧ i < off + bytes.length then bytes.getD (i - off) 0 else c i

/-- `uva2ka`; without a page table the kernel traps. -/
def uva2ka (t : Pgdir) (v : Nat) : Except Panic (Option Nat) :=
  match t.tab (v / NPDENTRIES) with
  | none => .error .wild
  | some _ =>
    match t.pte v with
    | none => .ok none
    | some e => .ok (if e.u then some e.pa else none)

/-- `copyout`, for at most `fuel` pages. -/
def copyout : Nat → Nat → List Byte → Pgdir → Kmem → Except Panic (Bool × Kmem)
  | 0, _, _, _, k => .ok (true, k)
  | fuel + 1, va, bytes, t, k =>
    if bytes = [] then .ok (true, k)
    else do
      let off := va % PGSIZE
      let part := bytes.take (PGSIZE - off)
      let va' := (va / PGSIZE + 1) * PGSIZE % 2 ^ 32
      match ← uva2ka t (va / PGSIZE) with
      | none => return (false, k)
      | some pa =>
        copyout fuel va' (bytes.drop (PGSIZE - off)) t (k.fill pa (patch off part (k.mem pa)))

def MAXARG : Nat := 32

/-- `(sp - n) & ~3` for `uint`s. -/
def down (sp n : Nat) : Nat := (sp + 2 ^ 32 - n % 2 ^ 32) % 2 ^ 32 / 4 * 4

def bytesOf (w : Nat) : List Byte :=
  [BitVec.ofNat 8 w, BitVec.ofNat 8 (w / 2 ^ 8), BitVec.ofNat 8 (w / 2 ^ 16),
    BitVec.ofNat 8 (w / 2 ^ 24)]

/-- The loop over the arguments; `argv` has the addresses of those that have been copied. -/
def pushArgs : List (List Byte) → Nat → List Nat → Pgdir → Kmem →
    Except Panic (Option (Nat × List Nat) × Kmem)
  | [], sp, argv, _, k => .ok (some (sp, argv), k)
  | a :: l, sp, argv, t, k =>
    if argv.length ≥ MAXARG then .ok (none, k)
    else do
      let sp := down sp (a.length + 1)
      let (r, k) ← copyout (a.length + 1) sp (a ++ [0]) t k
      if r then pushArgs l sp (argv ++ [sp]) t k else return (none, k)

/-- All the arguments, and `ustack`; the result is the stack pointer. -/
def pushStack (args : List (List Byte)) (sz : Nat) (t : Pgdir) (k : Kmem) :
    Except Panic (Option Nat × Kmem) := do
  let (r, k) ← pushArgs args sz [] t k
  match r with
  | none => return (none, k)
  | some (sp, argv) =>
    let argc := argv.length
    let words := [0xffffffff, argc, (sp + 2 ^ 32 - (argc + 1) * 4) % 2 ^ 32] ++ argv ++ [0]
    let sp := (sp + 2 ^ 32 - (3 + argc + 1) * 4) % 2 ^ 32
    let (r, k) ← copyout ((3 + argc + 1) * 4) sp (words.flatMap bytesOf) t k
    return (if r then some sp else none, k)

/-! ## exec -/

def commit (p : Fin N) (sz : Nat) (t : Pgdir) (s : Sys N) : Sys N :=
  let old := (s.proc p).pgdir
  let s := s.setProc p { s.proc p with pgdir := some t, sz := sz, priority := 2 }
  { s with kmem := old.elim s.kmem fun old => freevm old s.kmem }

/-- `exec` of a file that `namei` has found, by process `p`. -/
def exec (ly : Layout) (p : Fin N) (img : Image) (args : List (List Byte)) (s : Sys N) :
    Except Panic (Int × Sys N) :=
  if img.header = false then .ok (-1, s)
  else do
    let (d, k) ← setupkvm ly s.kmem
    let s := { s with kmem := k }
    match d with
    | none => return (-1, s)
    | some t =>
      let (r, t, k) ← loadSegments img.segments 0 t s.kmem
      let s := { s with kmem := k }
      match r with
      | none => return (-1, { s with kmem := freevm t s.kmem })
      | some sz =>
        let (r, t, k) ← makeStack sz t s.kmem
        let s := { s with kmem := k }
        match r with
        | none => return (-1, { s with kmem := freevm t s.kmem })
        | some sz =>
          let (r, k) ← pushStack args sz t s.kmem
          let s := { s with kmem := k }
          match r with
          | none => return (-1, { s with kmem := freevm t s.kmem })
          | some _ => return (0, commit p sz t s)

end Xv6.Vm
