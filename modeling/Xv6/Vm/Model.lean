import Xv6.Ptable.Model

/-!
# Physical pages and address spaces

`kalloc.c` and `vm.c`. Addresses are given by page numbers: a physical page is its physical address
divided by `PGSIZE`, and a page `v` of an address space has its entry at index `v % 1024` of the
page table at index `v / 1024` of the directory. A directory holds the pages of its tables in `tab`
and the entries of all of them in `pte`; an entry without `PTE_P` is none. `mem` has the contents of
user pages. The callers of `mappages` all give page-aligned addresses and sizes.
-/

namespace Xv6.Vm

def PGSIZE : Nat := 4096
def KERNBASE : Nat := 0x80000000
def EXTMEM : Nat := 0x100000
def PHYSTOP : Nat := 0xE000000
def DEVSPACE : Nat := 0xFE000000

/-- The number of entries of a table. This and `KERNPAGE` are irreducible, so that no proof
enumerates the entries or the user pages. -/
@[irreducible] def NPDENTRIES : Nat := 1024

/-- The page of `KERNBASE`. -/
@[irreducible] def KERNPAGE : Nat := KERNBASE / PGSIZE
def EXTPAGE : Nat := EXTMEM / PGSIZE
def TOPPAGE : Nat := PHYSTOP / PGSIZE
def DEVPAGE : Nat := DEVSPACE / PGSIZE

/-- `PGROUNDUP(a) / PGSIZE`. -/
def pgroundup (a : Nat) : Nat := (a + PGSIZE - 1) / PGSIZE

abbrev Page := Fin PGSIZE → BitVec 8

/-- A page-table entry with `PTE_P`: `PTE_W`, `PTE_U` and the other flag bits, 3 to 11, that
`copyuvm` copies. -/
structure Pte where
  pa : Nat
  w : Bool
  u : Bool
  rest : BitVec 9
deriving DecidableEq

structure Pgdir where
  page : Nat
  tab : Nat → Option Nat
  pte : Nat → Option Pte

structure Kmem where
  freelist : List Nat
  mem : Nat → Page

/-- The panics of `vm.c`, and `wild`: a page fault in the kernel, or a write of which the effects
are not followed. -/
inductive Panic where
  | remap
  | copyuvm
  | clearpteu
  | loaduvm
  | wild
deriving DecidableEq

/-- The page at which the kernel's data starts, an address that the linker chooses. -/
structure Layout where
  data : Nat
  lo : EXTPAGE < data
  hi : data < TOPPAGE

/-! ## kalloc.c -/

def kalloc (k : Kmem) : Option (Nat × Kmem) :=
  match k.freelist with
  | [] => none
  | r :: l => some (r, { k with freelist := l })

/-- `memset` or `memmove` of a whole page. -/
def Kmem.fill (k : Kmem) (v : Nat) (c : Page) : Kmem := { k with mem := Function.update k.mem v c }

def kfree (v : Nat) (k : Kmem) : Kmem :=
  { k.fill v (fun _ => 1) with freelist := v :: k.freelist }

/-! ## vm.c -/

/-- `walkpgdir` with `alloc`: the directory with the table for page `v`. -/
def walkpgdir (t : Pgdir) (v : Nat) (k : Kmem) : Option (Pgdir × Kmem) :=
  match t.tab (v / NPDENTRIES) with
  | some _ => some (t, k)
  | none =>
    match kalloc k with
    | none => none
    | some (pgtab, k) => some ({ t with
        tab := Function.update t.tab (v / NPDENTRIES) (some pgtab)
        pte := fun u => if u / NPDENTRIES = v / NPDENTRIES then none else t.pte u }, k)

def Pgdir.setPte (t : Pgdir) (v : Nat) (e : Option Pte) : Pgdir :=
  { t with pte := Function.update t.pte v e }

/-- `mappages`, for `n` pages; false is its result -1. -/
def mappages (w u : Bool) (rest : BitVec 9) :
    Nat → Pgdir → Nat → Nat → Kmem → Except Panic (Bool × Pgdir × Kmem)
  | 0, t, _, _, k => .ok (true, t, k)
  | n + 1, t, v, pa, k =>
    match walkpgdir t v k with
    | none => .ok (false, t, k)
    | some (t, k) =>
      match t.pte v with
      | some _ => .error .remap
      | none => mappages w u rest n (t.setPte v (some ⟨pa, w, u, rest⟩)) (v + 1) (pa + 1) k

/-- The loop of `deallocuvm`, from page `v` to below `hi`. A page table that is missing is skipped
as a whole. -/
def deallocLoop (hi : Nat) : Nat → Nat → Pgdir → Kmem → Pgdir × Kmem
  | 0, _, t, k => (t, k)
  | fuel + 1, v, t, k =>
    if v < hi then
      match t.tab (v / NPDENTRIES) with
      | none => deallocLoop hi fuel ((v / NPDENTRIES + 1) * NPDENTRIES) t k
      | some _ =>
        match t.pte v with
        | none => deallocLoop hi fuel (v + 1) t k
        | some e => deallocLoop hi fuel (v + 1) (t.setPte v none) (kfree e.pa k)
    else (t, k)

/-- `deallocuvm`. The sizes are `uint`s. -/
def deallocuvm (t : Pgdir) (oldsz newsz : Nat) (k : Kmem) : Nat × Pgdir × Kmem :=
  if newsz ≥ oldsz then (oldsz, t, k)
  else (newsz, deallocLoop (pgroundup oldsz) (pgroundup oldsz) (pgroundup newsz) t k)

/-- The loop of `allocuvm`, for the `n` pages from `v`. When memory runs out the result is the page
that has been allocated and could not be mapped, if there is one. -/
def allocLoop : Nat → Nat → Pgdir → Kmem → Except Panic (Option (Option Nat) × Pgdir × Kmem)
  | 0, _, t, k => .ok (none, t, k)
  | n + 1, v, t, k =>
    match kalloc k with
    | none => .ok (some none, t, k)
    | some (mem, k) => do
      let (r, t, k) ← mappages true true 0 1 t v mem (k.fill mem fun _ => 0)
      if r then allocLoop n (v + 1) t k else return (some (some mem), t, k)

def allocuvm (t : Pgdir) (oldsz newsz : Nat) (k : Kmem) : Except Panic (Nat × Pgdir × Kmem) :=
  if newsz ≥ KERNBASE then .ok (0, t, k)
  else if newsz < oldsz then .ok (oldsz, t, k)
  else do
    let (r, t, k) ← allocLoop (pgroundup newsz - pgroundup oldsz) (pgroundup oldsz) t k
    match r with
    | none => return (newsz, t, k)
    | some mem =>
      let (_, t, k) := deallocuvm t newsz oldsz k
      return (0, t, mem.elim k fun mem => kfree mem k)

/-- The tables of a directory from index `i` on. -/
def freeTabs (t : Pgdir) : Nat → Nat → Kmem → Kmem
  | 0, _, k => k
  | n + 1, i, k =>
    match t.tab i with
    | none => freeTabs t n (i + 1) k
    | some v => freeTabs t n (i + 1) (kfree v k)

def freevm (t : Pgdir) (k : Kmem) : Kmem :=
  let (_, t, k) := deallocuvm t KERNBASE 0 k
  kfree t.page (freeTabs t NPDENTRIES 0 k)

/-- The kernel's mappings: first page, number of pages, first physical page, `PTE_W`. -/
def kmap (ly : Layout) : List (Nat × Nat × Nat × Bool) :=
  [(KERNPAGE, EXTPAGE, 0, true),
   (KERNPAGE + EXTPAGE, ly.data - EXTPAGE, EXTPAGE, false),
   (KERNPAGE + ly.data, TOPPAGE - ly.data, ly.data, true),
   (DEVPAGE, 0x100000 - DEVPAGE, DEVPAGE, true)]

/-- The loop of `setupkvm`. -/
def mapAll : List (Nat × Nat × Nat × Bool) → Pgdir → Kmem → Except Panic (Option Pgdir × Kmem)
  | [], t, k => .ok (some t, k)
  | (virt, n, phys, w) :: l, t, k => do
    let (r, t, k) ← mappages w false 0 n t virt phys k
    if r then mapAll l t k else return (none, freevm t k)

def setupkvm (ly : Layout) (k : Kmem) : Except Panic (Option Pgdir × Kmem) :=
  match kalloc k with
  | none => .ok (none, k)
  | some (pgdir, k) => mapAll (kmap ly) ⟨pgdir, fun _ => none, fun _ => none⟩ k

def clearpteu (t : Pgdir) (v : Nat) : Except Panic Pgdir :=
  match t.tab (v / NPDENTRIES) with
  | none => .error .clearpteu
  | some _ => .ok (t.setPte v ((t.pte v).map fun e => { e with u := false }))

/-- The loop of `copyuvm`, for the `n` pages from `i`; false is the jump to `bad`. -/
def copyLoop (t : Pgdir) : Nat → Nat → Pgdir → Kmem → Except Panic (Bool × Pgdir × Kmem)
  | 0, _, d, k => .ok (true, d, k)
  | n + 1, i, d, k =>
    match t.tab (i / NPDENTRIES), t.pte i with
    | some _, some e =>
      match kalloc k with
      | none => .ok (false, d, k)
      | some (mem, k) => do
        let (r, d, k) ← mappages e.w e.u e.rest 1 d i mem (k.fill mem (k.mem e.pa))
        if r then copyLoop t n (i + 1) d k else return (false, d, k)
    | _, _ => .error .copyuvm

def copyuvm (ly : Layout) (t : Pgdir) (sz : Nat) (k : Kmem) :
    Except Panic (Option Pgdir × Kmem) := do
  let (d, k) ← setupkvm ly k
  match d with
  | none => return (none, k)
  | some d =>
    let (r, d, k) ← copyLoop t (pgroundup sz) 0 d k
    if r then return (some d, k) else return (none, freevm d k)

end Xv6.Vm
