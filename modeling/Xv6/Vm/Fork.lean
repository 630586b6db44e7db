import Xv6.Vm.Copy
import Xv6.Vm.Sbrk

/-!
# fork

`allocproc` and `fork` with the pages, the file table and the inode cache that they use. A `fork`
that fails leaves everything as it was unless `copyuvm` has lost a page.
-/

namespace Xv6.Vm

open Ptable (State)

/-- `struct proc`, as far as `fork` and the calls on memory read and write it. -/
structure Proc (N : Nat) where
  state : State
  pid : Nat
  priority : Nat
  kstack : Option Nat
  pgdir : Option Pgdir
  sz : Nat
  parent : Option (Fin N)
  uid : Nat
  gid : Nat
  ofile : Nat → Option Nat
  cwd : Option Nat

/-- The process table, physical memory, and the reference counts of files and inodes. -/
structure Sys (N : Nat) where
  proc : Fin N → Proc N
  nextpid : Nat
  kmem : Kmem
  kpgdir : Pgdir
  pipes : List Nat
  file : Nat → Nat
  inode : Nat → Nat

variable {N : Nat} {s s' : Sys N} {p np : Fin N}

namespace Sys

def setProc (s : Sys N) (p : Fin N) (v : Proc N) : Sys N :=
  { s with proc := Function.update s.proc p v }

end Sys

/-- The slot that `allocproc` takes. -/
def findUnused (s : Sys N) : Option (Fin N) :=
  (List.finRange N).find? fun p => decide ((s.proc p).state = .UNUSED)

/-- A slot at the label `found` of `allocproc`. -/
def found (s : Sys N) (p : Fin N) : Proc N :=
  { s.proc p with state := .EMBRYO, pid := s.nextpid, priority := 10 }

def allocproc (s : Sys N) : Option (Fin N) × Sys N :=
  match findUnused s with
  | none => (none, s)
  | some p =>
    match kalloc s.kmem with
    | none => (none, { s with nextpid := s.nextpid + 1 }.setProc p
        { found s p with kstack := none, state := .UNUSED })
    | some (v, k) => (some p, { s with nextpid := s.nextpid + 1, kmem := k }.setProc p
        { found s p with kstack := some v })

def NOFILE : Nat := 16

/-- `filedup` of the parent's files, and `idup` of its directory. -/
def dupFiles (ofile : Nat → Option Nat) (file : Nat → Nat) : Nat → Nat :=
  (List.range NOFILE).foldl (fun file i => match ofile i with
    | none => file
    | some f => Function.update file f (file f + 1)) file

/-- The slot of a child for which `copyuvm` has failed. -/
def Proc.failed (v : Proc N) : Proc N := { v with pgdir := none, kstack := none, state := .UNUSED }

/-- The slot of a child of `p`, whose slot is `cur`, that has got the directory `d`. -/
def Proc.copied (v cur : Proc N) (p : Fin N) (d : Pgdir) : Proc N :=
  { v with
    pgdir := some d
    sz := cur.sz
    parent := some p
    uid := cur.uid
    gid := cur.gid
    ofile := fun i => if i < NOFILE ∧ (cur.ofile i).isSome then cur.ofile i else v.ofile i
    cwd := cur.cwd
    state := .RUNNABLE }

/-- The end of a `fork` for which `copyuvm` has failed. -/
def forkFails (np : Fin N) (k : Kmem) (s : Sys N) : Sys N :=
  { s with kmem := (s.proc np).kstack.elim k fun v => kfree v k }.setProc np (s.proc np).failed

/-- The end of a `fork` whose child has got the directory `d`. -/
def forkDone (p np : Fin N) (d : Pgdir) (k : Kmem) (s : Sys N) : Sys N :=
  { s with
    kmem := k
    file := dupFiles (s.proc p).ofile s.file
    inode := (s.proc p).cwd.elim s.inode fun i =>
      Function.update s.inode i (s.inode i + 1) }.setProc np ((s.proc np).copied (s.proc p) p d)

/-- `fork`; the result is the pid of the child or -1. A process without a directory does not run. -/
def fork (ly : Layout) (p : Fin N) (s : Sys N) : Except Panic (Int × Sys N) :=
  match allocproc s with
  | (none, s) => .ok (-1, s)
  | (some np, s) =>
    match (s.proc p).pgdir with
    | none => .error .copyuvm
    | some t => do
      let (d, k) ← copyuvm ly t (s.proc p).sz s.kmem
      match d with
      | none => return (-1, forkFails np k s)
      | some d => return ((s.proc np).pid, forkDone p np d k s)

/-! ## A failed fork -/

/-- Nothing of a failed `fork` is left. -/
structure LeavesNothing (s s' : Sys N) : Prop where
  free : ∀ q, q ∈ s'.kmem.freelist ↔ q ∈ s.kmem.freelist
  file : s'.file = s.file
  inode : s'.inode = s.inode
  tried : ∀ np, findUnused s = some np → (s'.proc np).state = .UNUSED ∧ (s'.proc np).kstack = none
  others : ∀ q, findUnused s ≠ some q → s'.proc q = s.proc q

theorem findUnused_state (h : findUnused s = some np) : (s.proc np).state = .UNUSED := by
  simpa using List.find?_some h

theorem findUnused_none (h : findUnused s = none) (q : Fin N) : (s.proc q).state ≠ .UNUSED := by
  simpa using List.find?_eq_none.1 h q (List.mem_finRange q)

/-- What no part of `fork` but the new process changes. -/
structure Rest (np : Fin N) (v : Proc N) (s s' : Sys N) : Prop where
  proc : s'.proc = Function.update s.proc np v
  kpgdir : s'.kpgdir = s.kpgdir
  pipes : s'.pipes = s.pipes

theorem allocproc_spec (s : Sys N) :
    (findUnused s = none ∧ allocproc s = (none, s)) ∨
    ∃ np, findUnused s = some np ∧
      ((s.kmem.freelist = [] ∧ ∃ s₁ v, allocproc s = (none, s₁) ∧ Rest np v s s₁ ∧
          s₁.kmem = s.kmem ∧ s₁.file = s.file ∧ s₁.inode = s.inode ∧
          v.state = .UNUSED ∧ v.kstack = none ∧ v.pgdir = (s.proc np).pgdir) ∨
        ∃ q k s₁ v, kalloc s.kmem = some (q, k) ∧ allocproc s = (some np, s₁) ∧ Rest np v s s₁ ∧
          s₁.kmem = k ∧ s₁.file = s.file ∧ s₁.inode = s.inode ∧ v.kstack = some q) := by
  unfold allocproc
  cases hf : findUnused s with
  | none => exact .inl ⟨rfl, rfl⟩
  | some np =>
    refine .inr ⟨np, rfl, ?_⟩
    cases hk : kalloc s.kmem with
    | none =>
      exact .inl ⟨kalloc_none hk, { s with nextpid := s.nextpid + 1 }.setProc np
        { found s np with kstack := none, state := .UNUSED },
        { found s np with kstack := none, state := .UNUSED }, rfl, ⟨rfl, rfl, rfl⟩, rfl, rfl, rfl,
        rfl, rfl, rfl⟩
    | some a =>
      exact .inr ⟨a.1, a.2, { s with nextpid := s.nextpid + 1, kmem := a.2 }.setProc np
        { found s np with kstack := some a.1 }, { found s np with kstack := some a.1 }, rfl, rfl,
        ⟨rfl, rfl, rfl⟩, rfl, rfl, rfl, rfl⟩

/-- The numbers of free pages with which `fork` loses one, for a process with `n` pages: one page
goes to the kernel stack, 65 to the directory with the kernel's mappings, 1025 to every 1024 user
pages, and one is lost. -/
def Loses (free n : Nat) : Prop := ∃ j, 1024 * j < n ∧ free = 67 + 1025 * j

theorem fork_spec (ly : Layout) {t : Pgdir} (hp : (s.proc p).state ≠ .UNUSED)
    (ht : (s.proc p).pgdir = some t) (hok : t.Ok) (hsz : (s.proc p).sz < KERNBASE) :
    (fork ly p s = .error .copyuvm ∧ ∃ x < pgroundup (s.proc p).sz, t.pte x = none) ∨
    (findUnused s = none ∧ fork ly p s = .ok (-1, s)) ∨
    ∃ np r s' v, findUnused s = some np ∧ fork ly p s = .ok (r, s') ∧ Rest np v s s' ∧
      (∀ q, q ∉ s.kmem.free → s'.kmem.mem q = s.kmem.mem q) ∧
      ((r = -1 ∧ s'.file = s.file ∧ s'.inode = s.inode ∧ v.state = .UNUSED ∧ v.kstack = none ∧
          (v.pgdir = none ∨ v.pgdir = (s.proc np).pgdir) ∧
          s.kmem.freelist.length < 68 + 2 * pgroundup (s.proc p).sz ∧
          ∃ lost, s'.kmem.free + Lib.unit lost = s.kmem.free ∧
            (lost ≠ none ↔ Loses s.kmem.freelist.length (pgroundup (s.proc p).sz))) ∨
        (0 ≤ r ∧ ¬ Loses s.kmem.freelist.length (pgroundup (s.proc p).sz) ∧
          ∃ q d, v.state = .RUNNABLE ∧ v.kstack = some q ∧ v.pgdir = some d ∧ d.Ok ∧
            v.sz = (s.proc p).sz ∧
            (∀ x < KERNPAGE, d.pte x ≠ none ↔ x < pgroundup (s.proc p).sz) ∧
            s'.kmem.free + {q} + d.pages = s.kmem.free)) := by
  rcases allocproc_spec s with ⟨hf, ha⟩ | ⟨np, hf, hno | ⟨q, k, s1, v, hk, ha, hrest, hkm, hfile,
      hinode, hks⟩⟩
  · exact .inr (.inl ⟨hf, by simp only [fork, ha]⟩)
  · obtain ⟨hl, s1, v, ha, hrest, hkm, hfile, hinode, hst, hks, hpg⟩ := hno
    refine .inr (.inr ⟨np, -1, s1, v, hf, by simp only [fork, ha], hrest,
      fun q _ => by rw [hkm],
      .inl ⟨rfl, hfile, hinode, hst, hks, .inr hpg,
        by rw [hl, List.length_nil]; omega, none, ?_, fun h => absurd rfl h, ?_⟩⟩)
    · rw [hkm, Lib.unit_none, add_zero]
    · rintro ⟨j, -, hj⟩
      rw [hl, List.length_nil] at hj
      omega
  · have hne : p ≠ np := by
      rintro rfl
      exact hp (findUnused_state hf)
    have hcur : s1.proc p = s.proc p := by rw [hrest.proc, Function.update_of_ne hne]
    have hnew : s1.proc np = v := by rw [hrest.proc, Function.update_self]
    obtain ⟨hlist, hfree, hmem⟩ := kalloc_some hk
    have hlen : s.kmem.freelist.length = k.freelist.length + 1 := by
      rw [hlist, List.length_cons]
    have hiff : Leaks k.freelist.length (pgroundup (s.proc p).sz) ↔
        Loses s.kmem.freelist.length (pgroundup (s.proc p).sz) := by
      rw [hlen]
      exact exists_congr fun j => and_congr_right fun _ => by omega
    rcases copyuvm_spec ly hok (pgroundup_le hsz.le) k with
      ⟨herr, hmiss⟩ | ⟨o, k2, hcopy, hm2, hres⟩
    · refine .inl ⟨?_, hmiss⟩
      simp only [fork, ha, hcur, ht, hkm, herr, bind, Except.bind]
    have hmk : ∀ q', q' ∉ s.kmem.free → k2.mem q' = s.kmem.mem q' ∧ q' ≠ q := by
      intro q' hq'
      rw [hfree, Multiset.mem_add, not_or, Multiset.mem_singleton] at hq'
      exact ⟨by rw [hm2 q' hq'.1, hmem], hq'.2⟩
    rcases hres with ⟨d, rfl, hd, hpte, hc, hno⟩ | ⟨rfl, hfew, lost, hc, hlost⟩
    · refine .inr (.inr ⟨np, (s1.proc np).pid, forkDone p np d k2 s1,
        (s1.proc np).copied (s1.proc p) p d, hf, ?_,
        ⟨?_, hrest.kpgdir, hrest.pipes⟩, fun q' hq' => (hmk q' hq').1, .inr ⟨by omega,
        fun hl => hno (hiff.2 hl), q, d, rfl, ?_, rfl, hd, ?_, hpte, ?_⟩⟩)
      · simp only [fork, ha, hcur, ht, hkm, hcopy, bind, Except.bind, pure, Except.pure]
      · simp only [forkDone, Sys.setProc, hrest.proc, Function.update_idem]
      · change (s1.proc np).kstack = _
        rw [hnew, hks]
      · change (s1.proc p).sz = _
        rw [hcur]
      · change k2.free + {q} + d.pages = _
        rw [hfree, ← hc]
        abel
    · refine .inr (.inr ⟨np, -1, forkFails np k2 s1, (s1.proc np).failed, hf, ?_,
        ⟨?_, hrest.kpgdir, hrest.pipes⟩,
        fun q' hq' => ?_, .inl ⟨rfl, hfile, hinode, rfl, rfl, .inl rfl, by omega, lost, ?_, ?_⟩⟩)
      · simp only [fork, ha, hcur, ht, hkm, hcopy, bind, Except.bind, pure, Except.pure]
      · simp only [forkFails, Sys.setProc, hrest.proc, Function.update_idem]
      · simp only [forkFails, Sys.setProc, hnew, hks, Option.elim_some]
        rw [mem_kfree (hmk q' hq').2, (hmk q' hq').1]
      · simp only [forkFails, Sys.setProc, hnew, hks, Option.elim_some, free_kfree]
        rw [hfree, ← hc]
        abel
      · rw [hlost, hiff]

/-- A failed `fork` leaves nothing behind exactly when there is no slot for a child or the number of
free pages is not one of those with which a page is lost. -/
theorem fork_leaves_nothing (ly : Layout) {t : Pgdir} (hp : (s.proc p).state ≠ .UNUSED)
    (ht : (s.proc p).pgdir = some t) (h : UserOk t (s.proc p).sz s.kmem) :
    (∀ s', fork ly p s = .ok (-1, s') → LeavesNothing s s') ↔
      (findUnused s = none ∨ ¬ Loses s.kmem.freelist.length (pgroundup (s.proc p).sz)) := by
  rcases fork_spec ly hp ht h.ok h.size with
    ⟨-, x, hx, hxn⟩ | ⟨hf, hfork⟩ | ⟨np, r, s', v, hf, hfork, hrest, -, hres⟩
  · have := pgroundup_le h.size.le
    exact absurd hxn ((h.mapped x (by omega)).2 hx)
  · refine ⟨fun _ => .inl hf, fun _ s' hs' => ?_⟩
    rw [hfork] at hs'
    cases hs'
    refine ⟨fun _ => Iff.rfl, rfl, rfl, fun np hnp => ?_, fun _ _ => rfl⟩
    rw [hf] at hnp
    cases hnp
  · have hsome : findUnused s ≠ none := by rw [hf]; exact Option.some_ne_none np
    simp only [hsome, false_or]
    rcases hres with ⟨rfl, hfile, hinode, hst, hks, -, -, lost, hfree, hlost⟩ | ⟨hr, hno, -⟩
    · have hiff : LeavesNothing s s' ↔ lost = none := by
        constructor
        · intro hln
          -- a page that is lost was free once and is not free any more
          by_contra hne
          obtain ⟨q, rfl⟩ := Option.ne_none_iff_exists'.1 hne
          have hnd := (Multiset.nodup_add.1 h.nodup).1
          rw [← hfree, Lib.unit_some, Lib.nodup_add_singleton] at hnd
          have hin : q ∈ s.kmem.free := by simp [← hfree]
          exact hnd.2 ((hln.free q).2 hin)
        · rintro rfl
          rw [Lib.unit_none, add_zero] at hfree
          refine ⟨fun q => ?_, hfile, hinode, fun np' hnp' => ?_, fun q hq => ?_⟩
          · change q ∈ s'.kmem.free ↔ q ∈ s.kmem.free
            rw [hfree]
          · rw [hf] at hnp'
            cases hnp'
            rw [hrest.proc, Function.update_self]
            exact ⟨hst, hks⟩
          · have hqn : q ≠ np := by
              rintro rfl
              exact hq hf
            rw [hrest.proc, Function.update_of_ne hqn]
      rw [← hlost, not_not, ← hiff]
      constructor
      · exact fun hall => hall s' hfork
      · intro hln s'' hs''
        rw [hfork] at hs''
        cases hs''
        exact hln
    · refine ⟨fun _ => hno, fun _ s'' hs'' => ?_⟩
      rw [hfork] at hs''
      cases hs''
      omega

/-- A running process of one page with a free slot beside it and `n` free pages. -/
def oneProc (n : Nat) : Sys 2 where
  proc p := if p.val = 0 then
      ⟨.RUNNING, 1, 10, some 0, some onePage, PGSIZE, none, 0, 0, fun _ => none, none⟩
    else ⟨.UNUSED, 0, 0, none, none, 0, none, 0, 0, fun _ => none, none⟩
  nextpid := 2
  kmem := ⟨List.range' 4 n, fun _ _ => 0⟩
  kpgdir := ⟨0, fun _ => none, fun _ => none⟩
  pipes := []
  file _ := 0
  inode _ := 0

theorem oneProc_userOk (n : Nat) : UserOk onePage ((oneProc n).proc 0).sz (oneProc n).kmem :=
  onePage_userOk List.nodup_range' fun q hq => (List.mem_range'_1.1 hq).1

def someLayout : Layout := ⟨1024, by decide, by decide⟩

/-- 2000 free pages from `q` on. -/
def freePages (q : Nat) : Kmem := ⟨List.range' q 2000, fun _ _ => 0⟩

/-- With 67 free pages a `fork` of a process of one page fails, and one of them is gone. -/
theorem fork_loses_page : ∃ s' q, fork someLayout 0 (oneProc 67) = .ok (-1, s') ∧
    q ∈ (oneProc 67).kmem.freelist ∧ q ∉ s'.kmem.freelist := by
  have hlose : Loses (oneProc 67).kmem.freelist.length (pgroundup ((oneProc 67).proc 0).sz) :=
    ⟨0, by decide, by decide⟩
  have hok := oneProc_userOk 67
  rcases fork_spec someLayout (p := 0) (by decide) rfl hok.ok hok.size with
    ⟨-, x, hx, hxn⟩ | ⟨hf, -⟩ | ⟨np, r, s', v, -, hfork, -, -, hres⟩
  · have := pgroundup_le hok.size.le
    exact absurd hxn ((hok.mapped x (by omega)).2 hx)
  · exact absurd hf (by decide)
  · rcases hres with ⟨rfl, -, -, -, -, -, -, lost, hfree, hlost⟩ | ⟨-, hno, -⟩
    · obtain ⟨q, rfl⟩ := Option.ne_none_iff_exists'.1 (hlost.2 hlose)
      have hnd := (Multiset.nodup_add.1 hok.nodup).1
      have hin : q ∈ (oneProc 67).kmem.free := by simp [← hfree]
      rw [← hfree, Lib.unit_some, Lib.nodup_add_singleton] at hnd
      exact ⟨s', q, hfork, hin, hnd.2⟩
    · exact absurd hlose hno

/-- With 66 free pages it fails too and leaves nothing behind. -/
theorem fork_leaves_nothing_66 :
    UserOk onePage ((oneProc 66).proc 0).sz (oneProc 66).kmem ∧
    ∀ s', fork someLayout 0 (oneProc 66) = .ok (-1, s') → LeavesNothing (oneProc 66) s' := by
  refine ⟨oneProc_userOk 66,
    (fork_leaves_nothing someLayout (by decide) rfl (oneProc_userOk 66)).2 (.inr ?_)⟩
  rintro ⟨j, -, hj⟩
  have : (oneProc 66).kmem.freelist.length = 66 := List.length_range'
  omega

end Xv6.Vm
