import Xv6.Ptable.Family

/-!
# The process listing

`procdump` takes no lock, and runs at an interrupt of the console: it may find the table in the
middle of a step of another processor, and another table at every load. It follows `p->parent` where
it has found a slot in use with a pid above 1. That goes wrong for a slot that `fork` is filling,
which has a pid long before it has a parent, and for one that `wait` frees between the loads.
-/

namespace Xv6.Ptable

variable {N : Nat} {κ χ σ L : Type} {K : Client N χ σ L} {s s' : St N κ χ σ L} {c c' : κ}
  {p q np : Fin N} {k k' : Pc N χ L}

structure Line where
  pid : BitVec 32
  state : State
  uid : BitVec 32
  gid : BitVec 32
  ppid : BitVec 32
deriving DecidableEq

/-- The loads of `procdump` from a slot, and from the parent of it: the test of `state`, the index
of `states`, the test of `pid`, and what is printed. -/
inductive Load where
  | unused
  | state
  | test
  | pid
  | uid
  | gid
  | parent
  | ppid
deriving DecidableEq

/-- The loop of `procdump` at one slot, where each load has a table of its own: no line for an
unused slot, and an error where a null pointer is followed. -/
def dumpSlot (see : Load → Table N χ L) (p : Fin N) : Except (Fin N) (Option Line) :=
  if (see .unused p).state = .UNUSED then .ok none
  else
    let line := Line.mk (see .pid p).pid (see .state p).state (see .uid p).uid (see .gid p).gid
    if (see .test p).pid.toInt ≤ 1 then .ok (some (line (see .ppid p).pid))
    else match (see .parent p).parent with
      | some r => .ok (some (line (see .ppid r).pid))
      | none => .error p

def dumpSlots (see : Fin N → Load → Table N χ L) : List (Fin N) → Except (Fin N) (List Line)
  | [] => .ok []
  | p :: ps => do
    let line ← dumpSlot (see p) p
    let lines ← dumpSlots see ps
    return line.toList ++ lines

/-- `procdump`, which finds the table `see p x` at the load `x` for slot `p`. -/
def procdump (see : Fin N → Load → Table N χ L) : Except (Fin N) (List Line) :=
  dumpSlots see (List.finRange N)

/-- `procdump` follows the parent of slot `p`. -/
def Follows (see : Load → Table N χ L) (p : Fin N) : Prop :=
  (see .unused p).state ≠ .UNUSED ∧ 1 < (see .test p).pid.toInt

/-- The slot holds a process: `fork` is not filling it, and `wait` has not begun to free it. -/
def Proc.settled (x : Proc N χ L) : Prop :=
  x.state ≠ .UNUSED ∧ x.state ≠ .EMBRYO ∧ 1 < x.pid.toInt

/-! ## Tables in the middle of a step -/

/-- The stores of `wait` to the slot that it frees, in their order. -/
def reapStores : List (Proc N χ L → Proc N χ L) :=
  [fun x => { x with kstack := false }, fun x => { x with pid := 0 },
    fun x => { x with parent := none }, fun x => { x with killed := false },
    fun x => { x with state := .UNUSED }]

/-- The first `n` of them. -/
def reapUpTo (n : Nat) (x : Proc N χ L) : Proc N χ L :=
  (reapStores.take n).foldl (fun y f => f y) x

theorem reapUpTo_all (n : Nat) (x : Proc N χ L) : reapUpTo (n + 5) x = reap x := by
  simp [reapUpTo, reapStores, reap]

/-- The tables that can be found in a state: the one of the state, or one in the middle of
`allocproc`, `exit` or `wait`, which hold `ptable.lock` meanwhile. The stores of `fork` to the
fields of its slot leave the state and pid of the slot alone. -/
inductive Seen [DecidableEq χ] (s : St N κ χ σ L) : Table N χ L → Prop
  | now : Seen s s.proc
  | alloc {c : κ} {np : Fin N} : (s.cpu c).pc = .alloc ∨ (s.cpu c).pc = .bootAlloc →
    findUnused s.proc = some np →
    Seen s (Function.update s.proc np { s.proc np with state := .EMBRYO })
  | exit {c : κ} {p init : Fin N} (n : Nat) : (s.cpu c).proc = some p → (s.cpu c).pc = .exit →
    s.initproc = some init →
    Seen s (abandon p init ((List.finRange N).take n)
      (wakeup1 s.proc ((s.proc p).parent.map Chan.proc)))
  | reap {c : κ} {p q : Fin N} (n : Nat) : (s.cpu c).proc = some p → (s.cpu c).pc = .wait →
    findZombie s.proc p = some q → Seen s (Function.update s.proc q (reapUpTo n (s.proc q)))

/-- A slot whose parent may be followed: it is being filled, it has no pid above 1, or it has a
parent. -/
def Proc.listed (x : Proc N χ L) : Prop :=
  x.state ≠ .UNUSED → 1 < x.pid.toInt → x.state ≠ .EMBRYO → x.parent ≠ none

theorem listed_reapUpTo {x : Proc N χ L} (h : x.listed) (n : Nat) : (reapUpTo n x).listed := by
  match n with
  | 0 => exact h
  | 1 => exact h
  | 2 | 3 | 4 =>
    intro _ hpid
    exact absurd (show 1 < (0 : BitVec 32).toInt from hpid) (by decide)
  | m + 5 =>
    rw [reapUpTo_all]
    exact fun hst => absurd rfl hst

theorem listed_woken {x y : Proc N χ L} (h : x.listed) (hw : Woken x y)
    (hp : x.parent ≠ none → y.parent ≠ none) : y.listed := by
  intro hst hpid hem
  rw [hw.kept.pid] at hpid
  refine hp (h (fun he => hst ?_) hpid fun he => hem ?_)
  · exact (hw.state_iff (by decide) (by decide)).2 he
  · exact (hw.state_iff (by decide) (by decide)).2 he

section Steps

variable [DecidableEq κ] [DecidableEq χ]

theorem Reachable.listed {g : σ} (h : Reachable K g s) (q : Fin N) : (s.proc q).listed := by
  intro hst hpid hem
  have hl := h.family.lineage
  have hused : (s.proc q).used := by
    cases hs : (s.proc q).state with
    | UNUSED => exact absurd hs hst
    | EMBRYO => exact absurd hs hem
    | SLEEPING => exact .inl (.inl hs)
    | RUNNABLE => exact .inl (.inr (.inl hs))
    | RUNNING => exact .inl (.inr (.inr hs))
    | ZOMBIE => exact .inr hs
  have hqi : s.initproc ≠ some q := by
    intro hqi
    rw [(hl.init q hqi).1] at hpid
    exact absurd hpid (by decide)
  obtain ⟨r, hr⟩ := hl.parent q hused hqi
  rw [hr.eq]
  exact nofun

theorem Seen.listed {g : σ} {t : Table N χ L} (ht : Seen s t) (h : Reachable K g s) (q : Fin N) :
    (t q).listed := by
  cases ht with
  | now => exact h.listed q
  | @alloc c np _ _ =>
    by_cases hq : q = np
    · subst hq
      rw [Function.update_self]
      exact fun _ _ hem => absurd rfl hem
    · rw [Function.update_of_ne hq]
      exact h.listed q
  | @exit c p init n _ _ _ =>
    obtain ⟨h1, h2⟩ := abandon_spec p init ((List.finRange N).take n)
      (wakeup1 s.proc ((s.proc p).parent.map Chan.proc)) q
    obtain ⟨h3, h4⟩ := calm_wakeup1 s.proc ((s.proc p).parent.map Chan.proc) q
    refine listed_woken (h.listed q) (h3.trans h1) fun hne => ?_
    rw [h2, h4]
    split
    · exact nofun
    · exact hne
  | @reap c p r n _ _ _ =>
    by_cases hq : q = r
    · subst hq
      rw [Function.update_self]
      exact listed_reapUpTo (h.listed q) n
    · rw [Function.update_of_ne hq]
      exact h.listed q

section
omit [DecidableEq κ] [DecidableEq χ]

theorem dumpSlot_ok {see : Load → Table N χ L} (h : Follows see p → (see .parent p).parent ≠ none) :
    ∃ line, dumpSlot see p = .ok line := by
  unfold dumpSlot
  by_cases hst : (see .unused p).state = .UNUSED
  · exact ⟨_, if_pos hst⟩
  · rw [if_neg hst]
    by_cases hpid : (see .test p).pid.toInt ≤ 1
    · exact ⟨_, if_pos hpid⟩
    · obtain ⟨r, hr⟩ := Option.ne_none_iff_exists'.1 (h ⟨hst, by omega⟩)
      dsimp only
      rw [if_neg hpid, hr]
      exact ⟨_, rfl⟩

theorem dumpSlots_ok {see : Fin N → Load → Table N χ L} {ps : List (Fin N)}
    (h : ∀ p ∈ ps, ∃ line, dumpSlot (see p) p = .ok line) :
    ∃ lines, dumpSlots see ps = .ok lines := by
  induction ps with
  | nil => exact ⟨[], rfl⟩
  | cons p ps ih =>
    obtain ⟨line, h1⟩ := h p List.mem_cons_self
    obtain ⟨lines, h2⟩ := ih fun r hr => h r (List.mem_cons_of_mem _ hr)
    refine ⟨line.toList ++ lines, ?_⟩
    unfold dumpSlots
    rw [h1, h2]
    rfl

end

/-- Whatever table `procdump` finds at each load, between two steps or in the middle of one: if
every slot whose parent it follows holds a process when the parent is read, then all these parents
are there, and the listing is printed to its end. -/
theorem procdump_parents {g : σ} (see : Fin N → Load → Table N χ L)
    (hsee : ∀ p x, ∃ s : St N κ χ σ L, Reachable K g s ∧ Seen s (see p x))
    (hset : ∀ p, Follows (see p) p → (see p .parent p).settled) :
    (∀ p, Follows (see p) p → (see p .parent p).parent ≠ none) ∧
    ∃ lines, procdump see = .ok lines := by
  have hpar : ∀ p, Follows (see p) p → (see p .parent p).parent ≠ none := by
    intro p hp
    obtain ⟨s, h, ht⟩ := hsee p .parent
    obtain ⟨h1, h2, h3⟩ := hset p hp
    exact ht.listed h p h1 h3 h2
  exact ⟨hpar, dumpSlots_ok fun p _ => dumpSlot_ok (hpar p)⟩

end Steps

/-- A child of init exits after the test of its state, and the listing has it as a zombie. -/
theorem procdump_parents_exits : ∃ s s' : St 2 Unit Unit Unit Unit, Reachable .none () s ∧
    Reachable .none () s' ∧ (s.proc 1).state = .RUNNING ∧ (s'.proc 1).state = .ZOMBIE ∧
    (s'.proc 1).parent ≠ none ∧
    ∃ lines, procdump (fun _ x => if x = .unused then s.proc else s'.proc) = .ok lines := by
  obtain ⟨s, h, h1⟩ := exists_reachable (K := .none) (g := ()) (c := ())
    (boots () ++ forks () ++ ((), .yield) :: goes () 5)
    (P := fun s : St 2 Unit Unit Unit Unit => (s.proc 1).state = .RUNNING) (by decide +kernel)
  obtain ⟨s', h', h0, h2, h3⟩ := exists_reachable (K := .none) (g := ()) (c := ())
    (boots () ++ forks () ++ ((), .yield) :: goes () 5 ++ ((), .exit) :: goes () 2)
    (P := fun s : St 2 Unit Unit Unit Unit => (s.proc 0).pid = 1 ∧ (s.proc 1).state = .ZOMBIE ∧
      1 < (s.proc 1).pid.toInt) (by decide +kernel)
  have hall := procdump_parents (K := .none) (g := ()) (κ := Unit) (σ := Unit)
    (fun _ x => if x = .unused then s.proc else s'.proc) (fun p x => ?_)
    fun p ⟨_, hp⟩ => ?_
  · refine ⟨s, s', h, h', h1, h2, hall.1 1 ⟨?_, h3⟩, hall.2⟩
    change (s.proc 1).state ≠ _
    rw [h1]
    decide
  · split
    · exact ⟨s, h, .now⟩
    · exact ⟨s', h', .now⟩
  · match p with
    | 0 =>
      change 1 < (s'.proc 0).pid.toInt at hp
      rw [h0] at hp
      exact absurd hp (by decide)
    | 1 =>
      change (s'.proc 1).settled
      refine ⟨?_, ?_, h3⟩ <;> rw [h2] <;> decide

/-- Init calls `fork`, which has taken a slot and released `ptable.lock`: the slot has the pid 2 and
no parent, and `procdump` follows a null pointer. -/
theorem procdump_embryo : ∃ s : St 2 Unit Unit Unit Unit, Reachable .none () s ∧ s.ptlock = none ∧
    (s.proc 1).state ≠ .UNUSED ∧ 1 < (s.proc 1).pid.toInt ∧ (s.proc 1).parent = none ∧
    procdump (fun _ _ => s.proc) = .error 1 :=
  exists_reachable (c := ()) (boots () ++ ((), .fork) :: goes () 2) (by decide +kernel)

end Xv6.Ptable
