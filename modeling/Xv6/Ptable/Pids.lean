import Mathlib.Algebra.Group.Int.Defs
import Mathlib.Algebra.Group.Nat.Defs
import Xv6.Ptable.Family

/-!
# Process ids

`allocproc` takes pids from the counter `nextpid`, a 32-bit `int` that it never compares with the
pids in use. The process with number `b` gets the pid `b + 1`, modulo `2 ^ 32`; as long as fewer
than `2 ^ 31` slots have been taken, pids are positive and tell the processes apart, and `kill` and
`chpr`, which look at the unused slots too, find the process that is meant. A `fork` that fails uses
up a pid, so that the counter wraps around in a system with two slots already.
-/

namespace Xv6.Ptable

variable {N : Nat} {κ χ σ L : Type} {K : Client N χ σ L} {s s' : St N κ χ σ L} {c c' : κ}
  {p q np : Fin N} {k k' : Pc N χ L}

/-- The pid of the process with number `b`. -/
def pidOf (b : Nat) : BitVec 32 := BitVec.ofNat 32 (b + 1)

variable {b : Nat}

theorem pidOf_toInt (h : b + 1 < 2 ^ 31) : (pidOf b).toInt = b + 1 := by
  have h1 : (pidOf b).toNat = b + 1 := by
    unfold pidOf
    rw [BitVec.toNat_ofNat]
    exact Nat.mod_eq_of_lt (by omega)
  rw [BitVec.toInt_eq_toNat_of_lt (by omega), h1]
  rfl

theorem pidOf_inj {b' : Nat} (hb : b + 1 < 2 ^ 31) (hb' : b' + 1 < 2 ^ 31)
    (h : pidOf b = pidOf b') :
    b = b' := by
  have h1 := congrArg BitVec.toInt h
  rw [pidOf_toInt hb, pidOf_toInt hb'] at h1
  omega

theorem pidOf_ne_zero (h : b + 1 < 2 ^ 31) : pidOf b ≠ 0 := by
  intro h1
  have h2 := pidOf_toInt h
  rw [h1] at h2
  have h3 : (0 : BitVec 32).toInt = 0 := rfl
  omega

/-- The slot has the pid that was taken from the counter with its number. It keeps both if `fork`
fails. -/
def Proc.numbered (x : Proc N χ L) : Prop := x.pid = pidOf x.birth

/-- All slots have pids of their own, except those that `wait` has freed. -/
structure Pids (s : St N κ χ σ L) : Prop where
  next : s.nextpid = pidOf s.births
  slot : ∀ q, (s.proc q).numbered ∨ (s.proc q).state = .UNUSED ∧ (s.proc q).pid = 0
  lt : ∀ q, (s.proc q).numbered → (s.proc q).birth < s.births
  inj : ∀ q r, (s.proc q).numbered → (s.proc r).numbered →
    (s.proc q).birth = (s.proc r).birth → q = r
  log : ∀ child pid parent, .fork child pid parent ∈ s.log → child < s.births ∧ pid = pidOf child

namespace Pids

theorem numbered (h : Pids s) (hq : (s.proc q).state ≠ .UNUSED) : (s.proc q).numbered :=
  (h.slot q).resolve_right fun h1 => hq h1.1

section

variable (h : Pids s) (hb : s'.births = s.births) (hn : s'.nextpid = s.nextpid)

include h hb hn

theorem frame
    (hk : ∀ q, (s'.proc q).birth = (s.proc q).birth ∧
      ((s'.proc q).numbered → (s.proc q).numbered) ∧
      ((s'.proc q).pid = (s.proc q).pid ∧
        ((s.proc q).state = .UNUSED → (s'.proc q).state = .UNUSED) ∨
        (s'.proc q).state = .UNUSED ∧ (s'.proc q).pid = 0))
    (hlog : ∀ child pid parent, .fork child pid parent ∈ s'.log →
      .fork child pid parent ∈ s.log ∨ child < s.births ∧ pid = pidOf child) : Pids s' := by
  refine ⟨?_, fun q => ?_, fun q hq => ?_, fun q r hq hr he => ?_, fun child pid parent he => ?_⟩
  · rw [hn, hb]
    exact h.next
  · obtain ⟨h1, -, h2 | h2⟩ := hk q
    · refine (h.slot q).imp (fun h3 => ?_) fun h3 => ⟨h2.2 h3.1, h2.1.trans h3.2⟩
      unfold Proc.numbered
      rw [h1, h2.1]
      exact h3
    · exact .inr h2
  · rw [(hk q).1, hb]
    exact h.lt q ((hk q).2.1 hq)
  · rw [(hk q).1, (hk r).1] at he
    exact h.inj q r ((hk q).2.1 hq) ((hk r).2.1 hr) he
  · rw [hb]
    exact (hlog child pid parent he).elim (h.log child pid parent) id

theorem keep
    (hk : ∀ q, (s'.proc q).birth = (s.proc q).birth ∧ (s'.proc q).pid = (s.proc q).pid ∧
      ((s.proc q).state = .UNUSED → (s'.proc q).state = .UNUSED))
    (hlog : ∀ child pid parent, .fork child pid parent ∈ s'.log →
      .fork child pid parent ∈ s.log ∨ child < s.births ∧ pid = pidOf child) : Pids s' := by
  refine h.frame hb hn (fun q => ?_) hlog
  obtain ⟨h1, h2, h3⟩ := hk q
  refine ⟨h1, fun h4 => ?_, .inl ⟨h2, h3⟩⟩
  unfold Proc.numbered at h4 ⊢
  rwa [h1, h2] at h4

variable {x : Proc N χ L}

theorem update (hproc : s'.proc = Function.update s.proc np x)
    (hx : x.birth = (s.proc np).birth ∧ x.pid = (s.proc np).pid)
    (hst : (s.proc np).state = .UNUSED → x.state = .UNUSED)
    (hlog : ∀ child pid parent, .fork child pid parent ∈ s'.log →
      .fork child pid parent ∈ s.log ∨ child < s.births ∧ pid = pidOf child) : Pids s' := by
  refine h.keep hb hn (fun q => ?_) hlog
  rw [hproc]
  by_cases hq : q = np
  · subst hq
    rw [Function.update_self]
    exact ⟨hx.1, hx.2, hst⟩
  · rw [Function.update_of_ne hq]
    exact ⟨rfl, rfl, id⟩

end

theorem quiet (h : Pids s) (hq : Quiet s s')
    (hlog : ∀ child pid parent, .fork child pid parent ∈ s'.log → .fork child pid parent ∈ s.log) :
    Pids s' := by
  refine h.keep hq.births hq.nextpid (fun q => ?_) fun child pid parent he => .inl (hlog _ _ _ he)
  have hk := hq.kin q
  exact ⟨hk.kept.birth, hk.kept.pid, (hk.state_iff (.inl rfl)).2⟩

theorem alloc (h : Pids s) (hb : s'.births = s.births + 1) (hn : s'.nextpid = s.nextpid + 1)
    (hproc : s'.proc = Function.update s.proc np x) (hx : x.birth = s.births)
    (hpid : x.pid = s.nextpid) (hlog : s'.log = s.log) : Pids s' := by
  have hself : s'.proc np = x := by rw [hproc, Function.update_self]
  have hne : ∀ q, q ≠ np → s'.proc q = s.proc q := fun q hq => by
    rw [hproc, Function.update_of_ne hq]
  have hnum : x.numbered := by
    unfold Proc.numbered
    rw [hpid, hx]
    exact h.next
  refine ⟨?_, fun q => ?_, fun q hq => ?_, fun q r hq hr he => ?_, fun child pid parent he => ?_⟩
  · rw [hn, hb, h.next]
    exact (BitVec.ofNat_add ..).symm
  · by_cases hqn : q = np
    · rw [hqn, hself]
      exact .inl hnum
    · rw [hne q hqn]
      exact h.slot q
  · by_cases hqn : q = np
    · rw [hqn, hself, hx, hb]
      exact Nat.lt_succ_self _
    · rw [hne q hqn] at hq ⊢
      rw [hb]
      exact Nat.lt_succ_of_lt (h.lt q hq)
  · exact fresh_inj (P := Proc.numbered) hne (hself ▸ hx) h.lt h.inj hq hr he
  · rw [hlog] at he
    rw [hb]
    exact ⟨Nat.lt_succ_of_lt (h.log _ _ _ he).1, (h.log _ _ _ he).2⟩

theorem reap (h : Pids s) (hb : s'.births = s.births) (hn : s'.nextpid = s.nextpid)
    (hproc : s'.proc = Function.update s.proc np x) (hold : (s.proc np).state ≠ .UNUSED)
    (hx : x.birth = (s.proc np).birth) (hst : x.state = .UNUSED ∧ x.pid = 0)
    (hlog : ∀ child pid parent, .fork child pid parent ∈ s'.log → .fork child pid parent ∈ s.log) :
    Pids s' := by
  refine h.frame hb hn (fun q => ?_) fun child pid parent he => .inl (hlog _ _ _ he)
  rw [hproc]
  by_cases hq : q = np
  · subst hq
    rw [Function.update_self]
    exact ⟨hx, fun _ => h.numbered hold, .inr hst⟩
  · rw [Function.update_of_ne hq]
    exact ⟨rfl, id, .inl ⟨rfl, id⟩⟩

section Steps

variable [DecidableEq κ] [DecidableEq χ]

theorem step (h : Pids s) (hi : Inv s) (hs : Step K c s s') : Pids s' := by
  cases hi.effect hs with
  | quiet hq hlog => exact h.quiet hq fun _ _ _ he => hlog ▸ he
  | waitFail hq p _ _ _ hlog =>
    refine h.quiet hq fun _ _ _ he => ?_
    rw [hlog] at he
    exact (List.mem_cons.1 he).resolve_left nofun
  | bootAlloc np _ _ he => subst he; exact h.alloc rfl rfl rfl rfl rfl rfl
  | alloc p np _ _ _ he => subst he; exact h.alloc rfl rfl rfl rfl rfl rfl
  | bootStack np hpc he => subst he; exact h.update rfl rfl rfl ⟨rfl, rfl⟩ id fun _ _ _ => .inl
  | bootRun np hpc he =>
    subst he
    have hst := (hi.making c np (by rw [hpc]; rfl)).1
    refine h.update rfl rfl rfl ⟨rfl, rfl⟩ (fun hu => ?_) fun _ _ _ => .inl
    rw [hst] at hu
    cases hu
  | stack np hpc he => subst he; exact h.update rfl rfl rfl ⟨rfl, rfl⟩ id fun _ _ _ => .inl
  | unalloc np hpc he =>
    subst he
    exact h.update rfl rfl rfl ⟨rfl, rfl⟩ (fun _ => rfl) fun _ _ _ => .inl
  | fill p np hp hpc he => subst he; exact h.update rfl rfl rfl ⟨rfl, rfl⟩ id fun _ _ _ => .inl
  | publish np hpc he =>
    subst he
    have hst := (hi.making c np (by rw [hpc]; rfl)).1
    have hnum := h.numbered (q := np) (by rw [hst]; decide)
    refine h.update rfl rfl rfl ⟨rfl, rfl⟩ (fun hu => ?_) fun child pid parent he => ?_
    · rw [hst] at hu
      cases hu
    · rcases List.mem_cons.1 he with he | he
      · cases he
        exact .inr ⟨h.lt np hnum, hnum⟩
      · exact .inl he
  | exit p init hp hpc hinit he =>
    obtain ⟨h1, -, h3, h4⟩ := exitTable_spec p init s.proc
    have hlive : (s.proc p).state = .RUNNING := hi.state_inProc hp (by rw [hpc]; rfl)
    have hproc : s'.proc = Function.update (exitTable p init s.proc) p
        { exitTable p init s.proc p with context := .dead } := by rw [he]; rfl
    refine h.keep (by rw [he]; rfl) (by rw [he]; rfl) (fun q => ?_) fun child pid parent hm =>
      .inl ?_
    · rw [hproc]
      by_cases hq : q = p
      · subst hq
        rw [Function.update_self]
        refine ⟨h3.birth, h3.pid, fun hu => ?_⟩
        rw [hlive] at hu
        cases hu
      · rw [Function.update_of_ne hq]
        exact ⟨(h1 q hq).kept.birth, (h1 q hq).kept.pid,
          ((h1 q hq).state_iff (by decide) (by decide)).2⟩
    · rw [he] at hm
      change _ ∈ List.map _ _ ++ _ :: s.log at hm
      simpa using hm
  | reap p q hp hpc hz he =>
    subst he
    have hst := (findZombie_spec hz).2
    refine h.reap rfl rfl rfl (by rw [hst]; decide) rfl ⟨rfl, rfl⟩ fun _ _ _ hm => ?_
    exact (List.mem_cons.1 hm).resolve_left nofun

end Steps

end Pids

variable {g : σ}

section Steps

variable [DecidableEq κ] [DecidableEq χ]

omit [DecidableEq χ] in
theorem pids_start (c : κ) (g : σ) : Pids (start c g : St N κ χ σ L) := by
  have hnone : ∀ q, ¬ ((start c g : St N κ χ σ L).proc q).numbered := fun q => by
    change ¬ (0 : BitVec 32) = pidOf 0
    decide
  exact ⟨rfl, fun q => .inr ⟨rfl, rfl⟩, fun q hq => absurd hq (hnone q),
    fun q r hq => absurd hq (hnone q), nofun⟩

theorem Reachable.pids (h : Reachable K g s) : Pids s := by
  induction h with
  | start c => exact pids_start c g
  | step hr hs ih => exact ih.step hr.inv hs

end Steps

/-! ## The search for a pid -/

theorem Pids.find (h : Pids s) (hb : s.births < 2 ^ 31) (hq : (s.proc q).state ≠ .UNUSED) :
    ((List.finRange N).find? fun r => (s.proc r).pid = (s.proc q).pid) = some q := by
  have hnum := h.numbered hq
  have hlt : ∀ r, (s.proc r).numbered → (s.proc r).birth + 1 < 2 ^ 31 := fun r hr => by
    have := h.lt r hr
    omega
  -- a slot with this pid has it from the counter, as 0 is not among the pids given so far
  have honly : ∀ r, (s.proc r).pid = (s.proc q).pid → r = q := by
    intro r hr
    have hrn : (s.proc r).numbered := by
      refine (h.slot r).resolve_right fun h1 => ?_
      rw [h1.2, hnum] at hr
      exact pidOf_ne_zero (hlt q hnum) hr.symm
    rw [hnum, hrn] at hr
    exact h.inj r q hrn hnum (pidOf_inj (hlt r hrn) (hlt q hnum) hr)
  cases hf : (List.finRange N).find? fun r => (s.proc r).pid = (s.proc q).pid with
  | none => simpa using List.find?_eq_none.1 hf q (List.mem_finRange q)
  | some r => rw [honly r (by simpa using List.find?_some hf)]

variable {t : Table N χ L} {pid : BitVec 32}

theorem killTable_of_find (h : ((List.finRange N).find? fun r => (t r).pid = pid) = some q) :
    killTable t pid = Function.update t q { t q with
      killed := true
      state := if (t q).state = .SLEEPING then .RUNNABLE else (t q).state } := by
  unfold killTable
  rw [h]

theorem chprTable_of_find {priority : Int}
    (h : ((List.finRange N).find? fun r => (t r).pid = pid) = some q) :
    chprTable t pid priority = Function.update t q { t q with priority := priority } := by
  unfold chprTable
  rw [h]

/-! ## Runs of `fork` -/

/-- A process runs with the pid 1, there is room in the table, and `n` slots have been taken. -/
structure Poised (s : St N κ χ σ L) (c : κ) (p np : Fin N) (n : Nat) : Prop where
  lock : s.ptlock = none
  cpu : s.cpu c = ⟨some p, .code .user⟩
  slot : findUnused s.proc = some np
  state : (s.proc p).state = .RUNNING
  pid : (s.proc p).pid = 1
  births : s.births = n
  next : s.nextpid = pidOf n

variable {n : Nat}

theorem Poised.ne (h : Poised s c p np n) : p ≠ np := by
  rintro rfl
  have h1 := findUnused_state h.slot
  rw [h.state] at h1
  cases h1

theorem findUnused_congr {t' : Table N χ L} (h : ∀ q, (t' q).state = (t q).state) :
    findUnused t' = findUnused t := by
  unfold findUnused
  simp only [h]

section Steps

variable [DecidableEq κ] [DecidableEq χ]

omit [DecidableEq χ] in
theorem goto_pc (s : St N κ χ σ L) (c : κ) (k : Pc N χ L) : ((s.goto c k).cpu c).pc = k := by
  simp [St.goto]

section

variable (h : Reachable K g s) (hp : Poised s c p np n)

include h hp

theorem Poised.alloc :
    ∃ s', Reachable K g s' ∧ s'.ptlock = none ∧ s'.cpu c = ⟨some p, .code (.stack np)⟩ ∧
      s'.births = n + 1 ∧ s'.nextpid = pidOf (n + 1) ∧ s'.proc = Function.update s.proc np
        { s.proc np with
          state := .EMBRYO, pid := pidOf n, priority := 10, birth := n, maker := some p } := by
  have hcpu := hp.cpu
  refine ⟨_, ((h.step (c := c) (.acquire hp.lock (by rw [hcpu]) .allocproc)).step
    (c := c) (.alloc (p := p) ?_ ?_ hp.slot)).step (c := c) (.release ?_ (.code (.stack np))),
    rfl, ?_, ?_, ?_, ?_⟩
  · simp [St.goto, hcpu]
  · simp [St.goto]
  · simp [St.goto]
  · simp [St.goto, St.embryo, St.setProc, hcpu]
  · exact congrArg (· + 1) hp.births
  · change s.nextpid + 1 = _
    rw [hp.next]
    exact (BitVec.ofNat_add ..).symm
  · obtain rfl := hp.births
    rw [← hp.next]
    rfl

theorem Poised.fail : ∃ s', Reachable K g s' ∧ Poised s' c p np (n + 1) := by
  obtain ⟨s', h', hl, hcpu, hb, hn, hproc⟩ := hp.alloc h
  have hself : (s.proc np).state = .UNUSED := findUnused_state hp.slot
  have hpc : (s'.cpu c).pc = .code (.stack np) := by rw [hcpu]
  refine ⟨_, h'.step (c := c) (.stackFail hpc), hl, ?_, ?_, ?_, ?_, hb, hn⟩
  · simp [St.goto, St.setProc, hcpu]
  · refine (findUnused_congr fun q => ?_).trans hp.slot
    by_cases hq : q = np
    · subst hq
      simp [St.goto, St.setProc, hself]
    · simp [St.goto, St.setProc, hq, hproc]
  · simp [St.goto, St.setProc, hproc, hp.ne, hp.state]
  · simp [St.goto, St.setProc, hproc, hp.ne, hp.pid]

theorem Poised.fails (m : Nat) : ∃ s', Reachable K g s' ∧ Poised s' c p np (n + m) := by
  induction m with
  | zero => exact ⟨s, h, hp⟩
  | succ m ih =>
    obtain ⟨s', h', hp'⟩ := ih
    exact hp'.fail h'

theorem Poised.fork :
    ∃ s' : St N κ χ σ L, Reachable K g s' ∧ s'.births = n + 1 ∧ (s'.proc p).live ∧
    (s'.proc p).pid = 1 ∧
      (s'.proc np).live ∧ (s'.proc np).pid = pidOf n ∧
      ∃ child parent, .fork child (pidOf n) parent ∈ s'.log := by
  obtain ⟨s', h', hl, hcpu, hb, hn, hproc⟩ := hp.alloc h
  have hpc : (s'.cpu c).pc = .code (.stack np) := by rw [hcpu]
  refine ⟨_, ((((h'.step (c := c) (.stack hpc)).step (c := c) (.copy (goto_pc ..))).step
    (c := c) (.fill (p := p) ?_ (goto_pc ..))).step (c := c)
      (.acquire hl (goto_pc ..) (.fork np))).step
    (c := c) (.publish (goto_pc ..)), hb, .inr (.inr ?_), ?_, .inr (.inl ?_), ?_, n,
      (s.proc p).birth, ?_⟩
  · simp [St.goto, St.setProc, hcpu]
  · simp [St.goto, St.setProc, St.setState, hproc, hp.ne, hp.state]
  · simp [St.goto, St.setProc, St.setState, hproc, hp.ne, hp.pid]
  · simp [St.goto, St.setProc, St.setState]
  · simp [St.goto, St.setProc, St.setState, hproc]
  · simp [St.goto, St.setProc, hproc, hp.ne]

end

/-- In every run in which fewer than `2 ^ 31` slots have been taken so far, the processes in the
table have different pids, all of them positive; `fork` has returned positive pids only, and
different ones; a pid that `wait` has returned is the one of a single process; and `kill` and
`chpr` with the pid of a process change this process and no other slot. -/
theorem pids_unique {g : σ} (h : Reachable K g s) (hb : s.births < 2 ^ 31) :
    (∀ q r, (s.proc q).state ≠ .UNUSED → (s.proc r).state ≠ .UNUSED →
      (s.proc q).pid = (s.proc r).pid → q = r) ∧
    (∀ q, (s.proc q).state ≠ .UNUSED → 0 < (s.proc q).pid.toInt) ∧
    (∀ child pid parent, .fork child pid parent ∈ s.log → 0 < pid.toInt ∧
      ∀ child' parent', .fork child' pid parent' ∈ s.log → child' = child) ∧
    (∀ child pid parent, .reap child pid parent ∈ s.log → 0 < pid.toInt ∧
      ∀ child' parent', .reap child' pid parent' ∈ s.log → child' = child) ∧
    ∀ q, (s.proc q).state ≠ .UNUSED →
      killTable s.proc (s.proc q).pid = Function.update s.proc q { s.proc q with
        killed := true
        state := if (s.proc q).state = .SLEEPING then .RUNNABLE else (s.proc q).state } ∧
      ∀ priority, chprTable s.proc (s.proc q).pid priority =
        Function.update s.proc q { s.proc q with priority := priority } := by
  have hp := h.pids
  have hpos : ∀ b, b < s.births → 0 < (pidOf b).toInt := by
    intro b hlt
    rw [pidOf_toInt (by omega)]
    omega
  have hfork : ∀ child pid parent, .fork child pid parent ∈ s.log → 0 < pid.toInt ∧
      ∀ child' parent', .fork child' pid parent' ∈ s.log → child' = child := by
    intro child pid parent he
    obtain ⟨h1, h2⟩ := hp.log child pid parent he
    refine ⟨h2 ▸ hpos child h1, fun child' parent' he' => ?_⟩
    obtain ⟨h3, h4⟩ := hp.log child' pid parent' he'
    exact pidOf_inj (by omega) (by omega) (h4.symm.trans h2)
  -- the pid that `wait` returns is the one that `fork` returned
  have hreap : ∀ child pid parent, .reap child pid parent ∈ s.log →
      ∃ parent', .fork child pid parent' ∈ s.log := by
    intro child pid parent he
    obtain ⟨l1, l2, hl⟩ := List.append_of_mem he
    obtain ⟨-, ⟨n, hn, -⟩, -⟩ := h.family.log.event hl
    exact ⟨n, by rw [hl]; exact List.mem_append_right _ (List.mem_cons_of_mem _ hn)⟩
  refine ⟨fun q r hq hr he => ?_, fun q hq => ?_, hfork, fun child pid parent he => ?_,
    fun q hq => ?_⟩
  · have h1 := hp.find hb hq
    rw [he, hp.find hb hr] at h1
    exact (Option.some.inj h1).symm
  · have hnum := hp.numbered hq
    rw [hnum]
    exact hpos _ (hp.lt q hnum)
  · obtain ⟨n, hn⟩ := hreap child pid parent he
    refine ⟨(hfork child pid n hn).1, fun child' parent' he' => ?_⟩
    obtain ⟨n', hn'⟩ := hreap child' pid parent' he'
    exact (hfork child pid n hn).2 child' n' hn'
  · exact ⟨killTable_of_find (hp.find hb hq), fun _ => chprTable_of_find (hp.find hb hq)⟩

end Steps

theorem reach_poised :
    ∃ s : St 64 Unit Unit Unit Unit, Reachable .none () s ∧ Poised s () 0 1 1 := by
  obtain ⟨s, h, h1, h2, h3, h4, h5, h6, h7⟩ := exists_reachable (K := .none) (g := ()) (c := ())
    (boots ()) (P := fun s : St 64 Unit Unit Unit Unit => s.ptlock = none ∧
      s.cpu () = ⟨some 0, .code .user⟩ ∧ findUnused s.proc = some 1 ∧
      (s.proc 0).state = .RUNNING ∧ (s.proc 0).pid = 1 ∧ s.births = 1 ∧ s.nextpid = pidOf 1)
    (by decide +kernel)
  exact ⟨s, h, h1, h2, h3, h4, h5, h6, h7⟩

/-- The pids of init and a child of it. -/
theorem pids_unique_child : ∃ s : St 64 Unit Unit Unit Unit, Reachable .none () s ∧
    (s.proc 0).live ∧ (s.proc 1).live ∧ (s.proc 0).pid ≠ (s.proc 1).pid := by
  obtain ⟨s, h, hp⟩ := reach_poised
  obtain ⟨s', h', hb, h0, -, h1, -⟩ := hp.fork h
  refine ⟨s', h', h0, h1, fun he => ?_⟩
  exact absurd ((pids_unique h' (by rw [hb]; decide)).1 0 1 h0.state.1 h1.state.1 he) (by decide)

/-- After `2 ^ 32 - 1` calls of `fork` that find no memory the next one makes a process with the
pid of init, and after `2 ^ 31 - 2` of them it returns a negative pid. -/
theorem pids_wrap :
    (∃ s : St 64 Unit Unit Unit Unit, Reachable .none () s ∧ (s.proc 0).live ∧ (s.proc 1).live ∧
      (s.proc 0).pid = (s.proc 1).pid) ∧
    ∃ s : St 64 Unit Unit Unit Unit, Reachable .none () s ∧ ∃ child pid parent,
      .fork child pid parent ∈ s.log ∧ pid.toInt = -2 ^ 31 := by
  obtain ⟨s, h, hp⟩ := reach_poised
  constructor
  · obtain ⟨s1, h1, hp1⟩ := hp.fails h (2 ^ 32 - 1)
    obtain ⟨s2, h2, -, h3, h4, h5, h6, -⟩ := hp1.fork h1
    refine ⟨s2, h2, h3, h5, ?_⟩
    rw [h4, h6]
    decide
  · obtain ⟨s1, h1, hp1⟩ := hp.fails h (2 ^ 31 - 2)
    obtain ⟨s2, h2, -, -, -, -, -, child, parent, he⟩ := hp1.fork h1
    exact ⟨s2, h2, child, _, parent, he, by decide⟩

end Xv6.Ptable
