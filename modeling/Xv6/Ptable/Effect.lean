import Xv6.Ptable.Sched
import Xv6.Ptable.Script

/-!
# What the steps do to the table

Most steps move a processor, wake up some processes or change the state of the process that runs.
`Effect` separates them from the ones that make processes and end them, so that a property of the
table need not look at every step. From it follows that a process runs on at most one processor,
with a kernel stack that stays.
-/

namespace Xv6.Ptable

open Function (update update_idem update_of_ne update_self)

variable {N : Nat} {κ χ σ L : Type} {K : Client N χ σ L} {s s' : St N κ χ σ L} {c c' : κ}
  {p q np : Fin N} {k k' : Pc N χ L}

def Proc.live (x : Proc N χ L) : Prop :=
  x.state = .SLEEPING ∨ x.state = .RUNNABLE ∨ x.state = .RUNNING

instance (x : Proc N χ L) : Decidable x.live := inferInstanceAs (Decidable (_ ∨ _))

/-- Its number, pid and parent stay, and it neither starts nor exits. -/
structure Kin (x y : Proc N χ L) : Prop where
  kept : Kept x y
  parent : y.parent = x.parent
  state : y.state = x.state ∨ x.live ∧ y.live

theorem Kin.refl (x : Proc N χ L) : Kin x x := ⟨⟨rfl, rfl, rfl, rfl, rfl⟩, rfl, .inl rfl⟩

theorem Kin.live_iff {x y : Proc N χ L} (h : Kin x y) : y.live ↔ x.live := by
  rcases h.state with he | ⟨h1, h2⟩
  · unfold Proc.live
    rw [he]
  · exact ⟨fun _ => h1, fun _ => h2⟩

theorem Kin.state_iff {x y : Proc N χ L} (h : Kin x y) {z : State}
    (hz : z = .UNUSED ∨ z = .EMBRYO ∨ z = .ZOMBIE) : y.state = z ↔ x.state = z := by
  rcases h.state with he | ⟨h1, h2⟩
  · rw [he]
  · have hne : ∀ w : Proc N χ L, w.live → w.state ≠ z := by
      rintro w (h | h | h) <;> rw [h] <;> rintro rfl <;> simp at hz
    exact ⟨fun he => absurd he (hne y h2), fun he => absurd he (hne x h1)⟩

theorem Woken.kin {x y : Proc N χ L} (h : Woken x y) (hp : y.parent = x.parent) : Kin x y := by
  refine ⟨h.kept, hp, ?_⟩
  rcases h.state with he | ⟨h1, h2⟩
  · exact .inl he
  · exact .inr ⟨.inl h1, .inr (.inl h2)⟩

theorem Calm.kin {t t' : Table N χ L} (h : Calm t t') (q : Fin N) : Kin (t q) (t' q) :=
  (h q).1.kin (h q).2

theorem kin_update {t : Table N χ L} {x : Proc N χ L} (h : Kin (t p) x) (q : Fin N) :
    Kin (t q) (update t p x q) := by
  by_cases hq : q = p
  · subst hq
    rw [update_self]
    exact h
  · rw [update_of_ne hq]
    exact .refl _

/-- The slot of the process that is being made in `userinit`. -/
def Pc.stage : Pc N χ L → Option (Option (Fin N × Bool))
  | .boot | .bootAlloc => some none
  | .bootStack np => some (some (np, false))
  | .bootReady np | .bootRun np => some (some (np, true))
  | _ => none

structure Quiet (s s' : St N κ χ σ L) : Prop where
  kin : ∀ q, Kin (s.proc q) (s'.proc q)
  initproc : s'.initproc = s.initproc
  births : s'.births = s.births
  nextpid : s'.nextpid = s.nextpid
  stage : ∀ d, (s'.cpu d).pc.stage = none ∨ (s'.cpu d).pc.stage = (s.cpu d).pc.stage
  exits : ∀ d, (s'.cpu d).pc = .exit → (s'.cpu d).proc = (s.cpu d).proc ∧
    ((s.cpu d).pc = .exit ∨ (s.cpu d).proc ≠ s.initproc)

section Steps

variable [DecidableEq κ]

theorem Quiet.of_kin {x : Cpu N χ L} (ht : ∀ q, Kin (s.proc q) (s'.proc q))
    (hcpu : s'.cpu = update s.cpu c x) (hi : s'.initproc = s.initproc)
    (hb : s'.births = s.births) (hn : s'.nextpid = s.nextpid)
    (hx : x.pc.stage = none ∨ x.pc.stage = (s.cpu c).pc.stage)
    (he : x.pc = .exit → x.proc = (s.cpu c).proc ∧ (s.cpu c).proc ≠ s.initproc) : Quiet s s' := by
  refine ⟨ht, hi, hb, hn, fun d => ?_, fun d hd => ?_⟩
  · rw [hcpu]
    by_cases hd : d = c
    · rw [hd, update_self]
      exact hx
    · rw [update_of_ne hd]
      exact .inr rfl
  · rw [hcpu] at hd ⊢
    by_cases hdc : d = c
    · rw [hdc, update_self] at hd ⊢
      exact ⟨(he hd).1, .inr (he hd).2⟩
    · rw [update_of_ne hdc] at hd ⊢
      exact ⟨rfl, .inl hd⟩

section
omit [DecidableEq κ]

theorem Pc.stage_eq (h : k.inProc = true) : k.stage = none := by
  cases k <;> first | rfl | cases h

theorem Enters.stage (h : Enters K s c k k') : k'.stage = none ∨ k'.stage = k.stage := by
  cases h <;> simp [Pc.stage]

theorem Enters.exits (h : Enters K s c k k') (he : k' = .exit) : (s.cpu c).proc ≠ s.initproc := by
  cases h <;> first | assumption | cases he

theorem Leaves.stage (h : Leaves k k') : k'.stage = none ∧ k' ≠ .exit := by
  cases h <;> exact ⟨rfl, nofun⟩

end

theorem kin_sched {x : Proc N χ L} (h : Kin (s.proc p) x) (q : Fin N) :
    Kin (s.proc q) (((s.setProc p x).sched c p k).proc q) := by
  change Kin _ (update (update s.proc p x) p
    { (update s.proc p x) p with context := k } q)
  rw [update_idem, update_self]
  obtain ⟨⟨h1, h2, h3, h4, h5⟩, h6, h7⟩ := h
  exact kin_update (x := { x with context := k }) ⟨⟨h1, h2, h3, h4, h5⟩, h6, h7⟩ q

variable [DecidableEq χ]

inductive Effect (c : κ) (s s' : St N κ χ σ L) : Prop
  | quiet (h : Quiet s s') (hlog : s'.log = s.log)
  | waitFail (h : Quiet s s') (p : Fin N) (hp : (s.cpu c).proc = some p)
    (hpc : (s.cpu c).pc = .wait)
    (hk : havekids s.proc p = false ∨ (s.proc p).killed = true)
    (hlog : s'.log = .fail (s.proc p).birth :: s.log)
  | bootAlloc (np : Fin N) (hpc : (s.cpu c).pc = .bootAlloc) (hnp : findUnused s.proc = some np)
    (h : s' = { (s.embryo np none).goto c (.bootStack np) with ptlock := none })
  | bootStack (np : Fin N) (hpc : (s.cpu c).pc = .bootStack np)
    (h : s' = { (s.setProc np { s.proc np with
      kstack := true, context := .rel .user, uid := 0, gid := 0 }).goto c (.bootReady np) with
      initproc := some np })
  | bootRun (np : Fin N) (hpc : (s.cpu c).pc = .bootRun np)
    (h : s' = (s.setState np .RUNNABLE).goto c .free)
  | alloc (p np : Fin N) (hp : (s.cpu c).proc = some p) (hpc : (s.cpu c).pc = .alloc)
    (hnp : findUnused s.proc = some np)
    (h : s' = (s.embryo np (some p)).goto c (.rel (.stack np)))
  | stack (np : Fin N) (hpc : (s.cpu c).pc = .code (.stack np))
    (h : s' = (s.setProc np { s.proc np with
      kstack := true, context := .rel .user }).goto c (.code (.copy np)))
  | unalloc (np : Fin N) (hpc : (s.cpu c).pc = .code (.stack np) ∨ (s.cpu c).pc = .code (.copy np))
    (h : s' = (s.setProc np { s.proc np with
      kstack := false, state := .UNUSED }).goto c (.code .user))
  | fill (p np : Fin N) (hp : (s.cpu c).proc = some p) (hpc : (s.cpu c).pc = .code (.fill np))
    (h : s' = (s.setProc np { s.proc np with
      parent := some p, uid := (s.proc p).uid, gid := (s.proc p).gid
      forker := (s.proc p).birth }).goto c (.code (.ready np)))
  | publish (np : Fin N) (hpc : (s.cpu c).pc = .publish np)
    (h : s' = { (s.setState np .RUNNABLE).goto c (.rel .user) with
      log := .fork (s.proc np).birth (s.proc np).pid (s.proc np).forker :: s.log })
  | exit (p init : Fin N) (hp : (s.cpu c).proc = some p) (hpc : (s.cpu c).pc = .exit)
    (hinit : s.initproc = some init)
    (h : s' = St.sched { s with
      proc := exitTable p init s.proc
      log := ((List.finRange N).filter fun q => (s.proc q).parent = some p).map (fun q =>
        .adopt (s.proc q).birth (s.proc init).birth) ++ .exit (s.proc p).birth :: s.log }
      c p .dead)
  | reap (p q : Fin N) (hp : (s.cpu c).proc = some p) (hpc : (s.cpu c).pc = .wait)
    (hz : findZombie s.proc p = some q)
    (h : s' = { (s.setProc q (reap (s.proc q))).goto c (.rel .user) with
      log := .reap (s.proc q).birth (s.proc q).pid (s.proc p).birth :: s.log })

theorem Inv.effect (h : Inv s) (hs : Step K c s s') : Effect c s s' := by
  have hrun : ∀ {p}, (s.cpu c).proc = some p → (s.cpu c).pc.inProc = true → (s.proc p).live :=
    fun hp hk => .inr (.inr (h.state_inProc hp hk))
  cases hs with
  | acquire hfree hpc he =>
    exact .quiet (.of_kin (fun q => .refl _) rfl rfl rfl rfl (hpc ▸ he.stage)
      fun hk => ⟨rfl, he.exits hk⟩) rfl
  | release hpc hl =>
    exact .quiet (.of_kin (fun q => .refl _) rfl rfl rfl rfl (.inl hl.stage.1)
      fun hk => absurd hk hl.stage.2) rfl
  | bootAlloc hpc hnp => exact .bootAlloc _ hpc hnp rfl
  | bootStack hpc => exact .bootStack _ hpc rfl
  | bootRun hpc => exact .bootRun _ hpc rfl
  | alloc hp hpc hnp => exact .alloc _ _ hp hpc hnp rfl
  | stack hpc => exact .stack _ hpc rfl
  | stackFail hpc => exact .unalloc _ (.inl hpc) rfl
  | copyFail hpc => exact .unalloc _ (.inr hpc) rfl
  | fill hp hpc => exact .fill _ _ hp hpc rfl
  | publish hpc => exact .publish _ hpc rfl
  | exit hp hpc hinit => exact .exit _ _ hp hpc hinit rfl
  | reap hp hpc hz => exact .reap _ _ hp hpc hz rfl
  | waitFail hp hpc hz hk =>
    exact .waitFail (.of_kin (fun q => .refl _) rfl rfl rfl rfl (.inl rfl) nofun) _ hp hpc hk rfl
  | swtch hpc =>
    refine .quiet (.of_kin (kin_update ⟨⟨rfl, rfl, rfl, rfl, rfl⟩, rfl, .inr ⟨?_, ?_⟩⟩) rfl rfl rfl
      rfl (.inl ?_) ?_) rfl
    · exact .inr (.inl (h.run c _ hpc).2)
    · exact .inr (.inr rfl)
    · exact Pc.stage_eq (Pc.resumes_spec (h.context _ (.inl (h.run c _ hpc).2))).2
    · intro hk
      have hres := h.context _ (.inl (h.run c _ hpc).2)
      dsimp only at hk
      rw [hk] at hres
      cases hres
  | yield hp hpc =>
    exact .quiet (.of_kin (kin_sched ⟨⟨rfl, rfl, rfl, rfl, rfl⟩, rfl,
      .inr ⟨hrun hp (by rw [hpc]; rfl), .inr (.inl rfl)⟩⟩) rfl rfl rfl rfl (.inl rfl) nofun) rfl
  | waitSleep hp hpc hz hk hkill =>
    exact .quiet (.of_kin (kin_sched ⟨⟨rfl, rfl, rfl, rfl, rfl⟩, rfl,
      .inr ⟨hrun hp (by rw [hpc]; rfl), .inl rfl⟩⟩) rfl rfl rfl rfl (.inl rfl) nofun) rfl
  | sleep hp hpc =>
    exact .quiet (.of_kin (kin_sched ⟨⟨rfl, rfl, rfl, rfl, rfl⟩, rfl,
      .inr ⟨hrun hp (by rw [hpc]; rfl), .inl rfl⟩⟩) rfl rfl rfl rfl (.inl rfl) nofun) rfl
  | nap hp hpc =>
    exact .quiet (.of_kin (kin_sched ⟨⟨rfl, rfl, rfl, rfl, rfl⟩, rfl,
      .inr ⟨hrun hp (by rw [hpc]; rfl), .inl rfl⟩⟩) rfl rfl rfl rfl (.inl rfl) nofun) rfl
  | wakeup hpc => exact .quiet (.of_kin (calm_wakeup1 _ _).kin rfl rfl rfl rfl (.inl rfl) nofun) rfl
  | wakeTop hpc =>
    exact .quiet (.of_kin (calm_wakeup1 _ _).kin rfl rfl rfl rfl (.inl rfl) nofun) rfl
  | kill hpc => exact .quiet (.of_kin (calm_kill _ _).kin rfl rfl rfl rfl (.inl rfl) nofun) rfl
  | chpr hpc => exact .quiet (.of_kin (calm_chpr _ _ _).kin rfl rfl rfl rfl (.inl rfl) nofun) rfl
  | setId hp hpc hid hpar =>
    refine .quiet (.of_kin (kin_update ?_) rfl rfl rfl rfl (.inl rfl) nofun) rfl
    split <;> exact ⟨⟨rfl, rfl, rfl, rfl, rfl⟩, rfl, .inl rfl⟩
  | waitAwake | awake | napAwake | exec | trap =>
    exact .quiet (.of_kin (kin_update ⟨⟨rfl, rfl, rfl, rfl, rfl⟩, rfl, .inl rfl⟩) rfl rfl rfl rfl
      (.inl rfl) nofun) rfl
  | outside =>
    exact .quiet ⟨fun q => .refl _, rfl, rfl, rfl, fun d => .inr rfl,
      fun d hd => ⟨rfl, .inl hd⟩⟩ rfl
  | skip | choose | back | allocFull | copy | sleepRelease | relock | setIdNull | setIdBounds
    | idRet | enter
  | set | leave => exact .quiet (.of_kin (fun q => .refl _) rfl rfl rfl rfl (.inl rfl) nofun) rfl

/-! ## A process runs on at most one processor -/

theorem Step.cpu_proc (hs : Step K c s s') (d : κ) :
    (s'.cpu d).proc = (s.cpu d).proc ∨
    d = c ∧ (∀ p, (s'.cpu d).proc = some p → (s.proc p).state = .RUNNABLE) := by
  have hgoto : ∀ (s : St N κ χ σ L) k, ((s.goto c k).cpu d).proc = (s.cpu d).proc := by
    intro s k
    by_cases hd : d = c
    · subst hd
      simp [St.goto]
    · simp [St.goto, hd]
  have hset : ∀ x : Cpu N χ L, (∀ p, x.proc = some p → (s.proc p).state = .RUNNABLE) →
      ((update s.cpu c x) d).proc = (s.cpu d).proc ∨
      d = c ∧ ∀ p, ((update s.cpu c x) d).proc = some p → (s.proc p).state = .RUNNABLE := by
    intro x hx
    by_cases hd : d = c
    · subst hd
      rw [update_self]
      exact .inr ⟨rfl, hx⟩
    · rw [update_of_ne hd]
      exact .inl rfl
  cases hs
  case choose hp =>
    refine hset _ fun q hq => ?_
    cases hq
    exact highest_runnable hp
  case back => exact hset _ nofun
  case outside => exact .inl rfl
  all_goals exact .inl (hgoto _ _)

theorem Inv.kstack (h : Inv s) (hs : Step K c s s') (hq : (s.cpu c').proc = some q) :
    (s'.proc q).kstack = (s.proc q).kstack := by
  -- the slots whose stack is allocated or freed are on no processor
  have hmake : ∀ {np}, (s.cpu c).pc.makes = some np → np ≠ q := by
    rintro np hnp rfl
    exact h.off_of_state (.inr (h.making c _ hnp).1) c' hq
  have hother : ∀ {np} {x : Proc N χ L}, np ≠ q → (update s.proc np x q).kstack =
      (s.proc q).kstack := fun hne => by rw [update_of_ne hne.symm]
  have hslot : ∀ {np} {x : Proc N χ L}, x.kstack = (s.proc np).kstack →
      (update s.proc np x q).kstack = (s.proc q).kstack := by
    intro np x hx
    by_cases hne : np = q
    · subst hne
      rwa [update_self]
    · exact hother hne
  cases h.effect hs with
  | quiet h' => exact (h'.kin q).kept.kstack
  | waitFail h' => exact (h'.kin q).kept.kstack
  | bootAlloc np _ _ he => subst he; exact hslot rfl
  | bootStack np hpc he => subst he; exact hother (hmake (by rw [hpc]; rfl))
  | bootRun np _ he => subst he; exact hslot rfl
  | alloc p np _ _ _ he => subst he; exact hslot rfl
  | stack np hpc he => subst he; exact hother (hmake (by rw [hpc]; rfl))
  | unalloc np hpc he =>
    subst he
    exact hother (hmake (by rcases hpc with hpc | hpc <;> rw [hpc] <;> rfl))
  | fill p np _ _ he => subst he; exact hslot rfl
  | publish np _ he => subst he; exact hslot rfl
  | exit p init hp hpc hinit he =>
    subst he
    obtain ⟨h1, -, h3, -⟩ := exitTable_spec p init s.proc
    change (update (exitTable p init s.proc) p _ q).kstack = _
    by_cases hqp : q = p
    · subst hqp
      rw [update_self]
      exact h3.kstack
    · rw [update_of_ne hqp]
      exact (h1 q hqp).kept.kstack
  | reap p r hp hpc hz he =>
    subst he
    refine hother ?_
    rintro rfl
    exact h.off_of_zombie (c := c) (by rw [hpc]; rfl) (by rw [hpc]; nofun)
      (findZombie_spec hz).2 c' hq

/-- A process runs on at most one processor, for any number of them: each is `c->proc` of at most
one; while `ptable.lock` is free it is RUNNING exactly if it is `c->proc` of exactly one; a process
that `scheduler` takes for `c->proc` is RUNNABLE, and still so when it switches to it; and no step
frees or replaces the kernel stack of a process that is still `c->proc`, zombies included. -/
theorem one_processor {g : σ} (h : Reachable K g s) :
    (∀ c c' p, (s.cpu c).proc = some p → (s.cpu c').proc = some p → c = c') ∧
    (s.ptlock = none → ∀ p, (s.proc p).state = .RUNNING ↔ ∃! c, (s.cpu c).proc = some p) ∧
    (∀ c p, (s.cpu c).pc = .run p → (s.cpu c).proc = some p ∧ (s.proc p).state = .RUNNABLE) ∧
    ∀ c s', Step K c s s' →
      (∀ d p, (s'.cpu d).proc = some p → (s.cpu d).proc ≠ some p →
        d = c ∧ (s.proc p).state = .RUNNABLE) ∧
      ∀ d p, (s.cpu d).proc = some p → (s'.proc p).kstack = (s.proc p).kstack := by
  have hi := h.inv
  refine ⟨hi.uniq, fun hfree p => ⟨fun hp => ?_, ?_⟩, hi.run, fun c s' hs => ⟨?_, ?_⟩⟩
  · obtain ⟨c, hc, -⟩ := hi.running p hp
    exact ⟨c, hc, fun c' hc' => hi.uniq c' c p hc' hc⟩
  · -- at the two other places of a processor with a process the lock is held
    rintro ⟨c, hc, -⟩
    have hheld : (s.cpu c).pc.holds = true → False := fun hh => by
      rw [(hi.lock c).2 hh] at hfree
      cases hfree
    rcases hi.state_of hc with ⟨-, h2⟩ | ⟨h1, -⟩ | ⟨h1, -⟩
    · exact h2
    · exact (hheld (by rw [h1]; rfl)).elim
    · exact (hheld (by rw [h1]; rfl)).elim
  · intro d p hd hne
    rcases hs.cpu_proc d with he | ⟨hdc, hr⟩
    · exact absurd (he ▸ hd) hne
    · exact ⟨hdc, hr p hd⟩
  · exact fun d p hd => hi.kstack hs hd

end Steps

theorem reach_two [DecidableEq χ] (K : Client 2 χ σ L) {g g1 g2 g3 : σ} (h₁ : K.outside 0 g g1)
    (h₂ : K.outside 0 g1 g2) (h₃ : K.outside 0 g2 g3) :
    ∃ s : St 2 (Fin 2) χ σ L, Reachable K g s ∧ s.ptlock = none ∧ s.lk = none ∧ s.g = g3 ∧
      s.cpu 0 = ⟨some 0, .code .user⟩ ∧ s.cpu 1 = ⟨some 1, .code .user⟩ ∧
      (s.proc 0).pid = 1 ∧ (s.proc 0).killed = false ∧
      (s.proc 1).pid = 2 ∧ (s.proc 1).state = .RUNNING := by
  refine ⟨_, ((((((((((((((((((((((((((((Reachable.start (K := K) (g := g) (0 : Fin 2)).on 0
    (.acquire rfl rfl .boot)).on 0
    (.bootAlloc rfl (show findUnused _ = some 0 from rfl))).on 0 (.bootStack rfl)).on 0
    (.acquire rfl rfl (.bootReady 0))).on 0 (.bootRun rfl)).on 0
    (.release rfl .top)).on 0 (.acquire rfl rfl .scheduler)).on 0
    (.choose (p := 0) rfl rfl)).on 0 (.swtch (p := 0) rfl)).on 0
    (.release (k := .rel .user) rfl (.code .user))).on 0
    (.outside (p := 0) rfl rfl h₁)).on 0 (.acquire rfl rfl .allocproc)).on 0
    (.alloc (p := 0) rfl rfl (show findUnused _ = some 1 from rfl))).on 0
    (.release rfl (.code (.stack 1)))).on 0 (.stack rfl)).on 0
    (.copy rfl)).on 0 (.fill (p := 0) rfl rfl)).on 0
    (.acquire rfl rfl (.fork 1))).on 0 (.publish rfl)).on 0
    (.release rfl (.code .user))).on 0 (.outside (p := 0) rfl rfl h₂)).on 0
    (.outside (p := 0) rfl rfl h₃)).on 1 (.acquire rfl rfl .scheduler)).on 1
    (.skip (p := 0) rfl (show State.RUNNING ≠ .RUNNABLE by decide))).on 1
    (.choose (p := 1) rfl rfl)).on 1
    (.swtch (p := 1) rfl)).on 1 (.release (k := .rel .user) rfl (.code .user))),
    ?_, ?_, ?_, ?_, ?_, ?_, ?_, ?_, ?_⟩ <;> rfl

/-- Init and one of its two children run, each on exactly one of the two processors, and the other
child is ready to run. -/
theorem one_processor_three : ∃ s : St 3 (Fin 2) Unit Unit Unit,
    Reachable .none () s ∧ (s.proc 2).state = .RUNNABLE ∧ (∃! c, (s.cpu c).proc = some 0) ∧
      ∃! c, (s.cpu c).proc = some 1 := by
  obtain ⟨s, h, hl, h0, h1, h2⟩ := exists_reachable (K := .none) (g := ()) (c := (0 : Fin 2))
    (boots 0 ++ forks 0 ++ forks 0 ++ goes 1 5)
    (P := fun s : St 3 (Fin 2) Unit Unit Unit => s.ptlock = none ∧ (s.proc 0).state = .RUNNING ∧
      (s.proc 1).state = .RUNNING ∧ (s.proc 2).state = .RUNNABLE) (by decide +kernel)
  have hone := (one_processor h).2.1 hl
  exact ⟨s, h, h2, (hone 0).1 h0, (hone 1).1 h1⟩

end Xv6.Ptable
