import Mathlib.Data.Fintype.Basic
import Mathlib.Tactic.FinCases
import Xv6.Ptable.Effect

/-!
# Who is killed

`kill` looks for a pid in every slot, whatever its state. A slot that no process has still has a
pid: 0 after `wait`, and the pid of the child after a `fork` that has failed. A `kill` of such a pid
answers 0, and `killed` stays set in the slot for the process that gets it next. A process that is
still being made can be hit as well, before `fork` has returned its pid to anyone.
-/

namespace Xv6.Ptable

open Function (update update_of_ne update_self)

variable {N : Nat} {κ χ σ L : Type} {K : Client N χ σ L} {s s' : St N κ χ σ L} {c c' : κ}
  {p q np : Fin N}

/-- `kill`, with the value that it returns. -/
def kill (t : Table N χ L) (pid : BitVec 32) : Int × Table N χ L :=
  (if ((List.finRange N).find? fun p => (t p).pid = pid).isSome then 0 else -1, killTable t pid)

theorem kill_fst (t : Table N χ L) (pid : BitVec 32) :
    ((kill t pid).1 = 0 ↔ ∃ q, (t q).pid = pid) ∧
      ((¬∃ q, (t q).pid = pid) → kill t pid = (-1, t)) := by
  unfold kill killTable
  cases hf : (List.finRange N).find? fun p => (t p).pid = pid with
  | none =>
    have hno : ¬∃ q, (t q).pid = pid := by
      rintro ⟨q, hq⟩
      have := List.find?_eq_none.1 hf q (List.mem_finRange q)
      simp [hq] at this
    exact ⟨⟨nofun, fun h => absurd h hno⟩, fun _ => rfl⟩
  | some p =>
    have hp : (t p).pid = pid := by simpa using List.find?_some hf
    exact ⟨⟨fun _ => ⟨p, hp⟩, fun _ => rfl⟩, fun h => absurd ⟨p, hp⟩ h⟩

/-- A process that `fork` has published, zombies included. -/
def Proc.started (x : Proc N χ L) : Prop :=
  x.state ≠ .UNUSED ∧ x.state ≠ .EMBRYO

theorem Proc.live.started {x : Proc N χ L} (h : x.live) : x.started := by
  rcases h with h | h | h <;> unfold Proc.started <;> rw [h] <;> exact ⟨nofun, nofun⟩

theorem Kin.started_iff {x y : Proc N χ L} (h : Kin x y) : y.started ↔ x.started := by
  unfold Proc.started
  rw [ne_eq, ne_eq, h.state_iff (.inl rfl), h.state_iff (.inr (.inl rfl))]

/-! ## Steps -/

/-- The process `p` on processor `c` takes a fatal trap. -/
def Traps (c : κ) (p : Fin N) (s s' : St N κ χ σ L) : Prop :=
  (s.cpu c).proc = some p ∧ (s.cpu c).pc = .code .user ∧ (s.proc p).killed = false ∧
    s'.proc = update s.proc p { s.proc p with killed := true }

section Steps

variable [DecidableEq κ] [DecidableEq χ]

omit [DecidableEq κ] [DecidableEq χ] in
theorem killed_update {t : Table N χ L} {x : Proc N χ L} (hx : x.killed = (t p).killed)
    (q : Fin N) : (update t p x q).killed = (t q).killed := by
  by_cases hq : q = p
  · subst hq
    rwa [update_self]
  · rw [update_of_ne hq]

section
omit [DecidableEq κ]

theorem killed_wakeup1 (t : Table N χ L) (ch : Option (Chan N χ)) (q : Fin N) :
    (wakeup1 t ch q).killed = (t q).killed := by
  unfold wakeup1
  split <;> rfl

theorem killed_abandon (cur init : Fin N) (l : List (Fin N)) (t : Table N χ L) (q : Fin N) :
    (abandon cur init l t q).killed = (t q).killed := by
  induction l generalizing t with
  | nil => rfl
  | cons p l ih =>
    have hset := killed_update (t := t) (x := { t p with parent := some init }) rfl q
    unfold abandon
    split
    · rw [ih, ← hset]
      split
      · exact killed_wakeup1 _ _ q
      · rfl
    · exact ih t

theorem killed_exitTable (cur init : Fin N) (t : Table N χ L) (q : Fin N) :
    (exitTable cur init t q).killed = (t q).killed := by
  refine (killed_update ?_ q).trans ((killed_abandon cur init _ _ q).trans (killed_wakeup1 _ _ q))
  rfl

end

section
omit [DecidableEq κ] [DecidableEq χ]

theorem killed_killTable {t : Table N χ L} {pid : BitVec 32}
    (h : (killTable t pid q).killed = true) : (t q).killed = true ∨ (t q).pid = pid := by
  revert h
  unfold killTable
  cases hf : (List.finRange N).find? fun p => (t p).pid = pid with
  | none => exact .inl
  | some p =>
    intro h
    by_cases hq : q = p
    · subst hq
      exact .inr (by simpa using List.find?_some hf)
    · dsimp only at h
      rw [update_of_ne hq] at h
      exact .inl h

theorem killed_chprTable (t : Table N χ L) (pid : BitVec 32) (priority : Int) (q : Fin N) :
    (chprTable t pid priority q).killed = (t q).killed := by
  unfold chprTable
  cases (List.finRange N).find? fun p => (t p).pid = pid with
  | none => rfl
  | some p => exact killed_update (x := { t p with priority := priority }) rfl q

end

theorem Step.killed (hs : Step K c s s') (hq : (s'.proc q).killed = true) :
    (s.proc q).killed = true ∨ (s.cpu c).pc = .kill (s.proc q).pid ∨ Traps c q s s' := by
  cases hs with
  | kill hpc =>
    rcases killed_killTable hq with h | h
    · exact .inl h
    · exact .inr (.inl (by rw [hpc, h]))
  | @trap p hp hpc =>
    cases hk : (s.proc q).killed with
    | true => exact .inl rfl
    | false =>
      by_cases hqp : q = p
      · subst hqp
        exact .inr (.inr ⟨hp, hpc, hk, rfl⟩)
      · change (update s.proc p _ q).killed = true at hq
        rw [update_of_ne hqp, hk] at hq
        cases hq
  | @reap p r hp hpc hz =>
    by_cases hqr : q = r
    · subst hqr
      change (update s.proc q _ q).killed = true at hq
      rw [update_self] at hq
      cases hq
    · change (update s.proc r _ q).killed = true at hq
      rw [update_of_ne hqr] at hq
      exact .inl hq
  | exit hp hpc hinit =>
    refine .inl ((killed_exitTable _ _ s.proc q).symm.trans ((killed_update ?_ q).symm.trans hq))
    rfl
  | wakeup | wakeTop => exact .inl (killed_wakeup1 s.proc _ q ▸ hq)
  | chpr => exact .inl (killed_chprTable s.proc _ _ q ▸ hq)
  | setId =>
    refine .inl ((killed_update ?_ q).symm.trans hq)
    split <;> rfl
  | yield | waitSleep | sleep | nap =>
    -- `sched` saves the context after the state has been set
    refine .inl ((killed_update ?_ q).symm.trans ((killed_update ?_ q).symm.trans hq)) <;> rfl
  | bootAlloc | bootStack | bootRun | swtch | alloc | stack | stackFail | copyFail | fill | publish
  | waitAwake | awake | napAwake | exec =>
    refine .inl ((killed_update ?_ q).symm.trans hq)
    rfl
  | acquire | release | skip | choose | back | allocFull | copy | waitFail | sleepRelease | relock
  | setIdNull | setIdBounds | idRet | enter | set | leave | outside => exact .inl hq

theorem Step.of_kill {pid : BitVec 32} (hs : Step K c s s') (hpc : (s.cpu c).pc = .kill pid) :
    s' = { s.goto c (.rel .user) with proc := (Ptable.kill s.proc pid).2 } := by
  cases hs with
  | kill h =>
    rw [hpc] at h
    cases h
    rfl
  | release h hl =>
    rw [hpc] at h
    subst h
    cases hl
  | acquire _ h he =>
    rw [hpc] at h
    subst h
    cases he
  | _ => simp_all

theorem Step.of_publish (hs : Step K c s s') (hpc : (s.cpu c).pc = .publish np) :
    s'.proc = update s.proc np { s.proc np with state := .RUNNABLE } := by
  cases hs with
  | publish h =>
    rw [hpc] at h
    cases h
    rfl
  | release h hl =>
    rw [hpc] at h
    subst h
    cases hl
  | acquire _ h he =>
    rw [hpc] at h
    subst h
    cases he
  | _ => simp_all

theorem Inv.started (h : Inv s) (hs : Step K c s s') (hq : (s.proc q).started) :
    (s'.proc q).started ∧ (s'.proc q).birth = (s.proc q).birth ∧ (s'.proc q).pid = (s.proc q).pid ∨
      ¬(s'.proc q).started ∧ (s'.proc q).killed = false := by
  have hother : ∀ {np} {x : Proc N χ L}, q ≠ np →
      (update s.proc np x q).started ∧
        (update s.proc np x q).birth = (s.proc q).birth ∧
        (update s.proc np x q).pid = (s.proc q).pid ∨
      ¬(update s.proc np x q).started ∧ (update s.proc np x q).killed = false := by
    intro np x hne
    rw [update_of_ne hne]
    exact .inl ⟨hq, rfl, rfl⟩
  have hkin : ∀ {x : Proc N χ L}, Kin (s.proc q) x → x.started ∧ x.birth = (s.proc q).birth ∧
      x.pid = (s.proc q).pid ∨ ¬x.started ∧ x.killed = false :=
    fun hx => .inl ⟨hx.started_iff.2 hq, hx.kept.birth, hx.kept.pid⟩
  have hmake : ∀ {np}, (s.cpu c).pc.makes = some np → q ≠ np := by
    rintro np hnp rfl
    exact hq.2 (h.making c _ hnp).1
  have hfree : ∀ {np}, findUnused s.proc = some np → q ≠ np := by
    rintro np hnp rfl
    exact hq.1 (by simpa using List.find?_some hnp)
  cases h.effect hs with
  | quiet h' => exact hkin (h'.kin q)
  | waitFail h' => exact hkin (h'.kin q)
  | bootAlloc np _ hnp he => subst he; exact hother (hfree hnp)
  | bootStack np hpc he => subst he; exact hother (hmake (by rw [hpc]; rfl))
  | bootRun np hpc he => subst he; exact hother (hmake (by rw [hpc]; rfl))
  | alloc p np _ _ hnp he => subst he; exact hother (hfree hnp)
  | stack np hpc he => subst he; exact hother (hmake (by rw [hpc]; rfl))
  | unalloc np hpc he =>
    subst he
    exact hother (hmake (by rcases hpc with hpc | hpc <;> rw [hpc] <;> rfl))
  | fill p np _ hpc he => subst he; exact hother (hmake (by rw [hpc]; rfl))
  | publish np hpc he => subst he; exact hother (hmake (by rw [hpc]; rfl))
  | exit p init hp hpc hinit he =>
    subst he
    obtain ⟨h1, -, h3, h4⟩ := exitTable_spec p init s.proc
    change (update (exitTable p init s.proc) p _ q).started ∧
      (update (exitTable p init s.proc) p _ q).birth = _ ∧
      (update (exitTable p init s.proc) p _ q).pid = _ ∨ _
    left
    by_cases hqp : q = p
    · subst hqp
      rw [update_self]
      refine ⟨?_, h3.birth, h3.pid⟩
      change (exitTable q init s.proc q).started
      unfold Proc.started
      rw [h4]
      exact ⟨nofun, nofun⟩
    · rw [update_of_ne hqp]
      obtain ⟨hk, -, hst⟩ := h1 q hqp
      refine ⟨?_, hk.birth, hk.pid⟩
      rcases hst with hst | ⟨-, hst⟩ <;> unfold Proc.started <;> rw [hst]
      · exact hq
      · exact ⟨nofun, nofun⟩
  | reap p r hp hpc hz he =>
    subst he
    by_cases hqr : q = r
    · subst hqr
      right
      change ¬(update s.proc q _ q).started ∧ (update s.proc q _ q).killed = false
      rw [update_self]
      exact ⟨fun hst => hst.1 rfl, rfl⟩
    · exact hother hqr

/-! ## Runs -/

instance (x : Proc N χ L) : Decidable x.started := inferInstanceAs (Decidable (_ ∧ _))

/-- No slot that is unused, or whose process is still being made, has the pid. -/
def Names (t : Table N χ L) (pid : BitVec 32) : Prop :=
  ∀ q, (t q).pid = pid → (t q).started

namespace Move

/-- A `kill` names no slot that is unused or whose process is still being made. -/
def Aimed (m : Move N κ χ σ L) : Prop :=
  ∀ pid, (m.pre.cpu m.cpu).pc = .kill pid → Names m.pre.proc pid

/-- The step kills the process in the slot `q`, which has started: it is a `kill` of its pid or a
fatal trap of its own. -/
def Kills (m : Move N κ χ σ L) (q : Fin N) : Prop :=
  (m.pre.proc q).started ∧
    ((m.pre.cpu m.cpu).pc = .kill (m.pre.proc q).pid ∨ Traps m.cpu q m.pre m.post)

end Move

variable {g : σ} {l : List (Move N κ χ σ L)}

/-- Only a process that has started is killed, by a step made after its start. -/
def KilledBy (l : List (Move N κ χ σ L)) (t : Table N χ L) : Prop :=
  ∀ q, (t q).killed = true → (t q).started ∧
    ∃ m ∈ l, (m.pre.proc q).birth = (t q).birth ∧ (m.pre.proc q).pid = (t q).pid ∧ m.Kills q

theorem Run.killedBy (h : Run K g l s) (hl : ∀ m ∈ l, m.Aimed) : KilledBy l s.proc := by
  induction h with
  | start c => exact nofun
  | @step l s s' c hrun hs ih =>
    intro q hq
    have hi := hrun.reachable.inv
    have ih := ih (fun m hm => hl m (List.mem_cons_of_mem _ hm)) q
    -- who sets `killed` in this step does so to a process that has started
    obtain ⟨hst, m, hm, hbirth, hpid, hkill⟩ :
      (s.proc q).started ∧ ∃ m ∈ (⟨c, s, s'⟩ :: l : List _),
        (m.pre.proc q).birth = (s.proc q).birth ∧ (m.pre.proc q).pid = (s.proc q).pid ∧
          m.Kills q := by
      rcases hs.killed hq with hk | hk | hk
      · obtain ⟨hst, m, hm, h⟩ := ih hk
        exact ⟨hst, m, List.mem_cons_of_mem _ hm, h⟩
      · have hst := hl _ List.mem_cons_self _ hk q rfl
        exact ⟨hst, _, List.mem_cons_self, rfl, rfl, hst, .inl hk⟩
      · have hrunning := hi.state_inProc hk.1 (by rw [hk.2.1]; rfl)
        have hst : (s.proc q).started := Proc.live.started (.inr (.inr hrunning))
        exact ⟨hst, _, List.mem_cons_self, rfl, rfl, hst, .inr hk⟩
    rcases hi.started hs hst with ⟨hst', hb, hp⟩ | ⟨-, hno⟩
    · exact ⟨hst', m, hm, hbirth.trans hb.symm, hpid.trans hp.symm, hkill⟩
    · rw [hno] at hq
      cases hq

/-- In every run in which no `kill` names a slot that is unused or whose process is still being
made: a `kill` of that kind returns 0 exactly if a used slot has the pid, and returns -1 and
changes nothing otherwise; a process has `killed` set only after a `kill` of its pid or a trap of
its own since it has started; and a child starts without it. -/
theorem kill_named (h : Run K g l s) (hl : ∀ m ∈ l, m.Aimed) :
    (∀ c s' pid, (s.cpu c).pc = .kill pid → Names s.proc pid → Step K c s s' →
      s' = { s.goto c (.rel .user) with proc := (kill s.proc pid).2 } ∧
      ((kill s.proc pid).1 = 0 ↔ ∃ q, (s.proc q).state ≠ .UNUSED ∧ (s.proc q).pid = pid) ∧
      ((¬∃ q, (s.proc q).state ≠ .UNUSED ∧ (s.proc q).pid = pid) →
        kill s.proc pid = (-1, s.proc))) ∧
    (∀ q, (s.proc q).live → (s.proc q).killed = true → ∃ m ∈ l,
      (m.pre.proc q).birth = (s.proc q).birth ∧ (m.pre.proc q).pid = (s.proc q).pid ∧ m.Kills q) ∧
    ∀ c np s', (s.cpu c).pc = .publish np → Step K c s s' → (s'.proc np).state = .RUNNABLE ∧
      (s'.proc np).killed = false := by
  have hk := h.killedBy hl
  refine ⟨fun c s' pid hpc hn hs => ?_, fun q _ hq => (hk q hq).2, fun c np s' hpc hs => ?_⟩
  · have hex : (∃ q, (s.proc q).state ≠ .UNUSED ∧ (s.proc q).pid = pid) ↔
        ∃ q, (s.proc q).pid = pid :=
      exists_congr fun q => ⟨And.right, fun hq => ⟨(hn q hq).1, hq⟩⟩
    rw [hex]
    exact ⟨hs.of_kill hpc, kill_fst s.proc pid⟩
  · rw [hs.of_publish hpc, update_self]
    refine ⟨rfl, ?_⟩
    -- the child is still being made, so that nothing can have killed it
    cases hkilled : (s.proc np).killed with
    | false => rfl
    | true =>
      have hmaking := (h.reachable.inv.making c np (by rw [hpc]; rfl)).1
      exact absurd hmaking (hk np hkilled).1.2

end Steps

/-- A run in which init kills its child. -/
theorem kill_named_child : ∃ (l : List (Move 2 Unit Unit Unit Unit)) (s : St 2 Unit Unit Unit Unit),
    Run .none () l s ∧ (∀ m ∈ l, m.Aimed) ∧ (s.proc 1).live ∧ (s.proc 1).killed = true ∧
      ∃ m ∈ l, (m.pre.proc 1).birth = (s.proc 1).birth ∧ (m.pre.proc 1).pid = (s.proc 1).pid ∧
        m.Kills 1 := by
  obtain ⟨l, s, h, hall, hlive, hkilled⟩ := exists_run (K := .none) (g := ()) (c := ())
    (boots () ++ forks () ++ [((), .kill 2), ((), .go)])
    (P := fun l (s : St 2 Unit Unit Unit Unit) =>
      (∀ m ∈ l, ∀ q, (m.pre.cpu m.cpu).pc = .kill (m.pre.proc q).pid → (m.pre.proc q).started) ∧
        (s.proc 1).live ∧ (s.proc 1).killed = true)
    (by decide +kernel)
  have haimed : ∀ m ∈ l, m.Aimed := by
    intro m hm pid hpc q hq
    exact hall m hm q (by rw [hpc, hq])
  exact ⟨l, s, h, haimed, hlive, hkilled, (kill_named h haimed).2.1 1 hlive hkilled⟩

/-- Init kills the process 0, which nobody is, and forks: there is no such process, but `kill`
answers 0, and the child starts with `killed` set, although nobody has killed its pid and it has not
run yet. -/
theorem kill_stray : ∃ (l : List (Move 2 Unit Unit Unit Unit)) (s : St 2 Unit Unit Unit Unit),
    Run .none () l s ∧ (s.proc 1).live ∧ (s.proc 1).killed = true ∧ (s.proc 1).pid = 2 ∧
      (∀ m ∈ l, (m.pre.cpu m.cpu).pc ≠ .kill 2 ∧ (m.pre.cpu m.cpu).proc ≠ some 1) ∧
      ∃ m ∈ l, (m.pre.cpu m.cpu).pc = .kill 0 ∧ (kill m.pre.proc 0).1 = 0 ∧
        ∀ q, (m.pre.proc q).state ≠ .UNUSED → (m.pre.proc q).pid ≠ 0 :=
  exists_run (c := ()) (boots () ++ ((), .kill 0) :: goes () 2 ++ forks ()) (by decide +kernel)

end Xv6.Ptable
