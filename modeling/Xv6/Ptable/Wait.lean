import Xv6.Ptable.Family

/-!
# Sleeping processes, and `wait`

A process goes to sleep by its own step and keeps its channel and its context until it is woken up
(`Inv.sleeper`). For `wait` this gives that no sleeping process has an exited child: `exit` wakes up
the parent before it makes the process a zombie, and init when it gives it a child that is one.
-/

namespace Xv6.Ptable

open Function (update update_of_ne update_self)

variable {N : Nat} {κ χ σ L : Type} {K : Client N χ σ L} {s s' : St N κ χ σ L} {c c' : κ}
  {p q np : Fin N} {k k' : Pc N χ L}

/-! ## Sleepers -/

/-- A process that sleeps in `y` has slept in `x` as well, on the same channel. -/
def Sleeps (x y : Proc N χ L) : Prop :=
  y.state = .SLEEPING → x.state = .SLEEPING ∧ y.chan = x.chan ∧ y.context = x.context

theorem Sleeps.refl (x : Proc N χ L) : Sleeps x x := fun h => ⟨h, rfl, rfl⟩

theorem Sleeps.trans {x y z : Proc N χ L} (h : Sleeps x y) (h' : Sleeps y z) : Sleeps x z := by
  intro hz
  obtain ⟨h1, h2, h3⟩ := h' hz
  obtain ⟨h4, h5, h6⟩ := h h1
  exact ⟨h4, h2.trans h5, h3.trans h6⟩

theorem Sleeps.of_ne {x y : Proc N χ L} (h : y.state ≠ .SLEEPING) : Sleeps x y :=
  fun hy => absurd hy h

theorem sleeps_update {t : Table N χ L} {x : Proc N χ L} (h : Sleeps (t p) x) (q : Fin N) :
    Sleeps (t q) (update t p x q) := by
  by_cases hq : q = p
  · subst hq
    rw [update_self]
    exact h
  · rw [update_of_ne hq]
    exact .refl _

theorem sleeps_kill (t : Table N χ L) (pid : BitVec 32) (q : Fin N) :
    Sleeps (t q) (killTable t pid q) := by
  unfold killTable
  cases (List.finRange N).find? fun p => (t p).pid = pid with
  | none => exact .refl _
  | some p =>
    refine sleeps_update (.of_ne ?_) q
    dsimp only
    split
    · decide
    · assumption

theorem sleeps_chpr (t : Table N χ L) (pid : BitVec 32) (priority : Int) (q : Fin N) :
    Sleeps (t q) (chprTable t pid priority q) := by
  unfold chprTable
  cases (List.finRange N).find? fun p => (t p).pid = pid with
  | none => exact .refl _
  | some p =>
    refine sleeps_update ?_ q
    exact fun h => ⟨h, rfl, rfl⟩

section Table

variable [DecidableEq χ]

theorem sleeps_wakeup1 (t : Table N χ L) (chan : Option (Chan N χ)) (q : Fin N) :
    Sleeps (t q) (wakeup1 t chan q) ∧
      ((wakeup1 t chan q).state = .SLEEPING → (t q).chan ≠ chan) := by
  unfold wakeup1
  split
  · exact ⟨.of_ne nofun, nofun⟩
  · next h => exact ⟨.refl _, fun h1 h2 => h ⟨h1, h2⟩⟩

theorem sleeps_abandon (cur init : Fin N) (ps : List (Fin N)) (t : Table N χ L) (q : Fin N) :
    Sleeps (t q) (abandon cur init ps t q) ∧
      ((abandon cur init ps t q).state = .SLEEPING → (t q).chan = some (.proc init) →
        ∀ r ∈ ps, (t r).parent = some cur → (t r).state ≠ .ZOMBIE) := by
  induction ps generalizing t with
  | nil => exact ⟨.refl _, fun _ _ r hr => by cases hr⟩
  | cons p ps ih =>
    unfold abandon
    by_cases hp : (t p).parent = some cur
    · rw [if_pos hp]
      have hup : ∀ r, Sleeps (t r) (update t p { t p with parent := some init } r) :=
        fun r => sleeps_update (by exact fun h => ⟨h, rfl, rfl⟩) r
      have hrest : ∀ r, r ≠ p → update t p { t p with parent := some init } r = t r :=
        fun r hr => update_of_ne hr ..
      generalize update t p { t p with parent := some init } = t' at hup hrest ⊢
      by_cases hz : (t p).state = .ZOMBIE
      · rw [if_pos hz]
        obtain ⟨h1, h2⟩ := sleeps_wakeup1 t' (some (.proc init)) q
        obtain ⟨h3, h4⟩ := ih (wakeup1 t' (some (.proc init)))
        refine ⟨(hup q).trans (h1.trans h3), fun h5 h6 => ?_⟩
        -- it has been woken up
        obtain ⟨h7, -⟩ := h3 h5
        obtain ⟨h8, -⟩ := h1 h7
        exact absurd ((hup q h8).2.1.trans h6) (h2 h7)
      · rw [if_neg hz]
        obtain ⟨h3, h4⟩ := ih t'
        refine ⟨(hup q).trans h3, fun h5 h6 r hr hpar => ?_⟩
        by_cases hrp : r = p
        · rwa [hrp]
        · obtain ⟨h7, -⟩ := h3 h5
          have h8 := h4 h5 ((hup q h7).2.1.trans h6) r ((List.mem_cons.1 hr).resolve_left hrp)
          rw [hrest r hrp] at h8
          exact h8 hpar
    · rw [if_neg hp]
      obtain ⟨h3, h4⟩ := ih t
      refine ⟨h3, fun h5 h6 r hr hpar => ?_⟩
      rcases List.mem_cons.1 hr with rfl | hr
      · exact absurd hpar hp
      · exact h4 h5 h6 r hr hpar

theorem sleeps_exit (cur init : Fin N) (t : Table N χ L) (q : Fin N) :
    Sleeps (t q) (exitTable cur init t q) ∧
      ((exitTable cur init t q).state = .SLEEPING → q ≠ cur ∧
        (∀ r, (t cur).parent = some r → (t q).chan ≠ some (.proc r)) ∧
        ((t q).chan = some (.proc init) → ∀ r, (t r).parent = some cur →
          (t r).state ≠ .ZOMBIE)) := by
  obtain ⟨h1, h2⟩ := sleeps_wakeup1 t ((t cur).parent.map Chan.proc) q
  have hcalm := calm_wakeup1 t ((t cur).parent.map Chan.proc)
  obtain ⟨h3, h4⟩ := sleeps_abandon cur init (List.finRange N)
    (wakeup1 t ((t cur).parent.map Chan.proc)) q
  unfold exitTable
  generalize wakeup1 t ((t cur).parent.map Chan.proc) = t1 at h1 h2 h3 h4 hcalm ⊢
  dsimp only
  generalize abandon cur init (List.finRange N) t1 = t2 at h3 h4 ⊢
  by_cases hq : q = cur
  · subst hq
    rw [update_self]
    exact ⟨.of_ne nofun, nofun⟩
  · rw [update_of_ne hq]
    refine ⟨h1.trans h3, fun h5 => ⟨hq, fun r hr => ?_, fun h6 r hpar => ?_⟩⟩
    · have h6 := h2 (h3 h5).1
      rwa [hr] at h6
    · have h7 := h4 h5 ((h1 (h3 h5).1).2.1.trans h6) r (List.mem_finRange r)
        ((hcalm r).2.trans hpar)
      exact fun h8 => h7 (((hcalm r).1.state_iff (by decide) (by decide)).2 h8)

end Table

/-- The step by which process `q` on processor `c` goes to sleep. -/
inductive GoesToSleep (c : κ) (s s' : St N κ χ σ L) (q : Fin N) : Prop
  | wait (hpc : (s.cpu c).pc = .wait) (hz : findZombie s.proc q = none)
    (hchan : (s'.proc q).chan = some (.proc q)) (hctx : (s'.proc q).context = .waitAwake)
  | client (ch : χ) (l : L) (hpc : (s.cpu c).pc = .sleepGo ch l)
    (hchan : (s'.proc q).chan = some (.client ch)) (hctx : (s'.proc q).context = .awake l)
  | nap (n : Nat) (hpc : (s.cpu c).pc = .nap n) (hchan : (s'.proc q).chan = some (.other n))
    (hctx : (s'.proc q).context = .napAwake)

section Steps

variable [DecidableEq κ]

theorem sched_self {x : Proc N χ L} :
    ((s.setProc p x).sched c p k).proc p = { x with context := k } := by
  change update (update s.proc p x) p
    { (update s.proc p x) p with context := k } p = _
  rw [update_self, update_self]

theorem sched_of_ne {x : Proc N χ L} (hq : q ≠ p) :
    ((s.setProc p x).sched c p k).proc q = s.proc q := by
  change update (update s.proc p x) p _ q = _
  rw [update_of_ne hq, update_of_ne hq]

variable [DecidableEq χ]

theorem Inv.sleeper (h : Inv s) (hs : Step K c s s') (q : Fin N) :
    Sleeps (s.proc q) (s'.proc q) ∨ (s.cpu c).proc = some q ∧ GoesToSleep c s s' q := by
  have hrun : ∀ {p}, (s.cpu c).proc = some p → (s.cpu c).pc.inProc = true →
      (s.proc p).state ≠ .SLEEPING := fun hp hk => by rw [h.state_inProc hp hk]; decide
  have hmake : ∀ {np}, (s.cpu c).pc.makes = some np → (s.proc np).state ≠ .SLEEPING := fun hm => by
    rw [(h.making c _ hm).1]
    decide
  -- `sched` concerns the process that calls it
  have hsched : ∀ {p} {x : Proc N χ L} {k}, (s.cpu c).proc = some p →
      (x.state ≠ .SLEEPING ∨ GoesToSleep c s ((s.setProc p x).sched c p k) p) →
      Sleeps (s.proc q) (((s.setProc p x).sched c p k).proc q) ∨
        (s.cpu c).proc = some q ∧ GoesToSleep c s ((s.setProc p x).sched c p k) q := by
    intro p x k hp hx
    by_cases hq : q = p
    · subst hq
      rcases hx with hx | hx
      · refine .inl (.of_ne ?_)
        rw [sched_self]
        exact hx
      · exact .inr ⟨hp, hx⟩
    · rw [sched_of_ne hq]
      exact .inl (.refl _)
  cases hs with
  | bootAlloc hpc hnp => exact .inl (sleeps_update (.of_ne (by nofun)) q)
  | bootStack hpc => exact .inl (sleeps_update (.of_ne (by exact hmake (by rw [hpc]; rfl))) q)
  | bootRun hpc => exact .inl (sleeps_update (.of_ne (by nofun)) q)
  | swtch hpc => exact .inl (sleeps_update (.of_ne (by nofun)) q)
  | yield hp hpc => exact hsched hp (.inl (by nofun))
  | alloc hp hpc hnp => exact .inl (sleeps_update (.of_ne (by nofun)) q)
  | stack hpc => exact .inl (sleeps_update (.of_ne (by exact hmake (by rw [hpc]; rfl))) q)
  | stackFail hpc => exact .inl (sleeps_update (.of_ne (by nofun)) q)
  | copyFail hpc => exact .inl (sleeps_update (.of_ne (by nofun)) q)
  | fill hp hpc => exact .inl (sleeps_update (by exact fun h => ⟨h, rfl, rfl⟩) q)
  | publish hpc => exact .inl (sleeps_update (.of_ne (by nofun)) q)
  | exit hp hpc hinit =>
    refine .inl ((sleeps_exit _ _ s.proc q).1.trans (sleeps_update (.of_ne ?_) q))
    dsimp only
    rw [(exitTable_spec _ _ s.proc).2.2.2]
    decide
  | reap hp hpc hz => exact .inl (sleeps_update (.of_ne (by nofun)) q)
  | waitSleep hp hpc hz hk hkill =>
    refine hsched hp (.inr (.wait hpc hz ?_ ?_)) <;> rw [sched_self]
  | waitAwake hp hpc => exact .inl (sleeps_update (.of_ne (by exact hrun hp (by rw [hpc]; rfl))) q)
  | sleep hp hpc => refine hsched hp (.inr (.client _ _ hpc ?_ ?_)) <;> rw [sched_self]
  | awake hp hpc => exact .inl (sleeps_update (.of_ne (by exact hrun hp (by rw [hpc]; rfl))) q)
  | nap hp hpc => refine hsched hp (.inr (.nap _ hpc ?_ ?_)) <;> rw [sched_self]
  | napAwake hp hpc => exact .inl (sleeps_update (.of_ne (by exact hrun hp (by rw [hpc]; rfl))) q)
  | wakeup hpc => exact .inl (sleeps_wakeup1 _ _ q).1
  | wakeTop hpc => exact .inl (sleeps_wakeup1 _ _ q).1
  | kill hpc => exact .inl (sleeps_kill _ _ q)
  | chpr hpc => exact .inl (sleeps_chpr _ _ _ q)
  | setId hp hpc hid hpar =>
    refine .inl (sleeps_update ?_ q)
    split <;> exact fun h => ⟨h, rfl, rfl⟩
  | exec hp hpc => exact .inl (sleeps_update (.of_ne (by exact hrun hp (by rw [hpc]; rfl))) q)
  | trap hp hpc => exact .inl (sleeps_update (.of_ne (by exact hrun hp (by rw [hpc]; rfl))) q)
  | acquire | release | skip | choose | back | allocFull | copy | waitFail | sleepRelease | relock
  | setIdNull | setIdBounds | idRet | enter | set | leave | outside => exact .inl (.refl _)

/-! ## Sleeping in `wait` -/

/-- A process that sleeps in `wait` does so on its own channel, and has no exited child. -/
def Waiting (s : St N κ χ σ L) : Prop :=
  ∀ p, (s.proc p).state = .SLEEPING → (s.proc p).context = .waitAwake →
    (s.proc p).chan = some (.proc p) ∧ ∀ q, (s.proc q).parent = some p → (s.proc q).state ≠ .ZOMBIE

theorem Inv.zombie (h : Inv s) (hs : Step K c s s') (hpar : (s'.proc q).parent = some p)
    (hz : (s'.proc q).state = .ZOMBIE) :
    (s.proc q).parent = some p ∧ (s.proc q).state = .ZOMBIE ∨
    ∃ cur init, (s.cpu c).proc = some cur ∧ s.initproc = some init ∧
      (∀ r, (s'.proc r).state = .SLEEPING → (exitTable cur init s.proc r).state = .SLEEPING) ∧
      (s.proc cur).live ∧
      (q = cur ∧ ((s.proc q).parent = some p ∨ (s.proc q).parent = some q) ∨
        (s.proc q).parent = some cur ∧ (s.proc q).state = .ZOMBIE ∧ p = init) := by
  -- a slot that changes otherwise holds no zombie
  have hslot : ∀ {np} {x : Proc N χ L}, s'.proc = update s.proc np x →
      x.state ≠ .ZOMBIE → (s.proc q).parent = some p ∧ (s.proc q).state = .ZOMBIE := by
    intro np x he hx
    rw [he] at hpar hz
    by_cases hq : q = np
    · rw [hq, update_self] at hz
      exact absurd hz hx
    · rw [update_of_ne hq] at hpar hz
      exact ⟨hpar, hz⟩
  have hmake : ∀ {np}, (s.cpu c).pc.makes = some np → (s.proc np).state ≠ .ZOMBIE := fun hm => by
    rw [(h.making c _ hm).1]
    decide
  cases h.effect hs with
  | quiet hq => exact .inl ⟨(hq.kin q).parent ▸ hpar, ((hq.kin q).state_iff (.inr (.inr rfl))).1 hz⟩
  | waitFail hq =>
    exact .inl ⟨(hq.kin q).parent ▸ hpar, ((hq.kin q).state_iff (.inr (.inr rfl))).1 hz⟩
  | bootAlloc np hpc hnp he => exact .inl (hslot (by rw [he]; rfl) (by nofun))
  | bootStack np hpc he =>
    exact .inl (hslot (by rw [he]; rfl) (by exact hmake (by rw [hpc]; rfl)))
  | bootRun np hpc he => exact .inl (hslot (by rw [he]; rfl) (by nofun))
  | alloc p np hp hpc hnp he => exact .inl (hslot (by rw [he]; rfl) (by nofun))
  | stack np hpc he => exact .inl (hslot (by rw [he]; rfl) (by exact hmake (by rw [hpc]; rfl)))
  | unalloc np hpc he => exact .inl (hslot (by rw [he]; rfl) (by nofun))
  | fill p np hp hpc he => exact .inl (hslot (by rw [he]; rfl) (by exact hmake (by rw [hpc]; rfl)))
  | publish np hpc he => exact .inl (hslot (by rw [he]; rfl) (by nofun))
  | reap p r hp hpc hzz he => exact .inl (hslot (by rw [he]; rfl) (by nofun))
  | exit cur init hp hpc hinit he =>
    obtain ⟨h1, h2, -, h4⟩ := exitTable_spec cur init s.proc
    have hlive : (s.proc cur).live := .inr (.inr (h.state_inProc hp (by rw [hpc]; rfl)))
    have hne : ∀ r, r ≠ cur → s'.proc r = exitTable cur init s.proc r := fun r hr => by
      rw [he]
      exact update_of_ne hr ..
    have hself : s'.proc cur = { exitTable cur init s.proc cur with context := .dead } := by
      rw [he]
      exact update_self ..
    have hsleep : ∀ r, (s'.proc r).state = .SLEEPING →
        (exitTable cur init s.proc r).state = .SLEEPING := by
      intro r hr
      by_cases hrc : r = cur
      · subst hrc
        rwa [hself] at hr
      · rwa [hne r hrc] at hr
    have hpar' : (if (s.proc q).parent = some cur then some init else (s.proc q).parent) =
      some p := by
      rw [← h2 q, ← hpar]
      by_cases hq : q = cur
      · rw [hq, hself]
      · rw [hne q hq]
    by_cases hq : q = cur
    · refine .inr ⟨cur, init, hp, hinit, hsleep, hlive, .inl ⟨hq, ?_⟩⟩
      split at hpar'
      · next h5 => exact .inr (hq ▸ h5)
      · exact .inl hpar'
    · rw [hne q hq] at hz
      have hz' := ((h1 q hq).state_iff (by decide) (by decide)).1 hz
      split at hpar'
      · next h5 =>
        exact .inr ⟨cur, init, hp, hinit, hsleep, hlive,
          .inr ⟨h5, hz', (Option.some.inj hpar').symm⟩⟩
      · exact .inl ⟨hpar', hz'⟩

theorem Waiting.step (hw : Waiting s) (h : Inv s) (hf : Family s) (hs : Step K c s s') :
    Waiting s' := by
  intro p hp hctx
  rcases h.sleeper hs p with hsl | ⟨hc, hgo⟩
  · obtain ⟨h1, h2, h3⟩ := hsl hp
    obtain ⟨hchan, hno⟩ := hw p h1 (h3 ▸ hctx)
    refine ⟨h2.trans hchan, fun q hpar hz => ?_⟩
    rcases h.zombie hs hpar hz with ⟨h4, h5⟩ | ⟨cur, init, -, hinit, hsleep, hlive, h4⟩
    · exact hno q h4 h5
    · -- `exit` would have woken up the process
      obtain ⟨-, h6, h7⟩ := (sleeps_exit cur init s.proc p).2 (hsleep p hp)
      rcases h4 with ⟨rfl, h5 | h5⟩ | ⟨h5, h8, rfl⟩
      · exact h6 p h5 hchan
      · -- no process is its own parent
        have hqi : s.initproc ≠ some q := fun hqi => by
          rw [(hf.lineage.init q hqi).2.1] at h5
          cases h5
        obtain ⟨r, hr⟩ := hf.lineage.parent q (.inl hlive) hqi
        exact hr.ne (Option.some.inj (hr.eq.symm.trans h5))
      · exact h7 hchan q h5 h8
  · cases hgo with
    | client ch l hpc hchan hctx' =>
      rw [hctx'] at hctx
      cases hctx
    | nap n hpc hchan hctx' =>
      rw [hctx'] at hctx
      cases hctx
    | wait hpc hz hchan hctx' =>
      refine ⟨hchan, fun q hpar hq => ?_⟩
      rcases h.zombie hs hpar hq with ⟨h4, h5⟩ | ⟨cur, init, hcur, -, hsleep, -⟩
      · have := List.find?_eq_none.1 hz q (List.mem_finRange q)
        simp [h4, h5] at this
      · -- the process that goes to sleep does not exit
        obtain rfl : cur = p := Option.some.inj (hcur.symm.trans hc)
        exact ((sleeps_exit cur init s.proc cur).2 (hsleep cur hp)).1 rfl

theorem Reachable.waiting {g : σ} (h : Reachable K g s) : Waiting s := by
  induction h with
  | start c => exact fun p hp => nomatch hp
  | step hr hs ih => exact ih.step hr.inv hr.family hs

/-! ## Accounting -/

/-- The processes that `wait` has returned. -/
def reaped : List Event → List Nat
  | [] => []
  | .reap child _ _ :: l => child :: reaped l
  | _ :: l => reaped l

theorem mem_reaped {l : List Event} {n : Nat} (h : n ∈ reaped l) : ∃ pid m, .reap n pid m ∈ l := by
  induction l with
  | nil => cases h
  | cons e l ih =>
    have hrest : n ∈ reaped l → ∃ pid m, .reap n pid m ∈ e :: l := fun h' => by
      obtain ⟨pid, m, hm⟩ := ih h'
      exact ⟨pid, m, List.mem_cons_of_mem _ hm⟩
    cases e with
    | reap child pid m =>
      rcases List.mem_cons.1 h with rfl | h
      · exact ⟨pid, m, List.mem_cons_self ..⟩
      · exact hrest h
    | _ => exact hrest h

theorem LogOk.nodup {l : List Event} (h : LogOk l) : (reaped l).Nodup := by
  induction l with
  | nil => exact List.nodup_nil
  | cons e l ih =>
    cases e with
    | reap child pid m =>
      refine List.nodup_cons.2 ⟨fun hm => ?_, ih h.2⟩
      obtain ⟨pid', m', hm'⟩ := mem_reaped hm
      exact h.1.2.2 pid' m' hm'
    | _ => exact ih h.2

omit [DecidableEq κ] [DecidableEq χ] in
theorem Family.childless (h : Family s) (hp : (s.proc p).live)
    (hno : ∀ q, (s.proc q).parent ≠ some p) (q : Fin N) : (s.proc q).parent ≠ some p ∧
      ((s.proc q).used → s.initproc ≠ some q → (s.proc q).forker ≠ (s.proc p).birth) := by
  refine ⟨hno q, fun hq hqi he => ?_⟩
  obtain ⟨r, hr⟩ := h.lineage.parent q hq hqi
  rcases hr.forker with h1 | ⟨h1, -⟩
  · have hrp := h.births.inj r p hr.live.state.1 hp.state.1 (h1.symm.trans he)
    exact hno q (hrp ▸ hr.eq)
  · exact hp.state.2.2 ((h.births.gone _ h1).2 p hp.state.1 he.symm)

/-- Accounting of `fork`, `exit` and `wait`, for any number of processes and processors. A process
that `wait` has returned with a pid had exited before, had been made with that pid, by the caller or
by a process whose children the caller had adopted; no process is returned twice; a step that makes
`wait` answer -1 is made by a process that has been killed, or that has no child left, be it by its
parent pointer or by the process that has made it; and no process sleeps in `wait` with an exited
child. -/
theorem wait_accounting {g : σ} (h : Reachable K g s) :
    (∀ l1 l2 child pid parent, s.log = l1 ++ .reap child pid parent :: l2 →
      .exit child ∈ l2 ∧ ∃ n, .fork child pid n ∈ l2 ∧ (n = parent ∨ .adopt child parent ∈ l2)) ∧
    (reaped s.log).Nodup ∧
    (∀ c s' n, Step K c s s' → s'.log = .fail n :: s.log → ∃ p, (s.cpu c).proc = some p ∧
      (s.proc p).birth = n ∧ ((s.proc p).killed = true ∨ ∀ q, (s.proc q).parent ≠ some p ∧
        ((s.proc q).used → s.initproc ≠ some q → (s.proc q).forker ≠ (s.proc p).birth))) ∧
    ∀ p, (s.proc p).state = .SLEEPING → (s.proc p).context = .waitAwake →
      ∀ q, (s.proc q).parent = some p → (s.proc q).state ≠ .ZOMBIE := by
  have hlog := h.family.log
  refine ⟨fun l1 l2 child pid parent he => ?_, hlog.nodup, fun c s' n hs hn => ?_,
    fun p hp hctx => (h.waiting p hp hctx).2⟩
  · obtain ⟨h1, h2, -⟩ := hlog.event he
    exact ⟨h1, h2⟩
  · have hne : ∀ {l : List Event}, l ≠ .fail n :: l := fun he => by
      have := congrArg List.length he
      simp at this
    cases h.inv.effect hs with
    | waitFail hq p hp hpc hk hl =>
      rw [hl] at hn
      refine ⟨p, hp, ?_, hk.symm.imp_right fun h1 => h.family.childless ?_ fun q hq => ?_⟩
      · injection hn with h1
        injection h1
      · exact .inr (.inr (h.inv.state_inProc hp (by rw [hpc]; rfl)))
      · have := List.any_eq_false.1 h1 q (List.mem_finRange q)
        simp [hq] at this
    | quiet hq hl => exact absurd (hl.symm.trans hn) hne
    | exit p init hp hpc hinit he =>
      rw [he] at hn
      change List.map _ ((List.finRange N).filter _) ++ _ :: s.log = _ at hn
      generalize (List.finRange N).filter _ = l at hn
      cases l <;> injection hn with h1 <;> cases h1
    | publish np hpc he =>
      rw [he] at hn
      injection hn with h1
      cases h1
    | reap p q hp hpc hz he =>
      rw [he] at hn
      injection hn with h1
      cases h1
    | bootAlloc np hpc hnp he => exact absurd hn (by rw [he]; exact hne)
    | bootStack np hpc he => exact absurd hn (by rw [he]; exact hne)
    | bootRun np hpc he => exact absurd hn (by rw [he]; exact hne)
    | alloc p np hp hpc hnp he => exact absurd hn (by rw [he]; exact hne)
    | stack np hpc he => exact absurd hn (by rw [he]; exact hne)
    | unalloc np hpc he => exact absurd hn (by rw [he]; exact hne)
    | fill p np hp hpc he => exact absurd hn (by rw [he]; exact hne)

end Steps

/-- Init forks a process, which forks another one. The second one exits, then the first one, so that
init adopts an exited process; and init waits for both. -/
theorem wait_accounting_adopted : ∃ s : St 3 Unit Unit Unit Unit, Reachable .none () s ∧
    s.log = [.reap 2 3 0, .reap 1 2 0, .adopt 2 0, .exit 1, .exit 2, .fork 2 3 1, .fork 1 2 0] ∧
    (reaped s.log).Nodup ∧ .exit 2 ∈ s.log.tail ∧
    ∃ n, .fork 2 3 n ∈ s.log.tail ∧ (n = 0 ∨ .adopt 2 0 ∈ s.log.tail) := by
  obtain ⟨s, h, hl⟩ := exists_reachable (K := .none) (g := ()) (c := ())
    (boots () ++ forks () ++ ((), .yield) :: goes () 5 ++ forks () ++ ((), .yield) :: goes () 5 ++
      ((), .exit) :: goes () 7 ++ ((), .yield) :: goes () 5 ++ ((), .exit) :: goes () 8 ++
      ((), .wait) :: goes () 2 ++ ((), .wait) :: goes () 2)
    (P := fun s : St 3 Unit Unit Unit Unit => s.log = [.reap 2 3 0, .reap 1 2 0, .adopt 2 0,
      .exit 1, .exit 2, .fork 2 3 1, .fork 1 2 0]) (by decide +kernel)
  obtain ⟨h1, h2, -⟩ := wait_accounting h
  refine ⟨s, h, hl, h2, ?_⟩
  rw [hl]
  exact h1 [] _ 2 3 0 hl

end Xv6.Ptable
