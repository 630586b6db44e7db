import Xv6.Ptable.Wait

/-!
# `sleep` and `wakeup` with a lock

Code under a spinlock `lk` that waits for conditions on the data it guards. The code may call
`sleep` on a channel when the condition of the channel is false, and has to call `wakeup` on the
channel before it releases `lk` when it has made the condition true; until then it owes the wakeup
(`Discipline`). Whatever else runs, no process then sleeps on a channel whose condition holds while
both locks are free.
-/

namespace Xv6.Ptable

open Function (update update_of_ne update_self)

variable {N : Nat} {κ χ σ L : Type} {K : Client N χ σ L} {s s' : St N κ χ σ L} {c c' : κ}
  {p q np : Fin N} {k k' : Pc N χ L}

/-- What code under `lk` has to keep to: `cond ch` is the condition that processes wait for on the
channel `ch`, and `owes l ch` says that code at `l` is going to call `wakeup` on it, should the
condition still hold then. -/
structure Discipline (K : Client N χ σ L) (cond : χ → σ → Prop) (owes : L → χ → Prop) : Prop where
  set : ∀ {p kd l g g' l'}, K.act p kd l g (.set g' l') →
    ∀ ch, cond ch g' → (¬ cond ch g ∨ owes l ch) → owes l' ch
  wakeup : ∀ {p kd l g ch l'}, K.act p kd l g (.wakeup ch l') →
    ∀ ch', ch' ≠ ch → owes l ch' → owes l' ch'
  sleep : ∀ {p kd l g ch l'}, K.act p kd l g (.sleep ch l') →
    ¬ cond ch g ∧ ∀ ch', cond ch' g → ¬ owes l ch'
  release : ∀ {p kd l g}, K.act p kd l g .release → ∀ ch, cond ch g → ¬ owes l ch
  outside : ∀ {p g g'}, K.outside p g g' → ∀ ch, cond ch g' → cond ch g

/-! ## Places -/

def Code.hasLk : Code N L → Bool
  | .inside _ => true
  | _ => false

/-- `lk` is held there. -/
def Pc.hasLk : Pc N χ L → Bool
  | .code k | .rel k | .yield k | .wake _ k => k.hasLk
  | .sleepOn _ _ => true
  | _ => false

def Code.owes (owes : L → χ → Prop) : Code N L → χ → Prop
  | .inside l, ch => owes l ch
  | _, _ => False

def Pc.owes (owes : L → χ → Prop) : Pc N χ L → χ → Prop
  | .code k, ch | .rel k, ch => k.owes owes ch
  | .wake ch' k, ch => ch' = .client ch ∨ k.owes owes ch
  | _, _ => False

theorem Code.interruptible_hasLk {k : Code N L} (h : k.interruptible) : k.hasLk = false := by
  cases k <;> first | rfl | cases h

/-- A process sleeps on the channel `ch`, or has released `lk` to do so. -/
def Asleep (s : St N κ χ σ L) (p : Fin N) (ch : χ) : Prop :=
  (s.proc p).state = .SLEEPING ∧ (s.proc p).chan = some (.client ch) ∨
    ∃ c l, (s.cpu c).proc = some p ∧ (s.cpu c).pc = .sleepGo ch l

/-- Who holds `lk`, and what the holder owes. -/
structure Signals (cond : χ → σ → Prop) (owes : L → χ → Prop) (s : St N κ χ σ L) : Prop where
  lk : ∀ c, s.lk = some c ↔ (s.cpu c).pc.hasLk = true
  yield : ∀ c l, (s.cpu c).pc ≠ .yield (.inside l)
  saved : ∀ p, (s.proc p).waits → (s.proc p).context.hasLk = false
  sleepOn : ∀ c ch l, (s.cpu c).pc = .sleepOn ch l → ¬ cond ch s.g
  asleep : ∀ p ch, Asleep s p ch → cond ch s.g → ∃ c, s.lk = some c ∧ (s.cpu c).pc.owes owes ch

/-! ## Contexts -/

/-- Where a process goes on that has called `sched`. -/
inductive Suspends : Pc N χ L → Pc N χ L → Prop
  | yield (k : Code N L) : Suspends (.yield k) (.rel k)
  | wait : Suspends .wait .waitAwake
  | sleep (ch : χ) (l : L) : Suspends (.sleepGo ch l) (.awake l)
  | nap (n : Nat) : Suspends (.nap n) .napAwake

/-- A process that waits in `y` has waited in `x` with the same context, or has a new one in `f`. -/
def Rests (f : Pc N χ L → Prop) (x y : Proc N χ L) : Prop :=
  y.waits → x.waits ∧ y.context = x.context ∨ f y.context

variable {f : Pc N χ L → Prop}

theorem Rests.refl (x : Proc N χ L) : Rests f x x := fun h => .inl ⟨h, rfl⟩

theorem Woken.rests {x y : Proc N χ L} (h : Woken x y) : Rests f x y :=
  fun hy => .inl ⟨h.waits_iff.1 hy, h.context⟩

theorem Rests.of_state {x y : Proc N χ L} (h : ¬ y.waits) : Rests f x y := fun hy => absurd hy h

theorem rests_update {t : Table N χ L} {x : Proc N χ L} (h : q = p → Rests f (t p) x) :
    Rests f (t q) (update t p x q) := by
  by_cases hq : q = p
  · subst hq
    rw [update_self]
    exact h rfl
  · rw [update_of_ne hq]
    exact .refl _

section Steps

variable [DecidableEq κ]

theorem rests_sched {x : Proc N χ L} (hk : q = p → f k) :
    Rests f (s.proc q) (((s.setProc p x).sched c p k).proc q) := by
  by_cases hq : q = p
  · subst hq
    rw [sched_self]
    exact fun _ => .inr (hk rfl)
  · rw [sched_of_ne hq]
    exact .refl _

variable [DecidableEq χ]

theorem Inv.rests (h : Inv s) (hs : Step K c s s') (q : Fin N) :
    Rests (fun k => k = .rel .user ∨ (s.cpu c).proc = some q ∧ Suspends (s.cpu c).pc k)
      (s.proc q) (s'.proc q) := by
  have hrun : ∀ {p}, (s.cpu c).proc = some p → (s.cpu c).pc.inProc = true → ¬ (s.proc p).waits := by
    rintro p hp hk (h1 | h1) <;> rw [h.state_inProc hp hk] at h1 <;> cases h1
  have hmake : ∀ {np}, (s.cpu c).pc.makes = some np → ¬ (s.proc np).waits := by
    rintro np hm (h1 | h1) <;> rw [(h.making c _ hm).1] at h1 <;> cases h1
  have hnew : ∀ {np}, (s.cpu c).pc.makes = some np → (s.cpu c).pc.made = true →
      (s.proc np).context = .rel .user := fun hm hd => (h.making c _ hm).2.2.1 hd
  cases hs with
  | bootAlloc hpc hnp => exact rests_update fun _ => .of_state (by rintro (h1 | h1) <;> cases h1)
  | bootStack hpc => exact rests_update fun _ => .of_state (by exact hmake (by rw [hpc]; rfl))
  | bootRun hpc =>
    exact rests_update fun _ _ => .inr (.inl (hnew (by rw [hpc]; rfl) (by rw [hpc]; rfl)))
  | swtch hpc => exact rests_update fun _ => .of_state (by rintro (h1 | h1) <;> cases h1)
  | yield hp hpc => exact rests_sched fun he => .inr ⟨he ▸ hp, hpc ▸ .yield _⟩
  | alloc hp hpc hnp => exact rests_update fun _ => .of_state (by rintro (h1 | h1) <;> cases h1)
  | stack hpc => exact rests_update fun _ => .of_state (by exact hmake (by rw [hpc]; rfl))
  | stackFail hpc => exact rests_update fun _ => .of_state (by rintro (h1 | h1) <;> cases h1)
  | copyFail hpc => exact rests_update fun _ => .of_state (by rintro (h1 | h1) <;> cases h1)
  | fill hp hpc => exact rests_update fun _ => .of_state (by exact hmake (by rw [hpc]; rfl))
  | publish hpc =>
    exact rests_update fun _ _ => .inr (.inl (hnew (by rw [hpc]; rfl) (by rw [hpc]; rfl)))
  | @exit p init hp hpc hinit =>
    obtain ⟨h1, -, -, h4⟩ := exitTable_spec p init s.proc
    change Rests _ _ (update (exitTable p init s.proc) p _ q)
    by_cases hq : q = p
    · subst hq
      rw [update_self]
      refine .of_state ?_
      rintro (h5 | h5) <;> rw [show _ = _ from h4] at h5 <;> cases h5
    · rw [update_of_ne hq]
      exact (h1 q hq).rests
  | reap hp hpc hz => exact rests_update fun _ => .of_state (by rintro (h1 | h1) <;> cases h1)
  | waitSleep hp hpc hz hk hkill => exact rests_sched fun he => .inr ⟨he ▸ hp, hpc ▸ .wait⟩
  | waitAwake hp hpc => exact rests_update fun _ => .of_state (by exact hrun hp (by rw [hpc]; rfl))
  | sleep hp hpc => exact rests_sched fun he => .inr ⟨he ▸ hp, hpc ▸ .sleep _ _⟩
  | awake hp hpc => exact rests_update fun _ => .of_state (by exact hrun hp (by rw [hpc]; rfl))
  | nap hp hpc => exact rests_sched fun he => .inr ⟨he ▸ hp, hpc ▸ .nap _⟩
  | napAwake hp hpc => exact rests_update fun _ => .of_state (by exact hrun hp (by rw [hpc]; rfl))
  | wakeup hpc => exact (calm_wakeup1 _ _ q).1.rests
  | wakeTop hpc => exact (calm_wakeup1 _ _ q).1.rests
  | kill hpc => exact (calm_kill _ _ q).1.rests
  | chpr hpc => exact (calm_chpr _ _ _ q).1.rests
  | setId hp hpc hid hpar =>
    refine rests_update fun _ => ?_
    split <;> exact fun h => .inl ⟨h, rfl⟩
  | exec hp hpc => exact rests_update fun _ => .of_state (by exact hrun hp (by rw [hpc]; rfl))
  | trap hp hpc => exact rests_update fun _ => .of_state (by exact hrun hp (by rw [hpc]; rfl))
  | acquire | release | skip | choose | back | allocFull | copy | waitFail | sleepRelease | relock
  | setIdNull | setIdBounds | idRet | enter | set | leave | outside => exact .refl _

/-! ## The invariant -/

variable {cond : χ → σ → Prop} {owes : L → χ → Prop}

namespace Signals

omit [DecidableEq κ] [DecidableEq χ] in
theorem sole (h : Signals cond owes s) (hc : (s.cpu c).pc.hasLk = true)
    (hc' : (s.cpu c').pc.hasLk = true) : c = c' :=
  Option.some.inj (((h.lk c).2 hc).symm.trans ((h.lk c').2 hc'))

omit [DecidableEq χ] in
theorem lk_move (h : Signals cond owes s) {x : Cpu N χ L} (hpc : (s.cpu c).pc = k)
    (hcpu : s'.cpu = update s.cpu c x)
    (hl : s.lk = none ∧ s'.lk = some c ∧ x.pc.hasLk = true ∨
      s'.lk = none ∧ k.hasLk = true ∧ x.pc.hasLk = false ∨
      s'.lk = s.lk ∧ x.pc.hasLk = k.hasLk) : ∀ d, s'.lk = some d ↔ (s'.cpu d).pc.hasLk = true := by
  intro d
  rw [hcpu]
  by_cases hd : d = c
  · subst hd
    rw [update_self]
    rcases hl with ⟨-, h2, h3⟩ | ⟨h1, -, h3⟩ | ⟨h1, h2⟩
    · rw [h2, h3]
      simp
    · rw [h1, h3]
      simp
    · rw [h1, h2, ← hpc]
      exact h.lk d
  · rw [update_of_ne hd]
    rcases hl with ⟨h1, h2, -⟩ | ⟨h1, h2, -⟩ | ⟨h1, -⟩
    · rw [h2, ← h.lk d, h1]
      simp [Ne.symm hd]
    · rw [h1, ← h.lk d, (h.lk c).2 (hpc ▸ h2)]
      simp [Ne.symm hd]
    · rw [h1]
      exact h.lk d

theorem asleep_of (hi : Inv s) (hs : Step K c s s') {x : Cpu N χ L} {ch : χ}
    (hcpu : s'.cpu = update s.cpu c x) (ha : Asleep s' p ch) :
    Asleep s p ch ∨ ∃ l, x.pc = .sleepGo ch l := by
  rcases ha with ⟨h1, h2⟩ | ⟨d, l, h1, h2⟩
  · rcases hi.sleeper hs p with h3 | ⟨hp, h3⟩
    · obtain ⟨h4, h5, -⟩ := h3 h1
      exact .inl (.inl ⟨h4, h5 ▸ h2⟩)
    · cases h3 with
      | wait _ _ hchan =>
        rw [hchan] at h2
        cases h2
      | client ch' l hpc hchan =>
        rw [hchan] at h2
        cases h2
        exact .inl (.inr ⟨c, l, hp, hpc⟩)
      | nap _ _ hchan =>
        rw [hchan] at h2
        cases h2
  · rw [hcpu] at h1 h2
    by_cases hd : d = c
    · rw [hd, update_self] at h2
      exact .inr ⟨l, h2⟩
    · rw [update_of_ne hd] at h1 h2
      exact .inl (.inr ⟨d, l, h1, h2⟩)

section

variable (h : Signals cond owes s)

include h

theorem saved_step (hi : Inv s) (hs : Step K c s s') :
    ∀ p, (s'.proc p).waits → (s'.proc p).context.hasLk = false := by
  intro p hp
  rcases hi.rests hs p hp with ⟨h1, h2⟩ | h1 | ⟨-, h1⟩
  · rw [h2]
    exact h.saved p h1
  · rw [h1]
    rfl
  · have hy := h.yield c
    generalize (s.cpu c).pc = k, (s'.proc p).context = k' at h1 hy ⊢
    cases h1 with
    | yield k =>
      cases k with
      | inside l => exact absurd rfl (hy l)
      | _ => rfl
    | _ => rfl

theorem idle (hi : Inv s) (hs : Step K c s s') {x : Cpu N χ L} (hpc : (s.cpu c).pc = k)
    (hk : k.hasLk = false) (hcpu : s'.cpu = update s.cpu c x) (hx : x.pc.hasLk = false)
    (hgo : ∀ ch l, x.pc ≠ .sleepGo ch l) (hg : s'.g = s.g) (hlk : s'.lk = s.lk) :
    Signals cond owes s' := by
  refine ⟨h.lk_move hpc hcpu (.inr (.inr ⟨hlk, hx.trans hk.symm⟩)), fun d l hd => ?_,
    h.saved_step hi hs, fun d ch l hd => ?_, fun p ch ha hc => ?_⟩
  · rw [hcpu] at hd
    by_cases hdc : d = c
    · rw [hdc, update_self] at hd
      rw [hd] at hx
      cases hx
    · rw [update_of_ne hdc] at hd
      exact h.yield d l hd
  · rw [hcpu] at hd
    by_cases hdc : d = c
    · rw [hdc, update_self] at hd
      rw [hd] at hx
      cases hx
    · rw [update_of_ne hdc] at hd
      rw [hg]
      exact h.sleepOn d ch l hd
  · rcases asleep_of hi hs hcpu ha with ha | ⟨l, hl⟩
    · obtain ⟨d, hd, ho⟩ := h.asleep p ch ha (hg ▸ hc)
      refine ⟨d, hlk.trans hd, ?_⟩
      have hdc : d ≠ c := by
        rintro rfl
        have := (h.lk d).1 hd
        rw [hpc, hk] at this
        cases this
      rwa [hcpu, update_of_ne hdc]
    · exact absurd hl (hgo ch l)

theorem holder (hi : Inv s) (hs : Step K c s s') (hpc : (s.cpu c).pc = k)
    (hcpu : s'.cpu = update s.cpu c ⟨(s.cpu c).proc, k'⟩) (hk' : k'.hasLk = true)
    (hl : s.lk = none ∧ s'.lk = some c ∨ s'.lk = s.lk ∧ k.hasLk = true)
    (hy : ∀ l, k' ≠ .yield (.inside l)) (hon : ∀ ch l, k' = .sleepOn ch l → ¬ cond ch s'.g)
    (howe : ∀ p ch, Asleep s' p ch → Asleep s p ch → cond ch s'.g → k'.owes owes ch) :
    Signals cond owes s' := by
  have hself : (s'.cpu c).pc = k' := by rw [hcpu, update_self]
  have hlk' : s'.lk = some c := by
    rcases hl with ⟨-, h1⟩ | ⟨h1, h2⟩
    · exact h1
    · rw [h1]
      exact (h.lk c).2 (hpc ▸ h2)
  have hmove : ∀ d, s'.lk = some d ↔ (s'.cpu d).pc.hasLk = true := by
    refine h.lk_move hpc hcpu ?_
    rcases hl with ⟨h1, h2⟩ | ⟨h1, h2⟩
    · exact .inl ⟨h1, h2, hk'⟩
    · exact .inr (.inr ⟨h1, hk'.trans h2.symm⟩)
  refine ⟨hmove, fun d l hd => ?_, h.saved_step hi hs, fun d ch l hd => ?_, fun p ch ha hc => ?_⟩
  · obtain rfl : c = d := by
      have := (hmove d).2 (by rw [hd]; rfl)
      exact Option.some.inj (hlk'.symm.trans this)
    exact hy l (hself.symm.trans hd)
  · obtain rfl : c = d := by
      have := (hmove d).2 (by rw [hd]; rfl)
      exact Option.some.inj (hlk'.symm.trans this)
    exact hon ch l (hself.symm.trans hd)
  · refine ⟨c, hlk', ?_⟩
    rw [hself]
    rcases asleep_of hi hs hcpu ha with ha' | ⟨l, hl⟩
    · exact howe p ch ha ha' hc
    · rw [show k' = _ from hl] at hk'
      cases hk'

theorem drop (hi : Inv s) (hs : Step K c s s') (hpc : (s.cpu c).pc = k) (hk : k.hasLk = true)
    (hcpu : s'.cpu = update s.cpu c ⟨(s.cpu c).proc, k'⟩) (hk' : k'.hasLk = false)
    (hlk : s'.lk = none) (hg : s'.g = s.g) (hno : ∀ ch, cond ch s.g → ¬ k.owes owes ch)
    (hgo : ∀ ch l, k' = .sleepGo ch l → ¬ cond ch s.g) : Signals cond owes s' := by
  have hmove := h.lk_move hpc hcpu (.inr (.inl ⟨hlk, hk, hk'⟩))
  refine ⟨hmove, fun d l hd => ?_, h.saved_step hi hs, fun d ch l hd => ?_, fun p ch ha hc => ?_⟩
  · have := (hmove d).2 (by rw [hd]; rfl)
    rw [hlk] at this
    cases this
  · have := (hmove d).2 (by rw [hd]; rfl)
    rw [hlk] at this
    cases this
  · rw [hg] at hc
    rcases asleep_of hi hs hcpu ha with ha' | ⟨l, hl⟩
    · obtain ⟨d, hd, ho⟩ := h.asleep p ch ha' hc
      obtain rfl : c = d := Option.some.inj (((h.lk c).2 (hpc ▸ hk)).symm.trans hd)
      rw [hpc] at ho
      exact absurd ho (hno ch hc)
    · exact absurd hc (hgo ch l hl)

omit [DecidableEq κ] [DecidableEq χ] in
theorem owed {ch : χ} (hpc : (s.cpu c).pc = k) (hk : k.hasLk = true) (ha : Asleep s p ch)
    (hc : cond ch s.g) : k.owes owes ch := by
  obtain ⟨d, hd, ho⟩ := h.asleep p ch ha hc
  obtain rfl : c = d := Option.some.inj (((h.lk c).2 (hpc ▸ hk)).symm.trans hd)
  exact hpc ▸ ho

theorem acquire (D : Discipline K cond owes) (hi : Inv s) (hs : Step K c s s')
    (hpc : (s.cpu c).pc = k) (he : Enters K s c k k')
    (hcpu : s'.cpu = update s.cpu c ⟨(s.cpu c).proc, k'⟩) (hg : s'.g = s.g) (hlk : s'.lk = s.lk) :
    Signals cond owes s' := by
  cases he with
  | yield k hk =>
    have := Code.interruptible_hasLk hk
    exact h.idle hi hs hpc this hcpu this nofun hg hlk
  | wakeup ch k hk =>
    have := Code.interruptible_hasLk hk
    exact h.idle hi hs hpc this hcpu this nofun hg hlk
  | clientWakeup p l ch l' hp hact =>
    refine h.holder hi hs hpc hcpu rfl (.inr ⟨hlk, rfl⟩) nofun nofun fun q ch' _ ha hc => ?_
    by_cases hch : ch' = ch
    · exact .inl (by rw [hch])
    · exact .inr (D.wakeup hact ch' hch (h.owed hpc rfl ha (hg ▸ hc)))
  | clientSleep p l ch l' hp hact =>
    obtain ⟨h1, h2⟩ := D.sleep hact
    refine h.holder hi hs hpc hcpu rfl (.inr ⟨hlk, rfl⟩) nofun (fun ch' l'' he => ?_)
      fun q ch' _ ha hc => ?_
    · cases he
      rwa [hg]
    · rw [hg] at hc
      exact absurd (h.owed hpc rfl ha hc) (h2 ch' hc)
  | _ => exact h.idle hi hs hpc rfl hcpu rfl nofun hg hlk

theorem wakeup {ch : Chan N χ} {k : Code N L} (hi : Inv s) (hs : Step K c s s')
    (hpc : (s.cpu c).pc = .wake ch k) (hcpu : s'.cpu = update s.cpu c ⟨(s.cpu c).proc, .rel k⟩)
    (hproc : s'.proc = wakeup1 s.proc (some ch)) (hg : s'.g = s.g) (hlk : s'.lk = s.lk) :
    Signals cond owes s' := by
  cases hk : k.hasLk with
  | false => exact h.idle hi hs hpc hk hcpu hk nofun hg hlk
  | true =>
    refine h.holder hi hs hpc hcpu hk (.inr ⟨hlk, hk⟩) nofun nofun fun q ch' ha' ha hc => ?_
    rcases h.owed hpc hk ha (hg ▸ hc) with ho | ho
    · -- the sleepers on `ch` have been woken up
      rcases ha' with ⟨h1, h2⟩ | ⟨d, l, h1, h2⟩
      · rw [hproc] at h1 h2
        obtain ⟨h3, h4⟩ := sleeps_wakeup1 s.proc (some ch) q
        exact absurd ((h3 h1).2.1.symm.trans (h2.trans (by rw [ho]))) (h4 h1)
      · rw [hcpu] at h2
        by_cases hd : d = c
        · rw [hd, update_self] at h2
          cases h2
        · rw [update_of_ne hd] at h2
          exact absurd (hi.sole_holder (by rw [h2]; rfl) (by rw [hpc]; rfl)) hd
    · exact ho

theorem step (D : Discipline K cond owes) (hi : Inv s) (hs : Step K c s s') :
    Signals cond owes s' := by
  have hs' := hs
  cases hs with
  | acquire hfree hpc he => exact h.acquire D hi hs' hpc he rfl rfl rfl
  | release hpc hl =>
    cases hl with
    | code k =>
      cases hk : k.hasLk with
      | false => exact h.idle hi hs' hpc hk rfl hk nofun rfl rfl
      | true =>
        exact h.holder hi hs' hpc rfl hk (.inr ⟨rfl, hk⟩) nofun nofun
          fun q ch _ ha hc => (h.owed hpc hk ha hc : (Pc.rel k).owes owes ch)
    | _ => exact h.idle hi hs' hpc rfl rfl rfl nofun rfl rfl
  | wakeup hpc => exact h.wakeup hi hs' hpc rfl rfl rfl rfl
  | sleepRelease hpc =>
    refine h.drop hi hs' hpc rfl rfl rfl rfl rfl (fun _ _ => id) fun ch' l' he => ?_
    cases he
    exact h.sleepOn c _ _ hpc
  | relock hpc hlk =>
    refine h.holder hi hs' hpc rfl rfl (.inl ⟨hlk, rfl⟩) nofun nofun fun q ch _ ha hc => ?_
    obtain ⟨d, hd, -⟩ := h.asleep q ch ha hc
    rw [hlk] at hd
    cases hd
  | enter hp hpc hlk hen =>
    refine h.holder hi hs' hpc rfl rfl (.inl ⟨hlk, rfl⟩) nofun nofun fun q ch _ ha hc => ?_
    obtain ⟨d, hd, -⟩ := h.asleep q ch ha hc
    rw [hlk] at hd
    cases hd
  | set hp hpc hact =>
    refine h.holder hi hs' hpc rfl rfl (.inr ⟨rfl, rfl⟩) nofun nofun fun q ch _ ha hc => ?_
    refine D.set hact ch hc ?_
    by_cases hc' : cond ch s.g
    · exact .inr (h.owed hpc rfl ha hc')
    · exact .inl hc'
  | leave hp hpc hact => exact h.drop hi hs' hpc rfl rfl rfl rfl rfl (D.release hact) nofun
  | outside hp hpc ho =>
    exact ⟨h.lk, h.yield, h.saved, fun d ch l hd hc => h.sleepOn d ch l hd (D.outside ho ch hc),
      fun q ch ha hc => h.asleep q ch ha (D.outside ho ch hc)⟩
  | swtch hpc =>
    have hst := (hi.run c _ hpc).2
    refine h.idle hi hs' hpc rfl rfl (h.saved _ (.inl hst)) (fun ch l he => ?_) rfl rfl
    have := hi.context _ (.inl hst)
    dsimp only at he
    rw [he] at this
    cases this
  | @yield _ k hp hpc =>
    have hk : k.hasLk = false := by
      cases k with
      | inside l => exact absurd hpc (h.yield c l)
      | _ => rfl
    exact h.idle hi hs' hpc hk rfl rfl nofun rfl rfl
  | bootAlloc hpc | bootStack hpc | bootRun hpc | skip hpc | choose hpc | back hpc
  | alloc _ hpc | allocFull hpc | stack hpc | stackFail hpc | copy hpc | copyFail hpc | fill _ hpc
  | publish hpc | exit _ hpc | reap _ hpc | waitFail _ hpc | waitSleep _ hpc | waitAwake _ hpc
  | sleep _ hpc | awake _ hpc | nap _ hpc | napAwake _ hpc | wakeTop hpc | kill hpc | chpr hpc
  | setId _ hpc | setIdNull _ hpc | setIdBounds hpc | idRet hpc | exec _ hpc | trap _ hpc =>
    exact h.idle hi hs' hpc rfl rfl rfl nofun rfl rfl

end

omit [DecidableEq χ] in
theorem start (c : κ) (g : σ) : Signals cond owes (start c g : St N κ χ σ L) := by
  have hplace : ∀ d (f : Pc N χ L → Prop), f .boot → f .top →
      f ((Ptable.start c g : St N κ χ σ L).cpu d).pc := by
    intro d f h1 h2
    by_cases hd : d = c
    · rwa [show ((Ptable.start c g : St N κ χ σ L).cpu d).pc = .boot from if_pos hd]
    · rwa [show ((Ptable.start c g : St N κ χ σ L).cpu d).pc = .top from if_neg hd]
  refine ⟨fun d => hplace d (fun k => none = some d ↔ k.hasLk = true) ?_ ?_,
    fun d l => hplace d (· ≠ .yield (.inside l)) nofun nofun, ?_,
    fun d ch l hd => absurd hd (hplace d (· ≠ .sleepOn ch l) nofun nofun), ?_⟩
  · simp [Pc.hasLk]
  · simp [Pc.hasLk]
  · rintro p (h | h) <;> cases h
  · rintro p ch (⟨h, -⟩ | ⟨d, l, h, -⟩) <;> cases h

end Signals

theorem Reachable.signals {g : σ} (D : Discipline K cond owes) (h : Reachable K g s) :
    Signals cond owes s := by
  induction h with
  | start c => exact .start c g
  | step hr hs ih => exact ih.step D hr.inv hs

/-- No wakeup is lost: whatever the code under `lk`, as long as it tests the condition of a channel
before it sleeps on it and signals before it releases `lk`, no process sleeps on a channel whose
condition holds while both locks are free; and a process that has returned from `sleep` to the code
under `lk`, as any process in this code, holds `lk`. -/
theorem no_lost_wakeup {g : σ} (D : Discipline K cond owes) (h : Reachable K g s) :
    (s.ptlock = none → s.lk = none → ∀ p ch, (s.proc p).state = .SLEEPING →
      (s.proc p).chan = some (.client ch) → ¬ cond ch s.g) ∧
    ∀ c l, (s.cpu c).pc = .code (.inside l) → s.lk = some c := by
  have hsig := h.signals D
  refine ⟨fun _ hlk p ch hp hchan hc => ?_, fun c l hc => (hsig.lk c).2 (by rw [hc]; rfl)⟩
  obtain ⟨d, hd, -⟩ := hsig.asleep p ch (.inl ⟨hp, hchan⟩) hc
  rw [hlk] at hd
  cases hd

end Steps

/-! ## Producers and consumers -/

/-- Where the producers and consumers of `sleep1.p` are: before the test, before the value is
incremented, before the signal, and before the lock is released. -/
inductive Place where
  | consume
  | produce
  | signal
  | done

/-- Consumers wait until the value is positive and decrement it; producers increment it and
signal. -/
inductive PlaceAct : Place → Nat → Act Unit Nat Place → Prop
  | sleep : PlaceAct .consume 0 (.sleep () .consume)
  | take {x} : PlaceAct .consume (x + 1) (.set x .done)
  | store {x} : PlaceAct .produce x (.set (x + 1) .signal)
  | signal {x} : PlaceAct .signal x (.wakeup () .done)
  | release {x} : PlaceAct .done x .release

def producerConsumer : Client N Unit Nat Place where
  enter _ _ l := l = .consume ∨ l = .produce
  act _ _ l x a := PlaceAct l x a
  outside _ _ _ := False

theorem producerConsumer_discipline : Discipline (producerConsumer : Client N Unit Nat Place)
    (fun _ x => 0 < x) (fun l _ => l = .signal) where
  set := by
    rintro _ _ _ _ _ _ ⟨⟩ _ h1 h2
    · rcases h2 with h2 | h2
      · exact absurd (Nat.succ_pos _) h2
      · cases h2
    · rfl
  wakeup := by
    rintro _ _ _ _ _ _ ⟨⟩ ch' h
    exact absurd rfl h
  sleep := by
    rintro _ _ _ _ _ _ ⟨⟩
    exact ⟨Nat.lt_irrefl 0, fun _ _ => nofun⟩
  release := by
    rintro _ _ _ _ ⟨⟩
    exact fun _ _ => nofun
  outside := by rintro _ _ _ ⟨⟩

/-- A consumer that sleeps while the value is 0. -/
theorem no_lost_wakeup_consumer : ∃ s : St 1 Unit Unit Nat Place, Reachable producerConsumer 0 s ∧
    (s.proc 0).state = .SLEEPING ∧ (s.proc 0).chan = some (.client ()) ∧ ¬ 0 < s.g := by
  have hrun : ∃ s : St 1 Unit Unit Nat Place, Reachable producerConsumer 0 s ∧ s.ptlock = none ∧
      s.lk = none ∧ (s.proc 0).state = .SLEEPING ∧ (s.proc 0).chan = some (.client ()) := by
    refine ⟨_, (((((((((((((((((Reachable.start (K := producerConsumer) (g := 0) ()).on ()
      (.acquire rfl rfl .boot)).on ()
      (.bootAlloc rfl (show findUnused _ = some 0 from rfl))).on () (.bootStack rfl)).on ()
      (.acquire rfl rfl (.bootReady 0))).on () (.bootRun rfl)).on ()
      (.release rfl .top)).on () (.acquire rfl rfl .scheduler)).on ()
      (.choose (p := 0) rfl rfl)).on () (.swtch (p := 0) rfl)).on ()
      (.release (k := .rel .user) rfl (.code .user))).on ()
      (.enter (p := 0) (l := .consume) rfl rfl rfl (.inl rfl))).on ()
      (.acquire rfl rfl (.clientSleep 0 Place.consume () Place.consume rfl PlaceAct.sleep))).on ()
      (.sleepRelease rfl)).on () (.sleep (p := 0) rfl rfl)).on ()
      (.back (p := 0) rfl)).on ()
      (.release (k := .loop 1) rfl (.scheduler 1 (Nat.le_refl 1)))), ?_, ?_, ?_, ?_⟩ <;> rfl
  obtain ⟨s, h, h1, h2, h3, h4⟩ := hrun
  exact ⟨s, h, h3, h4, (no_lost_wakeup producerConsumer_discipline h).1 h1 h2 0 () h3 h4⟩

end Xv6.Ptable
