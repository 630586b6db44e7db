import Xv6.Ptable.Model

/-!
# Processors and the states of processes

The invariant of `scheduler`, `sched` and the functions that change `state`: who holds
`ptable.lock`, which process a processor has in `c->proc`, and where the others go on. It holds at
every step, also while the lock is held.
-/

namespace Xv6.Ptable

open Function (update update_of_ne update_self)

variable {N : Nat} {κ χ σ L : Type}

/-! ## Places -/

/-- `ptable.lock` is held there. -/
def Pc.holds : Pc N χ L → Bool
  | .boot | .bootStack _ | .bootReady _ | .top | .code _ => false
  | _ => true

def Pc.inProc : Pc N χ L → Bool
  | .boot | .bootAlloc | .bootStack _ | .bootReady _ | .bootRun _ | .free => false
  | .top | .loop _ | .run _ | .back _ | .wakeTop _ => false
  | _ => true

def Pc.away : Pc N χ L → Bool
  | .boot | .bootAlloc | .bootStack _ | .bootReady _ | .bootRun _ | .free => true
  | .top | .loop _ | .wakeTop _ => true
  | _ => false

/-- In `userinit`. -/
def Pc.booting : Pc N χ L → Bool
  | .boot | .bootAlloc | .bootStack _ | .bootReady _ | .bootRun _ => true
  | _ => false

def Code.makes : Code N L → Option (Fin N)
  | .stack np | .copy np | .fill np | .ready np => some np
  | _ => none

def Code.made : Code N L → Bool
  | .copy _ | .fill _ | .ready _ => true
  | _ => false

def Code.filled : Code N L → Bool
  | .ready _ => true
  | _ => false

def Pc.makes : Pc N χ L → Option (Fin N)
  | .bootStack np | .bootReady np | .bootRun np | .publish np => some np
  | .code k | .rel k | .yield k | .wake _ k => k.makes
  | _ => none

def Pc.made : Pc N χ L → Bool
  | .bootReady _ | .bootRun _ | .publish _ => true
  | .code k | .rel k | .yield k | .wake _ k => k.made
  | _ => false

def Pc.filled : Pc N χ L → Bool
  | .publish _ => true
  | .code k | .rel k | .yield k | .wake _ k => k.filled
  | _ => false

/-- A place where a process goes on after `sched`. -/
def Pc.resumes : Pc N χ L → Bool
  | .rel _ | .waitAwake | .awake _ | .napAwake => true
  | _ => false

def Proc.waits (x : Proc N χ L) : Prop := x.state = .RUNNABLE ∨ x.state = .SLEEPING

/-- The slot `np` is being filled by code at `k` of the process `p`, or of `userinit`. -/
def Making (t : Table N χ L) (p : Option (Fin N)) (k : Pc N χ L) : Prop :=
  ∀ np, k.makes = some np →
    (t np).state = .EMBRYO ∧ (t np).maker = p ∧ (k.made = true → (t np).context = .rel .user) ∧
    (k.filled = true → ∃ r, p = some r ∧ (t np).parent = some r ∧ (t np).forker = (t r).birth)

structure Inv (s : St N κ χ σ L) : Prop where
  lock : ∀ c, s.ptlock = some c ↔ (s.cpu c).pc.holds = true
  away : ∀ c, (s.cpu c).pc.away = true → (s.cpu c).proc = none
  run : ∀ c p, (s.cpu c).pc = .run p → (s.cpu c).proc = some p ∧ (s.proc p).state = .RUNNABLE
  back : ∀ c p, (s.cpu c).pc = .back p →
    (s.cpu c).proc = some p ∧ ((s.proc p).waits ∨ (s.proc p).state = .ZOMBIE)
  inProc : ∀ c, (s.cpu c).pc.inProc = true →
    ∃ p, (s.cpu c).proc = some p ∧ (s.proc p).state = .RUNNING
  uniq : ∀ c c' p, (s.cpu c).proc = some p → (s.cpu c').proc = some p → c = c'
  running : ∀ p, (s.proc p).state = .RUNNING →
    ∃ c, (s.cpu c).proc = some p ∧ (s.cpu c).pc.inProc = true
  context : ∀ p, (s.proc p).waits → (s.proc p).context.resumes = true
  boot : ∀ c c', (s.cpu c).pc.booting = true → (s.cpu c').pc.booting = true → c = c'
  making : ∀ c, Making s.proc (s.cpu c).proc (s.cpu c).pc
  saved : ∀ p, (s.proc p).waits → Making s.proc (some p) (s.proc p).context

variable {s s' : St N κ χ σ L} {c c' : κ} {p q np : Fin N} {k k' : Pc N χ L}

theorem Pc.kinds (k : Pc N χ L) :
    k.away = true ∨ k.inProc = true ∨ (∃ p, k = .run p) ∨ ∃ p, k = .back p := by
  cases k <;> simp [Pc.away, Pc.inProc]

theorem Pc.away_eq (h : k.inProc = true) : k.away = false := by
  cases k <;> simp_all [Pc.away, Pc.inProc]

theorem Pc.inProc_eq (h : k.away = true) : k.inProc = false := by
  cases k <;> simp_all [Pc.away, Pc.inProc]

theorem Pc.resumes_spec (h : k.resumes = true) : k.holds = true ∧ k.inProc = true := by
  cases k <;> first | exact ⟨rfl, rfl⟩ | cases h

theorem Pc.makes_kind (h : k.makes = some np) : k.inProc = true ∨ k.booting = true := by
  cases k <;> simp_all [Pc.makes, Pc.inProc, Pc.booting]

theorem Pc.booting_away (h : k.booting = true) : k.away = true := by
  cases k <;> simp_all [Pc.booting, Pc.away]

namespace Inv

theorem state_of (h : Inv s) (hp : (s.cpu c).proc = some p) :
    (s.cpu c).pc.inProc = true ∧ (s.proc p).state = .RUNNING ∨
    (s.cpu c).pc = .run p ∧ (s.proc p).state = .RUNNABLE ∨
    (s.cpu c).pc = .back p ∧ ((s.proc p).waits ∨ (s.proc p).state = .ZOMBIE) := by
  rcases (s.cpu c).pc.kinds with hk | hk | ⟨q, hk⟩ | ⟨q, hk⟩
  · rw [h.away c hk] at hp
    cases hp
  · obtain ⟨q, hq, hr⟩ := h.inProc c hk
    obtain rfl : q = p := Option.some.inj (hq.symm.trans hp)
    exact .inl ⟨hk, hr⟩
  · obtain ⟨hq, hr⟩ := h.run c q hk
    obtain rfl : q = p := Option.some.inj (hq.symm.trans hp)
    exact .inr (.inl ⟨hk, hr⟩)
  · obtain ⟨hq, hr⟩ := h.back c q hk
    obtain rfl : q = p := Option.some.inj (hq.symm.trans hp)
    exact .inr (.inr ⟨hk, hr⟩)

theorem state_inProc (h : Inv s) (hp : (s.cpu c).proc = some p) (hk : (s.cpu c).pc.inProc = true) :
    (s.proc p).state = .RUNNING := by
  obtain ⟨q, hq, hr⟩ := h.inProc c hk
  obtain rfl : q = p := Option.some.inj (hq.symm.trans hp)
  exact hr

theorem sole_holder (h : Inv s) (hc : (s.cpu c).pc.holds = true)
    (hc' : (s.cpu c').pc.holds = true) :
    c = c' := Option.some.inj (((h.lock c).2 hc).symm.trans ((h.lock c').2 hc'))

theorem sole_maker (h : Inv s) (hc : (s.cpu c).pc.makes = some np) :
    (∀ c', c' ≠ c → (s.cpu c').pc.makes ≠ some np) ∧
      ∀ q, (s.proc q).waits → (s.proc q).context.makes ≠ some np := by
  obtain ⟨-, hm, -⟩ := h.making c np hc
  refine ⟨fun c' hne hc' => hne ?_, fun q hq hk => ?_⟩
  · obtain ⟨-, hm', -⟩ := h.making c' np hc'
    cases hp : (s.cpu c).proc with
    | some p =>
      rw [hp] at hm
      rw [hm] at hm'
      exact h.uniq c' c p hm'.symm hp
    | none =>
      rw [hp] at hm
      rw [hm] at hm'
      have hboot : ∀ d, (s.cpu d).pc.makes = some np → (s.cpu d).proc = none →
          (s.cpu d).pc.booting = true := by
        intro d hd hn
        rcases Pc.makes_kind hd with hk | hk
        · obtain ⟨q, hq, -⟩ := h.inProc d hk
          rw [hn] at hq
          cases hq
        · exact hk
      exact h.boot c' c (hboot c' hc' hm'.symm) (hboot c hc hp)
  · obtain ⟨-, hm', -⟩ := h.saved q hq np hk
    rw [hm'] at hm
    have hst := h.state_of hm.symm
    rcases Pc.makes_kind hc with hk' | hk'
    · have := h.state_inProc hm.symm hk'
      unfold Proc.waits at hq
      rw [this] at hq
      rcases hq with hq | hq <;> cases hq
    · rw [h.away c (Pc.booting_away hk')] at hm
      cases hm

end Inv

/-! ## What a step may change -/

/-- A processor stays in code of its process, or in code without one. -/
structure Stay (k k' : Pc N χ L) : Prop where
  kind : k.inProc = true ∧ k'.inProc = true ∨ k.away = true ∧ k'.away = true
  boot : k'.booting = true → k.booting = true

/-- The lock after a step of processor `c` from `k` to `k'`. -/
def LockMove (s s' : St N κ χ σ L) (c : κ) (k k' : Pc N χ L) : Prop :=
  s.ptlock = none ∧ s'.ptlock = some c ∧ k'.holds = true ∨
  s'.ptlock = none ∧ k.holds = true ∧ k'.holds = false ∨
  s'.ptlock = s.ptlock ∧ k'.holds = k.holds

def Carry (k k' : Pc N χ L) : Prop :=
  ∀ np, k'.makes = some np →
    k.makes = some np ∧ (k'.made = true → k.made = true) ∧ (k'.filled = true → k.filled = true)

variable {t : Table N χ L} {o : Option (Fin N)}

theorem Making.carry (h : Making t o k) (hk : Carry k k') : Making t o k' := by
  intro np hnp
  obtain ⟨h1, h2, h3⟩ := hk np hnp
  obtain ⟨h4, h5, h6, h7⟩ := h np h1
  exact ⟨h4, h5, fun h => h6 (h2 h), fun h => h7 (h3 h)⟩

/-- The fields that a slot keeps from `allocproc` and `fork` on. -/
structure Kept (x y : Proc N χ L) : Prop where
  pid : y.pid = x.pid
  kstack : y.kstack = x.kstack
  birth : y.birth = x.birth
  forker : y.forker = x.forker
  maker : y.maker = x.maker

variable {x y z : Proc N χ L}

theorem Kept.trans (h : Kept x y) (h' : Kept y z) : Kept x z :=
  ⟨h'.1.trans h.1, h'.2.trans h.2, h'.3.trans h.3, h'.4.trans h.4, h'.5.trans h.5⟩

/-- Nothing happens to a slot, except that its process may be woken up. -/
structure Woken (x y : Proc N χ L) : Prop where
  kept : Kept x y
  context : y.context = x.context
  state : y.state = x.state ∨ x.state = .SLEEPING ∧ y.state = .RUNNABLE

theorem Woken.refl (x : Proc N χ L) : Woken x x := ⟨⟨rfl, rfl, rfl, rfl, rfl⟩, rfl, .inl rfl⟩

theorem Woken.trans (h : Woken x y) (h' : Woken y z) : Woken x z := by
  refine ⟨h.kept.trans h'.kept, h'.context.trans h.context, ?_⟩
  rcases h.state with h3 | ⟨h3, h3'⟩ <;> rcases h'.state with h6 | ⟨h6, h6'⟩
  · exact .inl (h6.trans h3)
  · exact .inr ⟨h3 ▸ h6, h6'⟩
  · exact .inr ⟨h3, h6.trans h3'⟩
  · rw [h3'] at h6
    cases h6

theorem Woken.state_iff (h : Woken x y) {z : State} (hz : z ≠ .SLEEPING) (hz' : z ≠ .RUNNABLE) :
    y.state = z ↔ x.state = z := by
  rcases h.state with he | ⟨h1, h2⟩
  · rw [he]
  · rw [h1, h2]
    exact ⟨fun he => absurd he.symm hz', fun he => absurd he.symm hz⟩

theorem Woken.waits_iff (h : Woken x y) : y.waits ↔ x.waits := by
  unfold Proc.waits
  rcases h.state with he | ⟨h1, h2⟩
  · rw [he]
  · rw [h1, h2]
    simp

theorem Woken.runnable (h : Woken x y) (hx : x.state = .RUNNABLE) : y.state = .RUNNABLE := by
  rcases h.state with he | ⟨h1, h2⟩
  · rw [he, hx]
  · exact h2

/-- Nothing happens to the table, except that some processes are woken up. -/
def Calm (t t' : Table N χ L) : Prop :=
  ∀ q, Woken (t q) (t' q) ∧ (t' q).parent = (t q).parent

theorem Calm.refl (t : Table N χ L) : Calm t t := fun _ => ⟨.refl _, rfl⟩

theorem Calm.making {t' : Table N χ L} (h : Calm t t') (hm : Making t o k) : Making t' o k := by
  intro np hk
  obtain ⟨h1, h2, h3, h4⟩ := hm np hk
  obtain ⟨hw, hp⟩ := h np
  refine ⟨(hw.state_iff (by decide) (by decide)).2 h1, hw.kept.maker.trans h2, fun hmd => ?_,
    fun hf => ?_⟩
  · rw [hw.context]
    exact h3 hmd
  · obtain ⟨r, h5, h6, h7⟩ := h4 hf
    refine ⟨r, h5, hp.trans h6, ?_⟩
    rw [hw.kept.forker, (h r).1.kept.birth]
    exact h7

/-- What the invariant says of a processor and its process. -/
structure CpuOk (t : Table N χ L) (x : Cpu N χ L) : Prop where
  away : x.pc.away = true → x.proc = none
  run : ∀ p, x.pc = .run p → x.proc = some p ∧ (t p).state = .RUNNABLE
  back : ∀ p, x.pc = .back p → x.proc = some p ∧ ((t p).waits ∨ (t p).state = .ZOMBIE)
  inProc : x.pc.inProc = true → ∃ p, x.proc = some p ∧ (t p).state = .RUNNING

theorem Inv.cpuOk (h : Inv s) (d : κ) : CpuOk s.proc (s.cpu d) :=
  ⟨h.away d, h.run d, h.back d, h.inProc d⟩

theorem CpuOk.woken {t' : Table N χ L} {x : Cpu N χ L} (h : CpuOk t x)
    (hw : ∀ p, x.proc = some p → Woken (t p) (t' p)) : CpuOk t' x := by
  refine ⟨h.away, fun p hp => ?_, fun p hp => ?_, fun hp => ?_⟩
  · obtain ⟨h1, h2⟩ := h.run p hp
    exact ⟨h1, (hw p h1).runnable h2⟩
  · obtain ⟨h1, h2⟩ := h.back p hp
    rw [(hw p h1).waits_iff, (hw p h1).state_iff (by decide) (by decide)]
    exact ⟨h1, h2⟩
  · obtain ⟨p, h1, h2⟩ := h.inProc hp
    exact ⟨p, h1, ((hw p h1).state_iff (by decide) (by decide)).2 h2⟩

/-- The processors keep their processes, and stay in the same kind of code. -/
structure Moved (s s' : St N κ χ σ L) : Prop where
  proc : ∀ d, (s'.cpu d).proc = (s.cpu d).proc
  inProc : ∀ d, (s'.cpu d).pc.inProc = (s.cpu d).pc.inProc
  away : ∀ d, (s'.cpu d).pc.away = (s.cpu d).pc.away
  sched : ∀ d k, (s'.cpu d).pc = k → k.inProc = false → k.away = false → (s.cpu d).pc = k
  boot : ∀ d, (s'.cpu d).pc.booting = true → (s.cpu d).pc.booting = true

theorem Moved.of_update [DecidableEq κ] (hpc : (s.cpu c).pc = k)
    (hcpu : s'.cpu = update s.cpu c ⟨(s.cpu c).proc, k'⟩) (hk : Stay k k') :
    Moved s s' := by
  have hself : (s'.cpu c).pc = k' := by rw [hcpu, update_self]
  have hother : ∀ d, d ≠ c → s'.cpu d = s.cpu d := by
    intro d hd
    rw [hcpu, update_of_ne hd]
  refine ⟨fun d => ?_, fun d => ?_, fun d => ?_, fun d k'' hd h1 h2 => ?_, fun d hd => ?_⟩
  · by_cases hd : d = c
    · rw [hcpu, hd, update_self]
    · rw [hother d hd]
  · by_cases hd : d = c
    · rw [hd, hself, hpc]
      rcases hk.kind with ⟨h1, h2⟩ | ⟨h1, h2⟩
      · rw [h1, h2]
      · rw [Pc.inProc_eq h1, Pc.inProc_eq h2]
    · rw [hother d hd]
  · by_cases hd : d = c
    · rw [hd, hself, hpc]
      rcases hk.kind with ⟨h1, h2⟩ | ⟨h1, h2⟩
      · rw [Pc.away_eq h1, Pc.away_eq h2]
      · rw [h1, h2]
    · rw [hother d hd]
  · by_cases hdc : d = c
    · rw [hdc, hself] at hd
      subst hd
      rcases hk.kind with ⟨-, h3⟩ | ⟨-, h3⟩
      · rw [h3] at h1
        cases h1
      · rw [h3] at h2
        cases h2
    · rwa [hother d hdc] at hd
  · by_cases hdc : d = c
    · rw [hdc, hself] at hd
      rw [hdc, hpc]
      exact hk.boot hd
    · rwa [hother d hdc] at hd

theorem Moved.cpuOk (hm : Moved s s') {d : κ} (h : CpuOk t (s.cpu d)) : CpuOk t (s'.cpu d) := by
  refine ⟨fun hd => ?_, fun p hd => ?_, fun p hd => ?_, fun hd => ?_⟩ <;> rw [hm.proc]
  · exact h.away (hm.away d ▸ hd)
  · exact h.run p (hm.sched d _ hd rfl rfl)
  · exact h.back p (hm.sched d _ hd rfl rfl)
  · exact h.inProc (hm.inProc d ▸ hd)

namespace Inv

variable [DecidableEq κ]

section

variable (h : Inv s)

include h

/-- One processor has gone on, and the processes of the others have at most been woken up. -/
theorem cpus (hc : CpuOk s'.proc (s'.cpu c)) (hne : ∀ d, d ≠ c → s'.cpu d = s.cpu d)
    (hw : ∀ d q, d ≠ c → (s.cpu d).proc = some q → Woken (s.proc q) (s'.proc q)) (d : κ) :
    CpuOk s'.proc (s'.cpu d) := by
  by_cases hdc : d = c
  · rwa [hdc]
  · rw [hne d hdc]
    exact (h.cpuOk d).woken fun q hq => hw d q hdc hq

theorem boot_of (hne : ∀ d, d ≠ c → s'.cpu d = s.cpu d) (hc : (s'.cpu c).pc.booting ≠ true)
    (d d' : κ) (h1 : (s'.cpu d).pc.booting = true) (h2 : (s'.cpu d').pc.booting = true) :
    d = d' := by
  have hb : ∀ d, (s'.cpu d).pc.booting = true → (s.cpu d).pc.booting = true := by
    intro d hd
    by_cases hdc : d = c
    · exact absurd (hdc ▸ hd) hc
    · rwa [hne d hdc] at hd
  exact h.boot d d' (hb d h1) (hb d' h2)

omit [DecidableEq κ] in
theorem running_of (hp : (s.cpu c).proc = some p) (hne : ∀ d, d ≠ c → s'.cpu d = s.cpu d)
    (hqp : q ≠ p) (hq : (s.proc q).state = .RUNNING) :
    ∃ d, (s'.cpu d).proc = some q ∧ (s'.cpu d).pc.inProc = true := by
  obtain ⟨d, h1, h2⟩ := h.running q hq
  have hdc : d ≠ c := by
    rintro rfl
    exact hqp (Option.some.inj (h1.symm.trans hp))
  refine ⟨d, ?_⟩
  rw [hne d hdc]
  exact ⟨h1, h2⟩

theorem lock_move (hpc : (s.cpu c).pc = k) {x : Cpu N χ L} (hx : x.pc = k')
    (hcpu : s'.cpu = update s.cpu c x) (hl : LockMove s s' c k k') :
    ∀ d, s'.ptlock = some d ↔ (s'.cpu d).pc.holds = true := by
  intro d
  have hlk := h.lock
  rw [hcpu]
  by_cases hd : d = c
  · subst hd
    rw [update_self, hx]
    rcases hl with ⟨-, h2, h3⟩ | ⟨h1, -, h3⟩ | ⟨h1, h2⟩
    · rw [h2, h3]
      simp
    · rw [h1, h3]
      simp
    · rw [h1, h2, ← hpc]
      exact hlk d
  · rw [update_of_ne hd]
    rcases hl with ⟨h1, h2, -⟩ | ⟨h1, h2, -⟩ | ⟨h1, -⟩
    · rw [h2, ← hlk d, h1]
      simp [Ne.symm hd]
    · rw [h1, ← hlk d, (hlk c).2 (hpc ▸ h2)]
      simp [Ne.symm hd]
    · rw [h1]
      exact hlk d

theorem calm (hpc : (s.cpu c).pc = k) (ht : Calm s.proc s'.proc)
    (hcpu : s'.cpu = update s.cpu c ⟨(s.cpu c).proc, k'⟩) (hl : LockMove s s' c k k')
    (hk : Stay k k')
    (hmk : Carry k k') : Inv s' := by
  have hm := Moved.of_update hpc hcpu hk
  have hok : ∀ d, CpuOk s'.proc (s'.cpu d) := fun d =>
    hm.cpuOk ((h.cpuOk d).woken fun p _ => (ht p).1)
  refine ⟨h.lock_move hpc rfl hcpu hl, fun d => (hok d).away, fun d => (hok d).run,
    fun d => (hok d).back, fun d => (hok d).inProc, fun d d' p h1 h2 => ?_, fun p hp => ?_,
    fun p hp => ?_, fun d d' h1 h2 => h.boot d d' (hm.boot d h1) (hm.boot d' h2), fun d => ?_,
    fun p hp => ?_⟩
  · rw [hm.proc] at h1 h2
    exact h.uniq d d' p h1 h2
  · obtain ⟨d, h1, h2⟩ := h.running p (((ht p).1.state_iff (by decide) (by decide)).1 hp)
    exact ⟨d, (hm.proc d).trans h1, (hm.inProc d).trans h2⟩
  · rw [(ht p).1.context]
    exact h.context p ((ht p).1.waits_iff.1 hp)
  · rw [hm.proc]
    refine ht.making ?_
    by_cases hdc : d = c
    · subst hdc
      rw [show (s'.cpu d).pc = k' by rw [hcpu, update_self]]
      exact (hpc ▸ h.making d).carry hmk
    · rw [hcpu, update_of_ne hdc]
      exact h.making d
  · rw [(ht p).1.context]
    exact ht.making (h.saved p ((ht p).1.waits_iff.1 hp))

theorem slot (hpc : (s.cpu c).pc = k)
    (hproc' : s'.proc = update s.proc np x)
    (hcpu : s'.cpu = update s.cpu c ⟨(s.cpu c).proc, k'⟩) (hl : LockMove s s' c k k')
    (hk : Stay k k') (hold : ¬ (s.proc np).waits) (hoff : ∀ d, (s.cpu d).proc ≠ some np)
    (hnew : x.state ≠ .RUNNING)
    (hwait : x.waits → x.context.resumes = true ∧ x.context.makes = none)
    (hother : ∀ d, d ≠ c → (s.cpu d).pc.makes ≠ some np)
    (hsaved : ∀ q, (s.proc q).waits → (s.proc q).context.makes ≠ some np)
    (hmk : ∀ q, k'.makes = some q → q = np ∧ x.state = .EMBRYO ∧ x.maker = (s.cpu c).proc ∧
      (k'.made = true → x.context = .rel .user) ∧ (k'.filled = true →
        ∃ r, (s.cpu c).proc = some r ∧ x.parent = some r ∧ x.forker = (s.proc r).birth)) :
    Inv s' := by
  have hm := Moved.of_update hpc hcpu hk
  have hp' : ∀ q, q ≠ np → s'.proc q = s.proc q := fun q hq => by
    rw [hproc', update_of_ne hq]
  have hx : s'.proc np = x := by rw [hproc', update_self]
  have hon : ∀ d q, (s.cpu d).proc = some q → q ≠ np := fun d q hd hq => hoff d (hq ▸ hd)
  have hmaking : ∀ o (k0 : Pc N χ L), o ≠ some np → k0.makes ≠ some np → Making s.proc o k0 →
      Making s'.proc o k0 := by
    intro o k0 ho hne hm q hq
    rw [hp' q (fun he => hne (he ▸ hq))]
    obtain ⟨h1, h2, h3, h4⟩ := hm q hq
    refine ⟨h1, h2, h3, fun hf => ?_⟩
    obtain ⟨r, h5, h6, h7⟩ := h4 hf
    refine ⟨r, h5, h6, ?_⟩
    rwa [hp' r (fun he => ho (he ▸ h5))]
  have hok : ∀ d, CpuOk s'.proc (s'.cpu d) := fun d =>
    hm.cpuOk ((h.cpuOk d).woken fun p hp => by rw [hp' p (hon d p hp)]; exact .refl _)
  refine ⟨h.lock_move hpc rfl hcpu hl, fun d => (hok d).away, fun d => (hok d).run,
    fun d => (hok d).back, fun d => (hok d).inProc, fun d d' p h1 h2 => ?_, fun p hp => ?_,
    fun p hp => ?_, fun d d' h1 h2 => h.boot d d' (hm.boot d h1) (hm.boot d' h2), fun d => ?_,
    fun p hp => ?_⟩
  · rw [hm.proc] at h1 h2
    exact h.uniq d d' p h1 h2
  · have hpn : p ≠ np := by
      rintro rfl
      rw [hx] at hp
      exact hnew hp
    rw [hp' p hpn] at hp
    obtain ⟨d, h1, h2⟩ := h.running p hp
    exact ⟨d, (hm.proc d).trans h1, (hm.inProc d).trans h2⟩
  · by_cases hpn : p = np
    · subst hpn
      rw [hx] at hp ⊢
      exact (hwait hp).1
    · rw [hp' p hpn] at hp ⊢
      exact h.context p hp
  · rw [hm.proc]
    by_cases hdc : d = c
    · subst hdc
      rw [show (s'.cpu d).pc = k' by rw [hcpu, update_self]]
      intro q hq
      obtain ⟨rfl, h1, h2, h3, h4⟩ := hmk q hq
      rw [hx]
      refine ⟨h1, h2, h3, fun hf => ?_⟩
      obtain ⟨r, h5, h6, h7⟩ := h4 hf
      refine ⟨r, h5, h6, ?_⟩
      rwa [hp' r (hon d r h5)]
    · rw [hcpu, update_of_ne hdc]
      exact hmaking _ _ (hoff d) (hother d hdc) (h.making d)
  · by_cases hpn : p = np
    · subst hpn
      rw [hx] at hp ⊢
      intro q hq
      rw [(hwait hp).2] at hq
      cases hq
    · rw [hp' p hpn] at hp ⊢
      exact hmaking _ _ (fun he => hpn (Option.some.inj he)) (hsaved p hp) (h.saved p hp)

theorem leave (hp : (s.cpu c).proc = some p) (hpc : (s.cpu c).pc = k)
    (hk : k.inProc = true) (hhold : k.holds = true) (hlock : s'.ptlock = s.ptlock)
    (hcpu : s'.cpu = update s.cpu c ⟨some p, .back p⟩)
    (ht : ∀ q, q ≠ p → Woken (s.proc q) (s'.proc q) ∧ ((s'.proc q).parent = (s.proc q).parent ∨
      (s.proc q).parent = some p ∧ k.makes = none))
    (hbirth : (s'.proc p).birth = (s.proc p).birth)
    (hstate : (s'.proc p).waits ∨ (s'.proc p).state = .ZOMBIE)
    (hctx : (s'.proc p).waits → (s'.proc p).context.resumes = true ∧
      Carry k (s'.proc p).context) : Inv s' := by
  have hrun := h.state_inProc hp (hpc ▸ hk)
  have hself : s'.cpu c = ⟨some p, .back p⟩ := by rw [hcpu, update_self]
  have hpc' : ∀ d, d ≠ c → s'.cpu d = s.cpu d := by
    intro d hd
    rw [hcpu, update_of_ne hd]
  have hproc : ∀ d, (s'.cpu d).proc = (s.cpu d).proc := by
    intro d
    by_cases hd : d = c
    · rw [hd, hself, hp]
    · rw [hpc' d hd]
  have hon : ∀ d q, d ≠ c → (s.cpu d).proc = some q → q ≠ p := fun d q hd hq he =>
    hd (h.uniq d c p (he ▸ hq) hp)
  have hmaking : ∀ o (k0 : Pc N χ L), (o = some p → k0.makes = k.makes) → Making s.proc o k0 →
      Making s'.proc o k0 := by
    intro o k0 ho hm q hq
    obtain ⟨h1, h2, h3, h4⟩ := hm q hq
    have hqp : q ≠ p := by
      rintro rfl
      rw [hrun] at h1
      cases h1
    obtain ⟨hw, hpar⟩ := ht q hqp
    refine ⟨(hw.state_iff (by decide) (by decide)).2 h1, hw.kept.maker.trans h2, fun hmd => ?_,
      fun hf => ?_⟩
    · rw [hw.context]
      exact h3 hmd
    · obtain ⟨r, h5, h6, h7⟩ := h4 hf
      refine ⟨r, h5, ?_, ?_⟩
      · -- the children of an exiting process get another parent, but it is filling no slot
        rcases hpar with hpar | ⟨hpar, hnone⟩
        · rw [hpar, h6]
        · rw [ho (h5.trans (h6.symm.trans hpar)), hnone] at hq
          cases hq
      · rw [hw.kept.forker, h7]
        by_cases hr : r = p
        · rw [hr, hbirth]
        · exact (ht r hr).1.kept.birth.symm
  have hc : CpuOk s'.proc (s'.cpu c) := by
    rw [hself]
    refine ⟨nofun, nofun, fun q hq => ?_, nofun⟩
    cases hq
    exact ⟨rfl, hstate⟩
  have hok := h.cpus hc hpc' fun d q hd hq => (ht q (hon d q hd hq)).1
  refine ⟨h.lock_move hpc rfl hcpu (.inr (.inr ⟨hlock, hhold.symm⟩)), fun d => (hok d).away,
    fun d => (hok d).run, fun d => (hok d).back, fun d => (hok d).inProc,
    fun d d' q h1 h2 => ?_, fun q hq => ?_, fun q hq => ?_, h.boot_of hpc' (by rw [hself]; nofun),
    fun d => ?_, fun q hq => ?_⟩
  · rw [hproc] at h1 h2
    exact h.uniq d d' q h1 h2
  · have hqp : q ≠ p := by
      rintro rfl
      unfold Proc.waits at hstate
      rw [hq] at hstate
      rcases hstate with (h1 | h1) | h1 <;> cases h1
    exact h.running_of hp hpc' hqp (((ht q hqp).1.state_iff (by decide) (by decide)).1 hq)
  · by_cases hqp : q = p
    · subst hqp
      exact (hctx hq).1
    · rw [(ht q hqp).1.context]
      exact h.context q ((ht q hqp).1.waits_iff.1 hq)
  · by_cases hdc : d = c
    · rw [hdc, hself]
      exact fun q hq => nomatch hq
    · rw [hpc' d hdc]
      exact hmaking _ _ (fun he => absurd (h.uniq d c p he hp) hdc) (h.making d)
  · by_cases hqp : q = p
    · subst hqp
      exact (hmaking _ _ (fun _ => rfl) (hp ▸ hpc ▸ h.making c)).carry (hctx hq).2
    · rw [(ht q hqp).1.context]
      exact hmaking _ _ (fun he => absurd (Option.some.inj he) hqp)
        (h.saved q ((ht q hqp).1.waits_iff.1 hq))

/-! ## The scheduler -/

omit [DecidableEq κ] in
theorem not_on_of_waits (hc : (s.cpu c).pc.holds = true) (hp : (s.proc p).waits)
    (hd : (s.cpu c').proc = some p) : c' = c := by
  rcases h.state_of hd with ⟨-, h2⟩ | ⟨h1, -⟩ | ⟨h1, -⟩
  · unfold Proc.waits at hp
    rw [h2] at hp
    rcases hp with hp | hp <;> cases hp
  · exact h.sole_holder (by rw [h1]; rfl) hc
  · exact h.sole_holder (by rw [h1]; rfl) hc

theorem assign {x : Cpu N χ L} (hpc : (s.cpu c).pc = k) (hk : k.inProc = false)
    (hhold : k.holds = true) (hproc' : s'.proc = s.proc) (hlock : s'.ptlock = s.ptlock)
    (hcpu : s'.cpu = update s.cpu c x)
    (hx : (∃ i, x = ⟨none, .loop i⟩) ∨ ∃ p, x = ⟨some p, .run p⟩ ∧
      (s.proc p).state = .RUNNABLE ∧ ∀ d, d ≠ c → (s.cpu d).proc ≠ some p) : Inv s' := by
  have hself : s'.cpu c = x := by rw [hcpu, update_self]
  have hne : ∀ d, d ≠ c → s'.cpu d = s.cpu d := fun d hd => by rw [hcpu, update_of_ne hd]
  have hxhold : x.pc.holds = true := by
    rcases hx with ⟨i, rfl⟩ | ⟨p, rfl, -⟩ <;> rfl
  have hxp : ∀ p, x.proc = some p → x.pc = .run p ∧ (s.proc p).state = .RUNNABLE ∧
      ∀ d, d ≠ c → (s.cpu d).proc ≠ some p := by
    intro p hp
    rcases hx with ⟨i, rfl⟩ | ⟨q, rfl, h1, h2⟩
    · cases hp
    · cases hp
      exact ⟨rfl, h1, h2⟩
  have hc : CpuOk s'.proc (s'.cpu c) := by
    rw [hself]
    rcases hx with ⟨i, rfl⟩ | ⟨p, rfl, h1, -⟩
    · exact ⟨fun _ => rfl, nofun, nofun, nofun⟩
    · refine ⟨nofun, fun q hq => ?_, nofun, nofun⟩
      cases hq
      exact ⟨rfl, hproc' ▸ h1⟩
  have hok := h.cpus hc hne fun d q _ _ => hproc' ▸ .refl _
  have hboot : (s'.cpu c).pc.booting ≠ true := by
    rw [hself]
    rcases hx with ⟨i, rfl⟩ | ⟨p, rfl, -⟩ <;> nofun
  refine ⟨h.lock_move hpc rfl hcpu (.inr (.inr ⟨hlock, hxhold.trans hhold.symm⟩)),
    fun d => (hok d).away, fun d => (hok d).run, fun d => (hok d).back, fun d => (hok d).inProc,
    fun d d' q h1 h2 => ?_, fun q hq => ?_, hproc' ▸ h.context, h.boot_of hne hboot, fun d => ?_,
    hproc' ▸ h.saved⟩
  · by_cases hdc : d = c <;> by_cases hdc' : d' = c
    · rw [hdc, hdc']
    · rw [hdc, hself] at h1
      rw [hne d' hdc'] at h2
      exact absurd h2 ((hxp q h1).2.2 d' hdc')
    · rw [hdc', hself] at h2
      rw [hne d hdc] at h1
      exact absurd h1 ((hxp q h2).2.2 d hdc)
    · rw [hne d hdc] at h1
      rw [hne d' hdc'] at h2
      exact h.uniq d d' q h1 h2
  · rw [hproc'] at hq
    obtain ⟨d, h1, h2⟩ := h.running q hq
    have hdc : d ≠ c := by
      rintro rfl
      rw [hpc, hk] at h2
      cases h2
    refine ⟨d, ?_⟩
    rw [hne d hdc]
    exact ⟨h1, h2⟩
  · rw [hproc']
    by_cases hdc : d = c
    · rw [hdc, hself]
      rcases hx with ⟨i, rfl⟩ | ⟨p, rfl, -⟩ <;> exact fun q hq => nomatch hq
    · rw [hne d hdc]
      exact h.making d

theorem swtch (hpc : (s.cpu c).pc = .run p) :
    Inv ((s.setState p .RUNNING).goto c (s.proc p).context) := by
  obtain ⟨hp, hst⟩ := h.run c p hpc
  have hres := h.context p (.inl hst)
  have hsaved := h.saved p (.inl hst)
  obtain ⟨hhold, hin⟩ := Pc.resumes_spec hres
  generalize (s.proc p).context = k at hres hsaved hhold hin ⊢
  generalize hs' : (s.setState p .RUNNING).goto c k = s'
  have hself : s'.cpu c = ⟨some p, k⟩ := by
    rw [← hs', ← hp]
    exact update_self _ _ _
  have hne : ∀ d, d ≠ c → s'.cpu d = s.cpu d := fun d hd => by
    rw [← hs']
    exact update_of_ne hd _ _
  have hx : s'.proc p = { s.proc p with state := .RUNNING } := by
    rw [← hs']
    exact update_self _ _ _
  have hq' : ∀ q, q ≠ p → s'.proc q = s.proc q := fun q hq => by
    rw [← hs']
    exact update_of_ne hq _ _
  have hon : ∀ d q, d ≠ c → (s.cpu d).proc = some q → q ≠ p := fun d q hd hq he =>
    hd (h.uniq d c p (he ▸ hq) hp)
  have hmaking : ∀ o (k0 : Pc N χ L), Making s.proc o k0 → Making s'.proc o k0 := by
    intro o k0 hm q hq
    obtain ⟨h1, h2, h3, h4⟩ := hm q hq
    have hqp : q ≠ p := by
      rintro rfl
      rw [hst] at h1
      cases h1
    have hbirth : ∀ r, (s'.proc r).birth = (s.proc r).birth := by
      intro r
      by_cases hr : r = p
      · rw [hr, hx]
      · rw [hq' r hr]
    rw [hq' q hqp]
    simp only [hbirth]
    exact ⟨h1, h2, h3, h4⟩
  have hnw : ¬ (s'.proc p).waits := by
    rw [hx]
    rintro (h1 | h1) <;> cases h1
  have hc : CpuOk s'.proc (s'.cpu c) := by
    rw [hself]
    refine ⟨fun ha => ?_, fun q hq => ?_, fun q hq => ?_, fun _ => ⟨p, rfl, by rw [hx]⟩⟩
    · rw [Pc.away_eq hin] at ha
      cases ha
    · rw [show k = .run q from hq] at hin
      cases hin
    · rw [show k = .back q from hq] at hin
      cases hin
  have hok := h.cpus hc hne fun d q hd hq => by
    rw [hq' q (hon d q hd hq)]
    exact .refl _
  have hboot : (s'.cpu c).pc.booting ≠ true := fun hb => by
    rw [hself] at hb
    have := Pc.booting_away hb
    rw [Pc.away_eq hin] at this
    cases this
  refine ⟨h.lock_move hpc (x := ⟨some p, k⟩) rfl ?_ (.inr (.inr ⟨?_, hhold⟩)),
    fun d => (hok d).away, fun d => (hok d).run, fun d => (hok d).back, fun d => (hok d).inProc,
    fun d d' q h1 h2 => ?_, fun q hq => ?_, fun q hq => ?_, h.boot_of hne hboot, fun d => ?_,
    fun q hq => ?_⟩
  · rw [← hs', ← hp]
    rfl
  · rw [← hs']
    rfl
  · have hproc : ∀ d, (s'.cpu d).proc = (s.cpu d).proc := by
      intro d
      by_cases hdc : d = c
      · rw [hdc, hself, hp]
      · rw [hne d hdc]
    rw [hproc] at h1 h2
    exact h.uniq d d' q h1 h2
  · by_cases hqp : q = p
    · subst hqp
      exact ⟨c, by rw [hself], by rw [hself]; exact hin⟩
    · rw [hq' q hqp] at hq
      exact h.running_of hp hne hqp hq
  · have hqp : q ≠ p := by
      rintro rfl
      exact hnw hq
    rw [hq' q hqp] at hq ⊢
    exact h.context q hq
  · by_cases hdc : d = c
    · rw [hdc, hself]
      exact hmaking _ _ hsaved
    · rw [hne d hdc]
      exact hmaking _ _ (h.making d)
  · have hqp : q ≠ p := by
      rintro rfl
      exact hnw hq
    rw [hq' q hqp] at hq ⊢
    exact hmaking _ _ (h.saved q hq)

/-! ## Slots without a running process -/

omit [DecidableEq κ]

theorem off_of_state (hp : (s.proc p).state = .UNUSED ∨ (s.proc p).state = .EMBRYO) :
    ∀ d, (s.cpu d).proc ≠ some p := by
  intro d hd
  rcases h.state_of hd with ⟨-, h2⟩ | ⟨-, h2⟩ | ⟨-, (h2 | h2) | h2⟩ <;> rw [h2] at hp <;>
    rcases hp with hp | hp <;> cases hp

theorem back_of_zombie (hp : (s.proc p).state = .ZOMBIE) (hd : (s.cpu c).proc = some p) :
    (s.cpu c).pc = .back p := by
  rcases h.state_of hd with ⟨-, h2⟩ | ⟨-, h2⟩ | ⟨h1, -⟩
  · rw [h2] at hp
    cases hp
  · rw [h2] at hp
    cases hp
  · exact h1

theorem off_of_zombie (hc : (s.cpu c).pc.holds = true) (hne : (s.cpu c).pc ≠ .back p)
    (hp : (s.proc p).state = .ZOMBIE) : ∀ d, (s.cpu d).proc ≠ some p := by
  intro d hd
  have hb := h.back_of_zombie hp hd
  obtain rfl : d = c := h.sole_holder (by rw [hb]; rfl) hc
  exact hne hb

theorem not_made (hp : (s.proc p).state ≠ .EMBRYO) : (∀ d, (s.cpu d).pc.makes ≠ some p) ∧
      ∀ q, (s.proc q).waits → (s.proc q).context.makes ≠ some p :=
  ⟨fun d hd => hp (h.making d p hd).1, fun q hq hk => hp (h.saved q hq p hk).1⟩

end

end Inv

/-! ## The functions on the table -/

theorem calm_update (h : Woken (t p) x) (h' : x.parent = (t p).parent) : Calm t (update t p x) := by
  intro q
  by_cases hq : q = p
  · subst hq
    rw [update_self]
    exact ⟨h, h'⟩
  · rw [update_of_ne hq]
    exact ⟨.refl _, rfl⟩

theorem calm_kill (t : Table N χ L) (pid : BitVec 32) : Calm t (killTable t pid) := by
  unfold killTable
  split
  · next p _ =>
    refine calm_update ⟨⟨rfl, rfl, rfl, rfl, rfl⟩, rfl, ?_⟩ rfl
    dsimp only
    split
    · next h => exact .inr ⟨h, rfl⟩
    · exact .inl rfl
  · exact .refl t

theorem calm_chpr (t : Table N χ L) (pid : BitVec 32) (priority : Int) :
    Calm t (chprTable t pid priority) := by
  unfold chprTable
  split
  · exact calm_update ⟨⟨rfl, rfl, rfl, rfl, rfl⟩, rfl, .inl rfl⟩ rfl
  · exact .refl t

theorem highest_runnable (h : (t p).state = .RUNNABLE) : (t (highest t p)).state = .RUNNABLE := by
  unfold highest
  generalize List.finRange N = l
  induction l generalizing p with
  | nil => exact h
  | cons q l ih =>
    rw [List.foldl_cons]
    apply ih
    split
    · next hq => exact hq.1
    · exact h

section Wakeup

variable [DecidableEq χ]

theorem calm_wakeup1 (t : Table N χ L) (chan : Option (Chan N χ)) : Calm t (wakeup1 t chan) := by
  intro q
  unfold wakeup1
  split
  · next h => exact ⟨⟨⟨rfl, rfl, rfl, rfl, rfl⟩, rfl, .inr ⟨h.1, rfl⟩⟩, rfl⟩
  · exact ⟨.refl _, rfl⟩

theorem abandon_spec (cur init : Fin N) (ps : List (Fin N)) (t : Table N χ L) (q : Fin N) :
    Woken (t q) (abandon cur init ps t q) ∧ (abandon cur init ps t q).parent =
      if q ∈ ps ∧ (t q).parent = some cur then some init else (t q).parent := by
  induction ps generalizing t with
  | nil => exact ⟨.refl _, by simp [abandon]⟩
  | cons p ps ih =>
    unfold abandon
    by_cases hp : (t p).parent = some cur
    · rw [if_pos hp]
      have h1 : Woken (t q) (update t p { t p with parent := some init } q) ∧
          (update t p { t p with parent := some init } q).parent =
            if q = p then some init else (t q).parent := by
        by_cases hq : q = p
        · subst hq
          rw [update_self, if_pos rfl]
          exact ⟨⟨⟨rfl, rfl, rfl, rfl, rfl⟩, rfl, .inl rfl⟩, rfl⟩
        · rw [update_of_ne hq, if_neg hq]
          exact ⟨.refl _, rfl⟩
      generalize update t p { t p with parent := some init } = t' at h1 ⊢
      have h2 : ∀ t'', Calm t' t'' → Woken (t q) (abandon cur init ps t'' q) ∧
          (abandon cur init ps t'' q).parent =
            if q ∈ p :: ps ∧ (t q).parent = some cur then some init else (t q).parent := by
        intro t'' ht
        obtain ⟨h3, h4⟩ := ih t''
        refine ⟨(h1.1.trans (ht q).1).trans h3, ?_⟩
        rw [h4, (ht q).2, h1.2]
        by_cases hq : q = p
        · subst hq
          simp [hp]
        · simp [hq]
      split
      · exact h2 _ (calm_wakeup1 _ _)
      · exact h2 _ (.refl _)
    · rw [if_neg hp]
      obtain ⟨h3, h4⟩ := ih t
      refine ⟨h3, ?_⟩
      rw [h4]
      by_cases hq : q = p
      · subst hq
        simp [hp]
      · simp [hq]

end Wakeup

/-! ## Steps -/

section Steps

variable {K : Client N χ σ L}

theorem Enters.moves (h : Enters K s c k k') :
    Stay k k' ∧ k'.holds = true ∧ Carry k k' := by
  unfold Carry
  cases h <;> refine ⟨⟨by simp [Pc.inProc, Pc.away], by simp [Pc.booting]⟩, rfl, ?_⟩ <;>
    simp [Pc.makes, Pc.made, Pc.filled, Code.makes, Code.made, Code.filled]

theorem Leaves.moves (h : Leaves k k') :
    Stay k k' ∧ k.holds = true ∧ k'.holds = false ∧ Carry k k' := by
  unfold Carry
  cases h <;> refine ⟨⟨by simp [Pc.inProc, Pc.away], by simp [Pc.booting]⟩, rfl, rfl, ?_⟩ <;>
    simp [Pc.makes, Pc.made, Pc.filled]

theorem findUnused_state (h : findUnused t = some np) : (t np).state = .UNUSED := by
  simpa using List.find?_some h

theorem findZombie_spec (h : findZombie t p = some q) :
    (t q).parent = some p ∧ (t q).state = .ZOMBIE := by
  simpa using List.find?_some h

variable [DecidableEq κ]

namespace Inv

theorem alloc (h : Inv s) (hpc : (s.cpu c).pc = k) (hnp : findUnused s.proc = some np)
    (hproc' : s'.proc = update s.proc np x) (hcpu : s'.cpu = update s.cpu c ⟨(s.cpu c).proc, k'⟩)
    (hl : LockMove s s' c k k') (hk : Stay k k') (hmake : k'.makes = some np)
    (hmade : k'.made = false) (hfill : k'.filled = false) (hst : x.state = .EMBRYO)
    (hmaker : x.maker = (s.cpu c).proc) : Inv s' := by
  have hun := findUnused_state hnp
  obtain ⟨h1, h2⟩ := h.not_made (p := np) (by rw [hun]; decide)
  refine h.slot hpc hproc' hcpu hl hk ?_ (h.off_of_state (.inl hun)) (by rw [hst]; decide) ?_
    (fun d _ => h1 d) h2 ?_
  · rintro (h3 | h3) <;> rw [hun] at h3 <;> cases h3
  · rintro (h3 | h3) <;> rw [hst] at h3 <;> cases h3
  · intro q hq
    obtain rfl : np = q := Option.some.inj (hmake.symm.trans hq)
    refine ⟨rfl, hst, hmaker, fun h3 => ?_, fun h3 => ?_⟩
    · rw [hmade] at h3
      cases h3
    · rw [hfill] at h3
      cases h3

theorem fill (h : Inv s) (hpc : (s.cpu c).pc = k) (hmk : k.makes = some np)
    (hproc' : s'.proc = update s.proc np x)
    (hcpu : s'.cpu = update s.cpu c ⟨(s.cpu c).proc, k'⟩) (hl : LockMove s s' c k k')
    (hk : Stay k k') (hmaker : x.maker = (s.proc np).maker)
    (hx : k'.makes = none ∧ x.state = .UNUSED ∨
      k'.makes = none ∧ x.state = .RUNNABLE ∧ x.context.resumes = true ∧ x.context.makes = none ∨
      k'.makes = some np ∧ x.state = .EMBRYO ∧ x.context = .rel .user ∧ (k'.filled = true →
        ∃ r, (s.cpu c).proc = some r ∧ x.parent = some r ∧ x.forker = (s.proc r).birth)) :
    Inv s' := by
  subst hpc
  obtain ⟨hst, hm, -⟩ := h.making c np hmk
  obtain ⟨h1, h2⟩ := h.sole_maker hmk
  refine h.slot rfl hproc' hcpu hl hk ?_ (h.off_of_state (.inr hst)) ?_ ?_ h1 h2 ?_
  · rintro (h3 | h3) <;> rw [hst] at h3 <;> cases h3
  · rcases hx with ⟨-, hx⟩ | ⟨-, hx, -⟩ | ⟨-, hx, -⟩ <;> rw [hx] <;> decide
  · intro hw
    rcases hx with ⟨-, hx⟩ | ⟨-, -, hx⟩ | ⟨-, hx, -⟩
    · rcases hw with h3 | h3 <;> rw [hx] at h3 <;> cases h3
    · exact hx
    · rcases hw with h3 | h3 <;> rw [hx] at h3 <;> cases h3
  · intro q hq
    rcases hx with ⟨hn, -⟩ | ⟨hn, -⟩ | ⟨hn, hx, hres, hfill⟩
    · rw [hn] at hq
      cases hq
    · rw [hn] at hq
      cases hq
    · obtain rfl : np = q := Option.some.inj (hn.symm.trans hq)
      exact ⟨rfl, hx, hmaker.trans hm, fun _ => hres, hfill⟩

theorem sched (h : Inv s) (hp : (s.cpu c).proc = some p) (hpc : (s.cpu c).pc = k)
    (hk : k.inProc = true) (hhold : k.holds = true) (hlock : s'.ptlock = s.ptlock)
    (hproc' : s'.proc = update (update s.proc p x) p
      { (update s.proc p x) p with context := k' })
    (hcpu : s'.cpu = update s.cpu c ⟨(s.cpu c).proc, .back p⟩) (hx : x.waits)
    (hkept : Kept (s.proc p) x) (hctx : k'.resumes = true ∧ Carry k k') : Inv s' := by
  have hself : s'.proc p = { x with context := k' } := by
    rw [hproc', update_self, update_self]
  refine h.leave hp hpc hk hhold hlock (hp ▸ hcpu) (fun q hq => ?_) ?_ (.inl ?_) fun _ => ?_
  · rw [hproc', update_of_ne hq, update_of_ne hq]
    exact ⟨.refl _, .inl rfl⟩
  · rw [hself]
    exact hkept.birth
  · rw [hself]
    exact hx
  · rw [hself]
    exact hctx

theorem quiet (h : Inv s) (hpc : (s.cpu c).pc = k) (ht : Calm s.proc s'.proc)
    (hcpu : s'.cpu = update s.cpu c ⟨(s.cpu c).proc, k'⟩) (hlock : s'.ptlock = s.ptlock)
    (hhold : k'.holds = k.holds) (hk : Stay k k')
    (hmk : k'.makes = none) : Inv s' := by
  refine h.calm hpc ht hcpu (.inr (.inr ⟨hlock, hhold⟩)) hk fun np hnp => ?_
  rw [hmk] at hnp
  cases hnp

end Inv

variable [DecidableEq χ]

theorem exitTable_spec (cur init : Fin N) (t : Table N χ L) :
    (∀ q, q ≠ cur → Woken (t q) (exitTable cur init t q)) ∧
    (∀ q, (exitTable cur init t q).parent =
      if (t q).parent = some cur then some init else (t q).parent) ∧
    Kept (t cur) (exitTable cur init t cur) ∧ (exitTable cur init t cur).state = .ZOMBIE := by
  have hc : ∀ q, _ := fun q => abandon_spec cur init (List.finRange N)
    (wakeup1 t ((t cur).parent.map Chan.proc)) q
  have hw := calm_wakeup1 t ((t cur).parent.map Chan.proc)
  unfold exitTable
  generalize abandon cur init (List.finRange N) (wakeup1 t ((t cur).parent.map Chan.proc)) =
    t' at hc ⊢
  have hpar : ∀ q, (t' q).parent = if (t q).parent = some cur then some init else (t q).parent := by
    intro q
    rw [(hc q).2, (hw q).2]
    simp
  refine ⟨fun q hq => ?_, fun q => ?_, ?_, ?_⟩
  · rw [update_of_ne hq]
    exact (hw q).1.trans (hc q).1
  · rw [← hpar q]
    by_cases hq : q = cur
    · subst hq
      rw [update_self]
    · rw [update_of_ne hq]
  · rw [update_self]
    obtain ⟨h1, h2, h3, h4, h5⟩ := ((hw cur).1.trans (hc cur).1).kept
    exact ⟨h1, h2, h3, h4, h5⟩
  · rw [update_self]

theorem Inv.exit {init : Fin N} (h : Inv s) (hp : (s.cpu c).proc = some p)
    (hpc : (s.cpu c).pc = .exit) (hlock : s'.ptlock = s.ptlock)
    (hproc' : s'.proc = update (exitTable p init s.proc) p
      { (exitTable p init s.proc) p with context := .dead })
    (hcpu : s'.cpu = update s.cpu c ⟨(s.cpu c).proc, .back p⟩) : Inv s' := by
  obtain ⟨h1, h2, h3, h4⟩ := exitTable_spec p init s.proc
  have hz : (s'.proc p).state = .ZOMBIE := by
    rw [hproc', update_self]
    exact h4
  refine h.leave hp hpc rfl rfl hlock (hp ▸ hcpu) (fun q hq => ?_) ?_ (.inr hz) fun hw => ?_
  · rw [hproc', update_of_ne hq, h2]
    refine ⟨h1 q hq, ?_⟩
    split
    · next hpar => exact .inr ⟨hpar, rfl⟩
    · exact .inl rfl
  · rw [hproc', update_self]
    exact h3.birth
  · rcases hw with hw | hw <;> rw [hz] at hw <;> cases hw

theorem Inv.step (h : Inv s) (hs : Step K c s s') : Inv s' := by
  cases hs with
  | acquire hfree hpc he =>
    obtain ⟨h1, h2, h3⟩ := he.moves
    exact h.calm hpc (.refl _) rfl (.inl ⟨hfree, rfl, h2⟩) h1 h3
  | release hpc hl =>
    obtain ⟨h1, h2, h3, h4⟩ := hl.moves
    exact h.calm hpc (.refl _) rfl (.inr (.inl ⟨rfl, h2, h3⟩)) h1 h4
  | bootAlloc hpc hnp =>
    refine h.alloc hpc hnp rfl rfl (.inr (.inl ⟨rfl, rfl, rfl⟩)) ⟨.inr ⟨rfl, rfl⟩, fun _ => rfl⟩ rfl
      rfl rfl rfl ?_
    exact (h.away c (by rw [hpc]; rfl)).symm
  | bootStack hpc =>
    refine h.fill hpc rfl rfl rfl (.inr (.inr ⟨rfl, rfl⟩)) ⟨.inr ⟨rfl, rfl⟩, fun _ => rfl⟩ rfl
      (.inr (.inr ⟨rfl, ?_, rfl, nofun⟩))
    exact (h.making c _ (by rw [hpc]; rfl)).1
  | bootRun hpc =>
    have hctx := (h.making c _ (by rw [hpc]; rfl)).2.2.1 (by rw [hpc]; rfl)
    refine h.fill hpc rfl rfl rfl (.inr (.inr ⟨rfl, rfl⟩)) ⟨.inr ⟨rfl, rfl⟩, nofun⟩ rfl
      (.inr (.inl ⟨rfl, rfl, ?_⟩))
    dsimp only
    rw [hctx]
    exact ⟨rfl, rfl⟩
  | skip hpc hp =>
    exact h.quiet hpc (.refl _) rfl rfl rfl ⟨.inr ⟨rfl, rfl⟩, id⟩ rfl
  | choose hpc hp =>
    have hst := highest_runnable hp
    refine h.assign hpc rfl rfl rfl rfl rfl (.inr ⟨_, rfl, hst, fun d hd hq => hd ?_⟩)
    exact h.not_on_of_waits (by rw [hpc]; rfl) (.inl hst) hq
  | swtch hpc => exact h.swtch hpc
  | back hpc => exact h.assign hpc rfl rfl rfl rfl rfl (.inl ⟨_, rfl⟩)
  | yield hp hpc =>
    exact h.sched hp hpc rfl rfl rfl rfl rfl (.inl rfl)
      ⟨rfl, rfl, rfl, rfl, rfl⟩ ⟨rfl, fun q hq => ⟨hq, id, id⟩⟩
  | alloc hp hpc hnp =>
    exact h.alloc hpc hnp rfl rfl (.inr (.inr ⟨rfl, rfl⟩)) ⟨.inl ⟨rfl, rfl⟩, nofun⟩ rfl rfl rfl
      rfl hp.symm
  | allocFull hpc hnone => exact h.quiet hpc (.refl _) rfl rfl rfl ⟨.inl ⟨rfl, rfl⟩, id⟩ rfl
  | stack hpc =>
    refine h.fill hpc rfl rfl rfl (.inr (.inr ⟨rfl, rfl⟩)) ⟨.inl ⟨rfl, rfl⟩, nofun⟩ rfl
      (.inr (.inr ⟨rfl, ?_, rfl, nofun⟩))
    exact (h.making c _ (by rw [hpc]; rfl)).1
  | stackFail hpc =>
    exact h.fill hpc rfl rfl rfl (.inr (.inr ⟨rfl, rfl⟩)) ⟨.inl ⟨rfl, rfl⟩, nofun⟩ rfl
      (.inl ⟨rfl, rfl⟩)
  | copy hpc =>
    exact h.calm hpc (.refl _) rfl (.inr (.inr ⟨rfl, rfl⟩)) ⟨.inl ⟨rfl, rfl⟩, id⟩
      fun q hq => ⟨hq, fun _ => rfl, nofun⟩
  | copyFail hpc =>
    exact h.fill hpc rfl rfl rfl (.inr (.inr ⟨rfl, rfl⟩)) ⟨.inl ⟨rfl, rfl⟩, nofun⟩ rfl
      (.inl ⟨rfl, rfl⟩)
  | fill hp hpc =>
    have hm := h.making c _ (by rw [hpc]; rfl)
    exact h.fill hpc rfl rfl rfl (.inr (.inr ⟨rfl, rfl⟩)) ⟨.inl ⟨rfl, rfl⟩, nofun⟩ rfl
      (.inr (.inr ⟨rfl, hm.1, hm.2.2.1 (by rw [hpc]; rfl), fun _ => ⟨_, hp, rfl, rfl⟩⟩))
  | publish hpc =>
    have hctx := (h.making c _ (by rw [hpc]; rfl)).2.2.1 (by rw [hpc]; rfl)
    refine h.fill hpc rfl rfl rfl (.inr (.inr ⟨rfl, rfl⟩)) ⟨.inl ⟨rfl, rfl⟩, nofun⟩ rfl
      (.inr (.inl ⟨rfl, rfl, ?_⟩))
    dsimp only
    rw [hctx]
    exact ⟨rfl, rfl⟩
  | exit hp hpc hinit => exact h.exit hp hpc rfl rfl rfl
  | reap hp hpc hq =>
    have hz := (findZombie_spec hq).2
    obtain ⟨h1, h2⟩ := h.not_made (by rw [hz]; decide)
    refine h.slot hpc rfl rfl (.inr (.inr ⟨rfl, rfl⟩)) ⟨.inl ⟨rfl, rfl⟩, nofun⟩ ?_
      (h.off_of_zombie (by rw [hpc]; rfl) (by rw [hpc]; nofun) hz) nofun ?_ (fun d _ => h1 d) h2
      nofun
    · rintro (h3 | h3) <;> rw [hz] at h3 <;> cases h3
    · rintro (h3 | h3) <;> cases h3
  | waitFail hp hpc hz hk =>
    exact h.quiet hpc (.refl _) rfl rfl rfl ⟨.inl ⟨rfl, rfl⟩, id⟩ rfl
  | waitSleep hp hpc hz hk hkill =>
    exact h.sched hp hpc rfl rfl rfl rfl rfl (.inr rfl)
      ⟨rfl, rfl, rfl, rfl, rfl⟩ ⟨rfl, nofun⟩
  | waitAwake hp hpc =>
    exact h.quiet hpc (calm_update ⟨⟨rfl, rfl, rfl, rfl, rfl⟩, rfl, .inl rfl⟩ rfl) rfl rfl rfl
      ⟨.inl ⟨rfl, rfl⟩, id⟩ rfl
  | sleepRelease hpc => exact h.quiet hpc (.refl _) rfl rfl rfl ⟨.inl ⟨rfl, rfl⟩, id⟩ rfl
  | sleep hp hpc =>
    exact h.sched hp hpc rfl rfl rfl rfl rfl (.inr rfl)
      ⟨rfl, rfl, rfl, rfl, rfl⟩ ⟨rfl, nofun⟩
  | awake hp hpc =>
    exact h.quiet hpc (calm_update ⟨⟨rfl, rfl, rfl, rfl, rfl⟩, rfl, .inl rfl⟩ rfl) rfl rfl rfl
      ⟨.inl ⟨rfl, rfl⟩, id⟩ rfl
  | relock hpc hlk => exact h.quiet hpc (.refl _) rfl rfl rfl ⟨.inl ⟨rfl, rfl⟩, id⟩ rfl
  | nap hp hpc =>
    exact h.sched hp hpc rfl rfl rfl rfl rfl (.inr rfl)
      ⟨rfl, rfl, rfl, rfl, rfl⟩ ⟨rfl, nofun⟩
  | napAwake hp hpc =>
    exact h.quiet hpc (calm_update ⟨⟨rfl, rfl, rfl, rfl, rfl⟩, rfl, .inl rfl⟩ rfl) rfl rfl rfl
      ⟨.inl ⟨rfl, rfl⟩, id⟩ rfl
  | wakeup hpc =>
    exact h.calm hpc (calm_wakeup1 _ _) rfl (.inr (.inr ⟨rfl, rfl⟩)) ⟨.inl ⟨rfl, rfl⟩, id⟩
      fun q hq => ⟨hq, id, id⟩
  | wakeTop hpc =>
    exact h.quiet hpc (calm_wakeup1 _ _) rfl rfl rfl ⟨.inr ⟨rfl, rfl⟩, id⟩ rfl
  | kill hpc => exact h.quiet hpc (calm_kill _ _) rfl rfl rfl ⟨.inl ⟨rfl, rfl⟩, id⟩ rfl
  | chpr hpc => exact h.quiet hpc (calm_chpr _ _ _) rfl rfl rfl ⟨.inl ⟨rfl, rfl⟩, id⟩ rfl
  | setId hp hpc hid hq =>
    refine h.quiet hpc (calm_update ?_ ?_) rfl rfl rfl ⟨.inl ⟨rfl, rfl⟩, id⟩ rfl
    · split <;> exact ⟨⟨rfl, rfl, rfl, rfl, rfl⟩, rfl, .inl rfl⟩
    · split <;> rfl
  | setIdNull hp hpc hid hnone =>
    exact h.quiet hpc (.refl _) rfl rfl rfl ⟨.inl ⟨rfl, rfl⟩, id⟩ rfl
  | setIdBounds hpc hid =>
    exact h.quiet hpc (.refl _) rfl rfl rfl ⟨.inl ⟨rfl, rfl⟩, id⟩ rfl
  | idRet hpc => exact h.quiet hpc (.refl _) rfl rfl rfl ⟨.inl ⟨rfl, rfl⟩, id⟩ rfl
  | exec hp hpc =>
    exact h.quiet hpc (calm_update ⟨⟨rfl, rfl, rfl, rfl, rfl⟩, rfl, .inl rfl⟩ rfl) rfl rfl rfl
      ⟨.inl ⟨rfl, rfl⟩, id⟩ rfl
  | trap hp hpc =>
    exact h.quiet hpc (calm_update ⟨⟨rfl, rfl, rfl, rfl, rfl⟩, rfl, .inl rfl⟩ rfl) rfl rfl rfl
      ⟨.inl ⟨rfl, rfl⟩, id⟩ rfl
  | enter hp hpc hlk hen => exact h.quiet hpc (.refl _) rfl rfl rfl ⟨.inl ⟨rfl, rfl⟩, id⟩ rfl
  | set hp hpc hact => exact h.quiet hpc (.refl _) rfl rfl rfl ⟨.inl ⟨rfl, rfl⟩, id⟩ rfl
  | leave hp hpc hact => exact h.quiet hpc (.refl _) rfl rfl rfl ⟨.inl ⟨rfl, rfl⟩, id⟩ rfl
  | outside hp hpc ho => exact ⟨h.1, h.2, h.3, h.4, h.5, h.6, h.7, h.8, h.9, h.10, h.11⟩

omit [DecidableEq χ] in
theorem inv_start (c : κ) (g : σ) : Inv (start c g : St N κ χ σ L) := by
  have hboot : ∀ d, ((start c g : St N κ χ σ L).cpu d).pc = .boot ∧ d = c ∨
      ((start c g : St N κ χ σ L).cpu d).pc = .top := by
    intro d
    by_cases hd : d = c
    · exact .inl ⟨if_pos hd, hd⟩
    · exact .inr (if_neg hd)
  have hplace : ∀ d (f : Pc N χ L → Prop), f .boot → f .top →
      f ((start c g : St N κ χ σ L).cpu d).pc := by
    intro d f h1 h2
    rcases hboot d with ⟨h, -⟩ | h <;> rw [h] <;> assumption
  have hwaits : ∀ p, ¬ ((start c g : St N κ χ σ L).proc p).waits := by
    rintro p (h | h) <;> cases h
  refine ⟨fun d => ?_, fun d _ => rfl, fun d p hd => ?_, fun d p hd => ?_, fun d hd => ?_, nofun,
    nofun, fun p hp => absurd hp (hwaits p), fun d d' h1 h2 => ?_, fun d => ?_,
    fun p hp => absurd hp (hwaits p)⟩
  · exact hplace d (fun k => none = some d ↔ k.holds = true) (by simp [Pc.holds])
      (by simp [Pc.holds])
  · exact absurd hd (hplace d (· ≠ .run p) nofun nofun)
  · exact absurd hd (hplace d (· ≠ .back p) nofun nofun)
  · exact absurd hd (hplace d (·.inProc ≠ true) nofun nofun)
  · have hc : ∀ d, ((start c g : St N κ χ σ L).cpu d).pc.booting = true → d = c := by
      intro d hd
      rcases hboot d with ⟨-, h⟩ | h
      · exact h
      · rw [h] at hd
        cases hd
    rw [hc d h1, hc d' h2]
  · exact hplace d (Making _ _) nofun nofun

theorem Reachable.inv {g : σ} (h : Reachable K g s) : Inv s := by
  induction h with
  | start c => exact inv_start c g
  | step _ hs ih => exact ih.step hs

end Steps

end Xv6.Ptable
