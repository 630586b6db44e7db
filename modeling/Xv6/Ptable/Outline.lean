import Xv6.Ptable.Sleep

/-!
# Proof outlines for code under a lock

What is true at each place of the code under `lk`: `J` of the data whenever the lock is free, `H` at
a place where the process holds the lock, and `P` at a place where it waits in `sleep`, which has to
survive what the others do. An outline is checked action by action (`LockOutline`), and then holds
in every run (`Reachable.guarded`). Often `J` is true of the data all the time (`Outline`,
`Reachable.outlined`); a run may then be taken to be one of a client that does what it does only
where the outline is true (`Reachable.limit`).
-/

namespace Xv6.Ptable

variable {N : Nat} {κ χ σ L : Type} {K : Client N χ σ L} {s s' : St N κ χ σ L} {c c' : κ}
  {p q np : Fin N} {k k' : Pc N χ L} {J : σ → Prop} {H P : Fin N → L → σ → Prop} {g0 : σ}

structure LockOutline (K : Client N χ σ L) (J : σ → Prop) (H P : Fin N → L → σ → Prop) (g0 : σ) :
    Prop where
  init : J g0
  enter : ∀ {p g l}, K.enter p g l → J g → H p l g
  set : ∀ {p kd l g g' l'}, K.act p kd l g (.set g' l') → H p l g →
    H p l' g' ∧ ∀ q l₂, q ≠ p → P q l₂ g → P q l₂ g'
  wakeup : ∀ {p kd l g ch l'}, K.act p kd l g (.wakeup ch l') → H p l g → H p l' g
  sleep : ∀ {p kd l g ch l'}, K.act p kd l g (.sleep ch l') → H p l g → J g ∧ P p l' g
  relock : ∀ {p l g}, J g → P p l g → H p l g
  release : ∀ {p kd l g}, K.act p kd l g .release → H p l g → J g
  outside : ∀ {p g g'}, K.outside p g g' → (J g → J g') ∧ ∀ q l, q ≠ p →
    (H q l g → H q l g') ∧ (J g ∨ (∃ r l', H r l' g) → P q l g → P q l g')

/-- An outline of which `J` is true at all places. -/
structure Outline (K : Client N χ σ L) (J : σ → Prop) (H P : Fin N → L → σ → Prop) (g0 : σ) :
    Prop where
  init : J g0
  enter : ∀ {p g l}, K.enter p g l → J g → H p l g
  set : ∀ {p kd l g g' l'}, K.act p kd l g (.set g' l') → J g → H p l g →
    J g' ∧ H p l' g' ∧ ∀ q l₂, q ≠ p → P q l₂ g → P q l₂ g'
  wakeup : ∀ {p kd l g ch l'}, K.act p kd l g (.wakeup ch l') → J g → H p l g → H p l' g
  sleep : ∀ {p kd l g ch l'}, K.act p kd l g (.sleep ch l') → J g → H p l g → P p l' g
  relock : ∀ {p l g}, J g → P p l g → H p l g
  outside : ∀ {p g g'}, K.outside p g g' → J g →
    J g' ∧ ∀ q l, q ≠ p → (H q l g → H q l g') ∧ (P q l g → P q l g')

/-! ## Places -/

def Code.holding : Code N L → Option L
  | .inside l => some l
  | _ => none

def Code.waiting : Code N L → Option L
  | .relock l => some l
  | _ => none

/-- The place in the client's code of a process that holds `lk`. -/
def Pc.holding : Pc N χ L → Option L
  | .code k | .rel k | .yield k | .wake _ k => k.holding
  | _ => none

/-- The place where a process goes on after `sleep`. -/
def Pc.waiting : Pc N χ L → Option L
  | .code k | .rel k | .yield k | .wake _ k => k.waiting
  | .sleepOn _ l | .sleepGo _ l | .awake l => some l
  | _ => none

/-- In `sleep`, before the process has changed its state. -/
def Pc.dozing : Pc N χ L → Option (χ × L)
  | .sleepOn ch l | .sleepGo ch l => some (ch, l)
  | _ => none

/-- Some code calls `sleep` on `ch` and goes on at `l`. -/
def Client.sleeps (K : Client N χ σ L) (ch : χ) (l : L) : Prop :=
  ∃ p kd l0 g, K.act p kd l0 g (.sleep ch l)

/-- The outline is true of process `p` at `k`. -/
structure PlaceOk (K : Client N χ σ L) (H P : Fin N → L → σ → Prop) (p : Fin N) (k : Pc N χ L)
    (g : σ) : Prop where
  holding : ∀ l, k.holding = some l → H p l g
  waiting : ∀ l, k.waiting = some l → P p l g
  dozing : ∀ ch l, k.dozing = some (ch, l) → K.sleeps ch l

structure Guarded (K : Client N χ σ L) (J : σ → Prop) (H P : Fin N → L → σ → Prop)
    (s : St N κ χ σ L) : Prop where
  data : (∀ c, (s.cpu c).pc.holding = none) → J s.g
  here : ∀ c p, (s.cpu c).proc = some p → PlaceOk K H P p (s.cpu c).pc s.g
  away : ∀ p, (s.proc p).waits → PlaceOk K H P p (s.proc p).context s.g
  asleep : ∀ p ch, (s.proc p).state = .SLEEPING → (s.proc p).chan = some (.client ch) →
    ∃ l, (s.proc p).context = .awake l ∧ K.sleeps ch l

theorem Pc.dozing_eq (h : k.waiting = none) : k.dozing = none := by
  cases k <;> first | rfl | cases h

theorem PlaceOk.of_none {g : σ} (h : k.holding = none) (h' : k.waiting = none) :
    PlaceOk K H P p k g := by
  refine ⟨fun l hl => ?_, fun l hl => ?_, fun ch l hl => ?_⟩
  · rw [h] at hl
    cases hl
  · rw [h'] at hl
    cases hl
  · rw [Pc.dozing_eq h'] at hl
    cases hl

theorem PlaceOk.imp {H' : Fin N → L → σ → Prop} {g : σ} (hk : PlaceOk K H P p k g)
    (h : ∀ l, H p l g → H' p l g) : PlaceOk K H' P p k g :=
  ⟨fun l hl => h l (hk.holding l hl), hk.waiting, hk.dozing⟩

theorem PlaceOk.of_eq {g : σ} (hk : PlaceOk K H P p k g) (h : k'.holding = k.holding)
    (h' : k'.waiting = k.waiting) (h'' : k'.dozing = none ∨ k'.dozing = k.dozing) :
    PlaceOk K H P p k' g := by
  refine ⟨fun l hl => hk.holding l (h ▸ hl), fun l hl => hk.waiting l (h' ▸ hl), fun ch l hl => ?_⟩
  rcases h'' with h'' | h'' <;> rw [h''] at hl
  · cases hl
  · exact hk.dozing ch l hl

theorem Suspends.placeOk {g : σ} (h : Suspends k k') (hk : PlaceOk K H P p k g) :
    PlaceOk K H P p k' g := by
  cases h with
  | yield | sleep => exact hk.of_eq rfl rfl (.inl rfl)
  | wait | nap => exact .of_none rfl rfl

theorem Pc.hasLk_of_holding {l : L} (h : k.holding = some l) : k.hasLk = true := by
  have hc : ∀ {k : Code N L}, k.holding = some l → k.hasLk = true := by
    intro k hk
    cases k <;> first | rfl | cases hk
  cases k <;> first | exact hc h | cases h

theorem Pc.inProc_of_holding {l : L} (h : k.holding = some l) : k.inProc = true := by
  cases k <;> first | rfl | cases h

/-! ## Runs -/

section Steps

variable [DecidableEq κ] [DecidableEq χ]

namespace Guarded

section

variable (h : Guarded K J H P s) (hi : Inv s) (hs : Step K c s s')

include h hi hs

theorem asleep_step (p : Fin N) (ch : χ) (hst : (s'.proc p).state = .SLEEPING)
    (hchan : (s'.proc p).chan = some (.client ch)) :
    ∃ l, (s'.proc p).context = .awake l ∧ K.sleeps ch l := by
  rcases hi.sleeper hs p with h1 | ⟨hp, h1⟩
  · obtain ⟨h2, h3, h4⟩ := h1 hst
    rw [h4]
    exact h.asleep p ch h2 (h3 ▸ hchan)
  · cases h1 with
    | client ch' l hpc hchan' hctx =>
      rw [hchan'] at hchan
      cases hchan
      exact ⟨l, hctx, (h.here c p hp).dozing ch l (by rw [hpc]; rfl)⟩
    | wait _ _ hchan' =>
      rw [hchan'] at hchan
      cases hchan
    | nap _ _ hchan' =>
      rw [hchan'] at hchan
      cases hchan

theorem move {x : Cpu N χ L} (hcpu : s'.cpu = Function.update s.cpu c x) (hg : s'.g = s.g)
    (hJ : x.pc.holding = none → (s.cpu c).pc.holding = none ∨ J s.g)
    (hx : ∀ p, x.proc = some p → PlaceOk K H P p x.pc s.g) : Guarded K J H P s' := by
  refine ⟨fun hfree => ?_, fun d p hd => ?_, fun p hp => ?_, h.asleep_step hi hs⟩
  · rw [hcpu] at hfree
    rw [hg]
    have hc := hfree c
    rw [Function.update_self] at hc
    refine (hJ hc).elim (fun hcc => h.data fun d => ?_) id
    by_cases hdc : d = c
    · rw [hdc]
      exact hcc
    · have hd := hfree d
      rwa [Function.update_of_ne hdc] at hd
  · rw [hcpu] at hd ⊢
    rw [hg]
    by_cases hdc : d = c
    · rw [hdc, Function.update_self] at hd ⊢
      exact hx p hd
    · rw [Function.update_of_ne hdc] at hd ⊢
      exact h.here d p hd
  · rw [hg]
    rcases hi.rests hs p hp with ⟨h1, h2⟩ | h1 | ⟨h1, h2⟩
    · rw [h2]
      exact h.away p h1
    · rw [h1]
      exact .of_none rfl rfl
    · exact h2.placeOk (h.here c p h1)

theorem same (hpc : (s.cpu c).pc = k) (hcpu : s'.cpu = Function.update s.cpu c ⟨(s.cpu c).proc, k'⟩)
    (hg : s'.g = s.g) (h1 : k'.holding = k.holding) (h2 : k'.waiting = k.waiting)
    (h3 : k'.dozing = none ∨ k'.dozing = k.dozing) : Guarded K J H P s' :=
  h.move hi hs hcpu hg (fun hk => .inl (by rw [hpc, ← h1]; exact hk))
    fun p hp => (hpc ▸ h.here c p hp).of_eq h1 h2 h3

theorem out {x : Cpu N χ L} (hpc : (s.cpu c).pc = k)
    (hcpu : s'.cpu = Function.update s.cpu c x) (hg : s'.g = s.g)
    (h0 : k.holding = none) (h1 : x.pc.holding = none) (h2 : x.pc.waiting = none) :
    Guarded K J H P s' :=
  h.move hi hs hcpu hg (fun _ => .inl (by rw [hpc, h0])) fun _ _ => .of_none h1 h2

end

omit [DecidableEq κ] [DecidableEq χ] in
theorem free (h : Guarded K J H P s) (hl : Signals (fun _ _ => False) (fun _ _ => False) s)
    (hlk : s.lk = none) : J s.g := by
  refine h.data fun c => ?_
  by_contra hne
  obtain ⟨l, hc⟩ := Option.ne_none_iff_exists'.1 hne
  rw [(hl.lk c).2 (Pc.hasLk_of_holding hc)] at hlk
  cases hlk

omit [DecidableEq κ] [DecidableEq χ] in
theorem inside (h : Guarded K J H P s) (hi : Inv s) : J s.g ∨ ∃ p l, H p l s.g := by
  by_cases hfree : ∀ c, (s.cpu c).pc.holding = none
  · exact .inl (h.data hfree)
  · rw [not_forall] at hfree
    obtain ⟨c, hc⟩ := hfree
    obtain ⟨l, hl⟩ := Option.ne_none_iff_exists'.1 hc
    obtain ⟨p, hp, -⟩ := hi.inProc c (Pc.inProc_of_holding hl)
    exact .inr ⟨p, l, (h.here c p hp).holding l hl⟩

theorem step (h : Guarded K J H P s) (O : LockOutline K J H P g0) (hi : Inv s)
    (hl : Signals (fun _ _ => False) (fun _ _ => False) s) (hs : Step K c s s') :
    Guarded K J H P s' := by
  have hs' := hs
  cases hs with
  | acquire hfree hpc he =>
    cases he with
    | clientWakeup p l ch l' hp hact =>
      refine h.move hi hs' rfl rfl nofun fun q hq => ⟨fun l2 hl2 => ?_, nofun, nofun⟩
      cases hl2
      obtain rfl : p = q := Option.some.inj (hp.symm.trans hq)
      exact O.wakeup hact ((h.here c p hp).holding l (by rw [hpc]; rfl))
    | clientSleep p l ch l' hp hact =>
      obtain ⟨hJ, hP⟩ := O.sleep hact ((h.here c p hp).holding l (by rw [hpc]; rfl))
      refine h.move hi hs' rfl rfl (fun _ => .inr hJ) fun q hq =>
        ⟨nofun, fun l2 hl2 => ?_, fun ch' l2 hl2 => ?_⟩
      · cases hl2
        obtain rfl : p = q := Option.some.inj (hp.symm.trans hq)
        exact hP
      · cases hl2
        exact ⟨_, _, _, _, hact⟩
    | yield | wakeup => exact h.same hi hs' hpc rfl rfl rfl rfl (.inl rfl)
    | _ => exact h.out hi hs' hpc rfl rfl rfl rfl rfl
  | release hpc hl =>
    cases hl with
    | code k => exact h.same hi hs' hpc rfl rfl rfl rfl (.inl rfl)
    | _ => exact h.out hi hs' hpc rfl rfl rfl rfl rfl
  | swtch hpc =>
    obtain ⟨hp, hst⟩ := hi.run c _ hpc
    refine h.move hi hs' rfl rfl (fun _ => .inl (by rw [hpc]; rfl)) fun q hq => ?_
    obtain rfl : _ = q := Option.some.inj (hp.symm.trans hq)
    exact h.away _ (.inl hst)
  | wakeup hpc => exact h.same hi hs' hpc rfl rfl rfl rfl (.inl rfl)
  | sleepRelease hpc => exact h.same hi hs' hpc rfl rfl rfl rfl (.inr rfl)
  | awake hp hpc => exact h.same hi hs' hpc rfl rfl rfl rfl (.inl rfl)
  | relock hpc hlk =>
    refine h.move hi hs' rfl rfl nofun fun q hq => ⟨fun l2 hl2 => ?_, nofun, nofun⟩
    cases hl2
    exact O.relock (h.free hl hlk) ((h.here c q hq).waiting _ (by rw [hpc]; rfl))
  | enter hp hpc hlk hen =>
    refine h.move hi hs' rfl rfl nofun fun q hq => ⟨fun l2 hl2 => ?_, nofun, nofun⟩
    cases hl2
    obtain rfl : _ = q := Option.some.inj (hp.symm.trans hq)
    exact O.enter hen (h.free hl hlk)
  | leave hp hpc hact =>
    exact h.move hi hs' rfl rfl
      (fun _ => .inr (O.release hact ((h.here c _ hp).holding _ (by rw [hpc]; rfl))))
      fun _ _ => .of_none rfl rfl
  | @set p l g l' hp hpc hact =>
    obtain ⟨h2, h3⟩ := O.set hact ((h.here c p hp).holding l (by rw [hpc]; rfl))
    refine ⟨fun hfree => ?_, fun d q hd => ?_, fun q hq => ?_, h.asleep_step hi hs'⟩
    · have hc : (Function.update s.cpu c _ c).pc.holding = none := hfree c
      rw [Function.update_self] at hc
      cases hc
    · change (Function.update s.cpu c _ d).proc = some q at hd
      change PlaceOk K H P q (Function.update s.cpu c _ d).pc g
      by_cases hdc : d = c
      · rw [hdc, Function.update_self] at hd ⊢
        obtain rfl : p = q := Option.some.inj (hp.symm.trans hd)
        refine ⟨fun l2 hl2 => ?_, nofun, nofun⟩
        cases hl2
        exact h2
      · rw [Function.update_of_ne hdc] at hd ⊢
        refine ⟨fun l2 hl2 => ?_, fun l2 hl2 => h3 q l2 ?_ ((h.here d q hd).waiting l2 hl2),
          (h.here d q hd).dozing⟩
        · exact absurd (hl.sole (Pc.hasLk_of_holding hl2) (by rw [hpc]; rfl)) hdc
        · rintro rfl
          exact hdc (hi.uniq d c q hd hp)
    · have hok := h.away q hq
      refine ⟨fun l2 hl2 => ?_, fun l2 hl2 => h3 q l2 ?_ (hok.waiting l2 hl2), hok.dozing⟩
      · have h4 : (s.proc q).context.hasLk = true := Pc.hasLk_of_holding hl2
        rw [hl.saved q hq] at h4
        cases h4
      · rintro rfl
        have hr := hi.state_inProc hp (by rw [hpc]; rfl)
        rcases hq with hq | hq <;> rw [show (s.proc q).state = _ from hq] at hr <;> cases hr
  | @outside p g hp hpc ho =>
    obtain ⟨h1, h2⟩ := O.outside ho
    refine ⟨fun hfree => h1 (h.data hfree), fun d q hd => ?_, fun q hq => ?_, h.asleep_step hi hs'⟩
    · by_cases hqp : q = p
      · subst hqp
        obtain rfl : d = c := hi.uniq d c q hd hp
        change PlaceOk K H P q (s.cpu d).pc g
        rw [hpc]
        exact .of_none rfl rfl
      · obtain ⟨h3, h4, h5⟩ := h.here d q hd
        exact ⟨fun l2 hl2 => (h2 q l2 hqp).1 (h3 l2 hl2),
          fun l2 hl2 => (h2 q l2 hqp).2 (h.inside hi) (h4 l2 hl2), h5⟩
    · have hqp : q ≠ p := by
        rintro rfl
        have hr := hi.state_inProc hp (by rw [hpc]; rfl)
        rcases hq with hq | hq <;> rw [show (s.proc q).state = _ from hq] at hr <;> cases hr
      obtain ⟨h3, h4, h5⟩ := h.away q hq
      exact ⟨fun l2 hl2 => (h2 q l2 hqp).1 (h3 l2 hl2), fun l2 hl2 => (h2 q l2 hqp).2 (h.inside hi)
        (h4 l2 hl2), h5⟩
  | @yield p k hp hpc =>
    refine h.out hi hs' hpc rfl rfl ?_ rfl rfl
    cases k with
    | inside l => exact absurd hpc (hl.yield c l)
    | _ => rfl
  | _ => exact h.out hi hs' ‹(s.cpu c).pc = _› rfl rfl rfl rfl rfl

end Guarded

omit [DecidableEq χ] in
theorem discipline_trivial :
    Discipline K (fun _ _ => False) (fun _ _ => False) :=
  ⟨fun _ _ h => h.elim, fun _ _ _ h => h, fun _ => ⟨id, fun _ h => h.elim⟩, fun _ _ h => h.elim,
    fun _ _ h => h⟩

theorem Reachable.guarded (O : LockOutline K J H P g0) (h : Reachable K g0 s) :
    Guarded K J H P s := by
  induction h with
  | start c =>
    refine ⟨fun _ => O.init, nofun, fun p hp => ?_, nofun⟩
    rcases hp with hp | hp <;> cases hp
  | step hr hs ih => exact ih.step O hr.inv (hr.signals discipline_trivial) hs

omit [DecidableEq χ] in
theorem Outline.lock (O : Outline K J H P g0) :
    LockOutline K J (fun p l g => J g ∧ H p l g) P g0 where
  init := O.init
  enter hen hJ := ⟨hJ, O.enter hen hJ⟩
  set ha h := ⟨⟨(O.set ha h.1 h.2).1, (O.set ha h.1 h.2).2.1⟩, (O.set ha h.1 h.2).2.2⟩
  wakeup ha h := ⟨h.1, O.wakeup ha h.1 h.2⟩
  sleep ha h := ⟨h.1, O.sleep ha h.1 h.2⟩
  relock hJ hP := ⟨hJ, O.relock hJ hP⟩
  release _ h := h.1
  outside ho := by
    refine ⟨fun hJ => (O.outside ho hJ).1, fun q l hq => ⟨fun h => ?_, fun h hP => ?_⟩⟩
    · obtain ⟨h1, h2⟩ := O.outside ho h.1
      exact ⟨h1, (h2 q l hq).1 h.2⟩
    · have hJ := h.elim id fun ⟨_, _, h⟩ => h.1
      exact ((O.outside ho hJ).2 q l hq).2 hP

structure Outlined (K : Client N χ σ L) (J : σ → Prop) (H P : Fin N → L → σ → Prop)
    (s : St N κ χ σ L) : Prop where
  data : J s.g
  here : ∀ c p, (s.cpu c).proc = some p → PlaceOk K H P p (s.cpu c).pc s.g
  away : ∀ p, (s.proc p).waits → PlaceOk K H P p (s.proc p).context s.g
  asleep : ∀ p ch, (s.proc p).state = .SLEEPING → (s.proc p).chan = some (.client ch) →
    ∃ l, (s.proc p).context = .awake l ∧ K.sleeps ch l

theorem Reachable.outlined (O : Outline K J H P g0) (h : Reachable K g0 s) :
    Outlined K J H P s := by
  have hG := h.guarded O.lock
  have hJ : J s.g := (hG.inside h.inv).elim id fun ⟨_, _, hh⟩ => hh.1
  exact ⟨hJ, fun c p hp => (hG.here c p hp).imp fun _ h => h.2,
    fun p hp => (hG.away p hp).imp fun _ h => h.2, hG.asleep⟩

/-! ## Taking the outline into the code -/

/-- The client that acts only where the outline is true, and where `ok` is. -/
def Client.limit (K : Client N χ σ L) (ok : Fin N → Bool → L → σ → Act χ σ L → Prop) :
    Client N χ σ L :=
  { K with act := fun p kd l g a => K.act p kd l g a ∧ ok p kd l g a }

theorem Step.mono {K' : Client N χ σ L} (hs : Step K c s s')
    (henter : ∀ p l, K.enter p s.g l → K'.enter p s.g l)
    (hact : ∀ p l a, (s.cpu c).proc = some p → (s.cpu c).pc = .code (.inside l) →
      K.act p (s.proc p).killed l s.g a → K'.act p (s.proc p).killed l s.g a)
    (hout : ∀ p g, K.outside p s.g g → K'.outside p s.g g) : Step K' c s s' := by
  have hen : ∀ {k k'}, (s.cpu c).pc = k → Enters K s c k k' → Enters K' s c k k' := by
    intro k k' hpc he
    cases he with
    | clientWakeup p l ch l' hp h => exact .clientWakeup p l ch l' hp (hact p l _ hp hpc h)
    | clientSleep p l ch l' hp h => exact .clientSleep p l ch l' hp (hact p l _ hp hpc h)
    | exit h => exact .exit h
    | yield k h => exact .yield k h
    | wakeup ch k h => exact .wakeup ch k h
    | _ => constructor
  cases hs with
  | acquire h1 h2 h3 => exact .acquire h1 h2 (hen h2 h3)
  | enter h1 h2 h3 h4 => exact .enter h1 h2 h3 (henter _ _ h4)
  | set h1 h2 h3 => exact .set h1 h2 (hact _ _ _ h1 h2 h3)
  | leave h1 h2 h3 => exact .leave h1 h2 (hact _ _ _ h1 h2 h3)
  | outside h1 h2 h3 => exact .outside h1 h2 (hout _ _ h3)
  | copyFail h1 => exact .copyFail h1
  | setIdBounds h1 h2 => exact .setIdBounds h1 h2
  -- the other steps are not the client's
  | _ => constructor <;> assumption

theorem Reachable.limit (O : Outline K J H P g0) (h : Reachable K g0 s) :
    Reachable (K.limit fun p _ l g _ => J g ∧ H p l g) g0 s := by
  induction h with
  | start c => exact .start c
  | step hr hs ih =>
    have ho := hr.outlined O
    refine ih.step (hs.mono (fun _ _ h => h) (fun p l a hp hpc h => ⟨h, ho.data, ?_⟩)
      fun _ _ h => h)
    exact (ho.here _ p hp).holding l (by rw [hpc]; rfl)

theorem Reachable.of_limit {ok : Fin N → Bool → L → σ → Act χ σ L → Prop}
    (h : Reachable (K.limit ok) g0 s) : Reachable K g0 s := by
  induction h with
  | start c => exact .start c
  | step hr hs ih =>
    exact ih.step (hs.mono (fun _ _ h => h) (fun p l a _ _ h => h.1) fun _ _ h => h)

end Steps

end Xv6.Ptable
