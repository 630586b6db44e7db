import Xv6.Ptable.Effect

/-!
# Parents and children

What `fork`, `exit` and `wait` keep between them. The slots of the table are used again and again,
so that a parent pointer may come to mean another process; the numbers of the processes and the log
say that it never does.
-/

namespace Xv6.Ptable

open Function (update update_of_ne update_self)

variable {N : Nat} {κ χ σ L : Type} {K : Client N χ σ L} {s s' : St N κ χ σ L} {c c' : κ}
  {p q np : Fin N} {k k' : Pc N χ L}

def Proc.used (x : Proc N χ L) : Prop := x.live ∨ x.state = .ZOMBIE

variable {x : Proc N χ L}

theorem Kin.used_iff {y : Proc N χ L} (h : Kin x y) : y.used ↔ x.used := by
  unfold Proc.used
  rw [h.live_iff, h.state_iff (.inr (.inr rfl))]

theorem Woken.live_iff {y : Proc N χ L} (h : Woken x y) : y.live ↔ x.live := by
  unfold Proc.live
  rcases h.state with he | ⟨h1, h2⟩
  · rw [he]
  · rw [h1, h2]
    simp

theorem Woken.used_iff {y : Proc N χ L} (h : Woken x y) : y.used ↔ x.used := by
  unfold Proc.used
  rw [h.live_iff, h.state_iff (by decide) (by decide)]

theorem Proc.used.state (h : x.used) : x.state ≠ .UNUSED ∧ x.state ≠ .EMBRYO := by
  rcases h with (h | h | h) | h <;> rw [h] <;> decide

theorem Proc.live.state (h : x.live) : x.state ≠ .UNUSED ∧ x.state ≠ .EMBRYO ∧
    x.state ≠ .ZOMBIE := by
  rcases h with h | h | h <;> rw [h] <;> decide

/-! ## The log -/

/-- What has happened before an event: a process that `wait` returns has exited, has been made
with the pid that is returned, by the caller or by another one whose children the caller has
adopted, and has not been returned before. -/
def EventOk : Event → List Event → Prop
  | .reap child pid parent, l =>
    .exit child ∈ l ∧ (∃ n, .fork child pid n ∈ l ∧ (n = parent ∨ .adopt child parent ∈ l)) ∧
      ∀ pid' parent', .reap child pid' parent' ∉ l
  | _, _ => True

def LogOk : List Event → Prop
  | [] => True
  | e :: l => EventOk e l ∧ LogOk l

variable {l : List Event}

theorem LogOk.adopts (h : LogOk l) (ps : List (Fin N)) (f g : Fin N → Nat) :
    LogOk (ps.map (fun q => .adopt (f q) (g q)) ++ l) := by
  induction ps with
  | nil => exact h
  | cons p ps ih => exact ⟨trivial, ih⟩

theorem LogOk.event {l1 l2 : List Event} {e : Event} (h : LogOk l) (he : l = l1 ++ e :: l2) :
    EventOk e l2 := by
  induction l1 generalizing l with
  | nil =>
    subst he
    exact h.1
  | cons a l1 ih =>
    subst he
    exact ih h.2 rfl

/-! ## The numbers of the processes -/

/-- The slot `np` gets the next number, and no two slots have one number. -/
theorem fresh_inj {P : Proc N χ L → Prop} {t t' : Table N χ L} {n : Nat}
    (hne : ∀ q, q ≠ np → t' q = t q) (hx : (t' np).birth = n)
    (hlt : ∀ q, P (t q) → (t q).birth < n)
    (hinj : ∀ q r, P (t q) → P (t r) → (t q).birth = (t r).birth → q = r)
    (hq : P (t' q)) (hr : P (t' r)) (he : (t' q).birth = (t' r).birth) : q = r := by
  by_cases hqn : q = np <;> by_cases hrn : r = np
  · rw [hqn, hrn]
  · rw [hne r hrn] at hr he
    rw [hqn, hx] at he
    exact absurd he.symm (hlt r hr).ne
  · rw [hne q hqn] at hq he
    rw [hrn, hx] at he
    exact absurd he (hlt q hq).ne
  · rw [hne q hqn] at hq he
    rw [hne r hrn] at hr he
    exact hinj q r hq hr he

structure Births (s : St N κ χ σ L) : Prop where
  lt : ∀ q, (s.proc q).state ≠ .UNUSED → (s.proc q).birth < s.births
  inj : ∀ q r, (s.proc q).state ≠ .UNUSED → (s.proc r).state ≠ .UNUSED →
    (s.proc q).birth = (s.proc r).birth → q = r
  exited : ∀ q, (s.proc q).state = .ZOMBIE → .exit (s.proc q).birth ∈ s.log
  gone : ∀ n, .exit n ∈ s.log → n < s.births ∧
    ∀ q, (s.proc q).state ≠ .UNUSED → (s.proc q).birth = n → (s.proc q).state = .ZOMBIE
  reaped : ∀ n pid m, .reap n pid m ∈ s.log → n < s.births ∧
    ∀ q, (s.proc q).state ≠ .UNUSED → (s.proc q).birth ≠ n

namespace Births

theorem frame (h : Births s) (hb : s'.births = s.births)
    (ht : ∀ q, (s'.proc q).state ≠ .UNUSED → (s.proc q).state ≠ .UNUSED ∧
      (s'.proc q).birth = (s.proc q).birth ∧
      ((s'.proc q).state = .ZOMBIE ↔ (s.proc q).state = .ZOMBIE))
    (hlog : s'.log = s.log ∨ ∃ e, s'.log = e :: s.log ∧ (∀ n, e ≠ .exit n) ∧ ∀ n m l,
      e ≠ .reap n m l) :
    Births s' := by
  have hsub : ∀ e, e ∈ s.log → e ∈ s'.log := by
    rcases hlog with hl | ⟨e, hl, -⟩ <;> rw [hl]
    · exact fun _ h => h
    · exact fun _ h => List.mem_cons_of_mem _ h
  have hexit : ∀ n, .exit n ∈ s'.log → .exit n ∈ s.log := by
    rcases hlog with hl | ⟨e, hl, h1, -⟩ <;> rw [hl]
    · exact fun _ h => h
    · exact fun n h => (List.mem_cons.1 h).resolve_left fun he => h1 n he.symm
  have hreap : ∀ n m l, .reap n m l ∈ s'.log → .reap n m l ∈ s.log := by
    rcases hlog with hl | ⟨e, hl, -, h1⟩ <;> rw [hl]
    · exact fun _ _ _ h => h
    · exact fun n m l h => (List.mem_cons.1 h).resolve_left fun he => h1 n m l he.symm
  refine ⟨fun q hq => ?_, fun q r hq hr he => ?_, fun q hq => ?_, fun n hn => ?_,
    fun n pid m hn => ?_⟩
  · obtain ⟨h1, h2, -⟩ := ht q hq
    rw [h2, hb]
    exact h.lt q h1
  · obtain ⟨h1, h2, -⟩ := ht q hq
    obtain ⟨h3, h4, -⟩ := ht r hr
    exact h.inj q r h1 h3 (by rw [← h2, ← h4, he])
  · obtain ⟨h1, h2, h3⟩ := ht q (by rw [hq]; decide)
    rw [h2]
    exact hsub _ (h.exited q (h3.1 hq))
  · obtain ⟨h1, h2⟩ := h.gone n (hexit n hn)
    refine ⟨hb ▸ h1, fun q hq he => ?_⟩
    obtain ⟨h3, h4, h5⟩ := ht q hq
    exact h5.2 (h2 q h3 (h4 ▸ he))
  · obtain ⟨h1, h2⟩ := h.reaped n pid m (hreap n pid m hn)
    refine ⟨hb ▸ h1, fun q hq => ?_⟩
    obtain ⟨h3, h4, -⟩ := ht q hq
    rw [h4]
    exact h2 q h3

theorem quiet (h : Births s) (hq : Quiet s s')
    (hlog : s'.log = s.log ∨ ∃ e, s'.log = e :: s.log ∧ (∀ n, e ≠ .exit n) ∧ ∀ n m l,
      e ≠ .reap n m l) :
    Births s' := by
  refine h.frame hq.births (fun q hu => ?_) hlog
  have hk := hq.kin q
  exact ⟨fun he => hu ((hk.state_iff (.inl rfl)).2 he), hk.kept.birth,
    hk.state_iff (.inr (.inr rfl))⟩

theorem slot (h : Births s) (hb : s'.births = s.births) (hproc : s'.proc = update s.proc np x)
    (hst : (s.proc np).state = .EMBRYO) (hx : x.birth = (s.proc np).birth) (hz : x.state ≠ .ZOMBIE)
    (hlog : s'.log = s.log ∨ ∃ e, s'.log = e :: s.log ∧ (∀ n, e ≠ .exit n) ∧ ∀ n m l,
      e ≠ .reap n m l) :
    Births s' := by
  refine h.frame hb (fun q hq => ?_) hlog
  rw [hproc] at hq ⊢
  by_cases hqn : q = np
  · subst hqn
    rw [update_self] at hq ⊢
    rw [hst]
    exact ⟨by decide, hx, fun h1 => absurd h1 hz, fun h1 => by cases h1⟩
  · rw [update_of_ne hqn] at hq ⊢
    exact ⟨hq, rfl, Iff.rfl⟩

theorem alloc (h : Births s) (hb : s'.births = s.births + 1) (hproc : s'.proc = update s.proc np x)
    (hx : x.birth = s.births) (hz : x.state = .EMBRYO) (hlog : s'.log = s.log) : Births s' := by
  have hself : s'.proc np = x := by rw [hproc, update_self]
  have hne : ∀ q, q ≠ np → s'.proc q = s.proc q := fun q hq => by
    rw [hproc, update_of_ne hq]
  have hlt : ∀ n, n < s.births → n < s'.births := fun n hn => hb ▸ Nat.lt_succ_of_lt hn
  refine ⟨fun q hq => ?_, fun q r hq hr he => ?_, fun q hq => ?_, fun n hn => ?_,
    fun n pid m hn => ?_⟩
  · by_cases hqn : q = np
    · rw [hqn, hself, hx, hb]
      exact Nat.lt_succ_self _
    · rw [hne q hqn] at hq ⊢
      exact hlt _ (h.lt q hq)
  · exact fresh_inj (P := fun x => x.state ≠ .UNUSED) hne (hself ▸ hx) h.lt h.inj hq hr he
  · have hqn : q ≠ np := by
      rintro rfl
      rw [hself, hz] at hq
      cases hq
    rw [hne q hqn] at hq ⊢
    rw [hlog]
    exact h.exited q hq
  · rw [hlog] at hn
    obtain ⟨h1, h2⟩ := h.gone n hn
    refine ⟨hlt n h1, fun q hq he => ?_⟩
    by_cases hqn : q = np
    · rw [hqn, hself, hx] at he
      omega
    · rw [hne q hqn] at hq he ⊢
      exact h2 q hq he
  · rw [hlog] at hn
    obtain ⟨h1, h2⟩ := h.reaped n pid m hn
    refine ⟨hlt n h1, fun q hq => ?_⟩
    by_cases hqn : q = np
    · rw [hqn, hself, hx]
      omega
    · rw [hne q hqn] at hq ⊢
      exact h2 q hq

theorem exit (h : Births s) (hp : (s.proc p).live) (hb : s'.births = s.births)
    (ht : ∀ q, (s'.proc q).birth = (s.proc q).birth ∧ (q ≠ p → Kept (s.proc q) (s'.proc q) ∧
      ((s'.proc q).state = .UNUSED ↔ (s.proc q).state = .UNUSED) ∧
      ((s'.proc q).state = .ZOMBIE ↔ (s.proc q).state = .ZOMBIE)))
    (hz : (s'.proc p).state = .ZOMBIE)
    (hsub : ∀ e, e ∈ s.log → e ∈ s'.log) (hexit : .exit (s.proc p).birth ∈ s'.log)
    (hlog : ∀ e, e ∈ s'.log → e ∈ s.log ∨ e = .exit (s.proc p).birth ∨ ∃ n m, e = .adopt n m) :
    Births s' := by
  have hne : ∀ q, (s'.proc q).state ≠ .UNUSED → (s.proc q).state ≠ .UNUSED := by
    intro q hq
    by_cases hqp : q = p
    · rw [hqp]
      exact hp.state.1
    · exact fun he => hq (((ht q).2 hqp).2.1.2 he)
  refine ⟨fun q hq => ?_, fun q r hq hr he => ?_, fun q hq => ?_, fun n hn => ?_,
    fun n pid m hn => ?_⟩
  · rw [(ht q).1, hb]
    exact h.lt q (hne q hq)
  · rw [(ht q).1, (ht r).1] at he
    exact h.inj q r (hne q hq) (hne r hr) he
  · rw [(ht q).1]
    by_cases hqp : q = p
    · rw [hqp]
      exact hexit
    · exact hsub _ (h.exited q (((ht q).2 hqp).2.2.1 hq))
  · rw [hb]
    rcases hlog _ hn with h1 | h1 | ⟨m, l, h1⟩
    · obtain ⟨h2, h3⟩ := h.gone n h1
      refine ⟨h2, fun q hq he => ?_⟩
      by_cases hqp : q = p
      · rw [hqp]
        exact hz
      · exact ((ht q).2 hqp).2.2.2 (h3 q (hne q hq) ((ht q).1 ▸ he))
    · cases h1
      refine ⟨h.lt p hp.state.1, fun q hq he => ?_⟩
      rw [(ht q).1] at he
      rw [h.inj q p (hne q hq) hp.state.1 he]
      exact hz
    · cases h1
  · rcases hlog _ hn with h1 | h1 | ⟨m, l, h1⟩
    · obtain ⟨h2, h3⟩ := h.reaped n pid m h1
      refine ⟨hb ▸ h2, fun q hq => ?_⟩
      rw [(ht q).1]
      exact h3 q (hne q hq)
    · cases h1
    · cases h1

theorem reap (h : Births s) {pid : BitVec 32} {m : Nat} (hb : s'.births = s.births)
    (hproc : s'.proc = update s.proc q x) (hq : (s.proc q).state = .ZOMBIE) (hx : x.state = .UNUSED)
    (hlog : s'.log = .reap (s.proc q).birth pid m :: s.log) : Births s' := by
  have hne : ∀ r, (s'.proc r).state ≠ .UNUSED → r ≠ q ∧ s'.proc r = s.proc r := by
    intro r hr
    have hrq : r ≠ q := by
      rintro rfl
      rw [hproc, update_self, hx] at hr
      exact hr rfl
    exact ⟨hrq, by rw [hproc, update_of_ne hrq]⟩
  have hq' : (s.proc q).state ≠ .UNUSED := by rw [hq]; decide
  refine ⟨fun r hr => ?_, fun r r' hr hr' he => ?_, fun r hr => ?_, fun n hn => ?_,
    fun n pid' m' hn => ?_⟩
  · obtain ⟨-, h1⟩ := hne r hr
    rw [h1] at hr ⊢
    rw [hb]
    exact h.lt r hr
  · obtain ⟨-, h1⟩ := hne r hr
    obtain ⟨-, h2⟩ := hne r' hr'
    rw [h1] at hr he
    rw [h2] at hr' he
    exact h.inj r r' hr hr' he
  · obtain ⟨-, h1⟩ := hne r (by rw [hr]; decide)
    rw [h1] at hr ⊢
    rw [hlog]
    exact List.mem_cons_of_mem _ (h.exited r hr)
  · rw [hlog, List.mem_cons] at hn
    obtain ⟨h1, h2⟩ := h.gone n (hn.resolve_left nofun)
    refine ⟨hb ▸ h1, fun r hr he => ?_⟩
    obtain ⟨-, h3⟩ := hne r hr
    rw [h3] at hr he ⊢
    exact h2 r hr he
  · rw [hlog, List.mem_cons] at hn
    rcases hn with hn | hn
    · cases hn
      refine ⟨hb ▸ h.lt q hq', fun r hr he => ?_⟩
      obtain ⟨h1, h3⟩ := hne r hr
      rw [h3] at hr he
      exact h1 (h.inj r q hr hq' he)
    · obtain ⟨h1, h2⟩ := h.reaped n pid' m' hn
      refine ⟨hb ▸ h1, fun r hr => ?_⟩
      obtain ⟨-, h3⟩ := hne r hr
      rw [h3] at hr ⊢
      exact h2 r hr

end Births

/-! ## Parents -/

/-- How far `userinit` has come. -/
def BootOk (s : St N κ χ σ L) : Option (Fin N × Bool) → Prop
  | none => s.initproc = none ∧ s.nextpid = 1 ∧
    ∀ q, (s.proc q).state = .UNUSED ∧ (s.proc q).parent = none
  | some (np, false) => s.initproc = none ∧ (s.proc np).pid = 1 ∧ (s.proc np).parent = none ∧
    ∀ q, q ≠ np → (s.proc q).state = .UNUSED
  | some (np, true) => s.initproc = some np ∧ ∀ q, q ≠ np → (s.proc q).state = .UNUSED

/-- The parent of `q`: a live process, the one that has made it, or init if that one has exited. -/
structure ParentOk (s : St N κ χ σ L) (q r : Fin N) : Prop where
  ne : r ≠ q
  eq : (s.proc q).parent = some r
  live : (s.proc r).live
  forker : (s.proc q).forker = (s.proc r).birth ∨
    .exit (s.proc q).forker ∈ s.log ∧ s.initproc = some r
  fork : .fork (s.proc q).birth (s.proc q).pid (s.proc q).forker ∈ s.log
  adopt : (s.proc q).forker = (s.proc r).birth ∨ .adopt (s.proc q).birth (s.proc r).birth ∈ s.log

theorem ParentOk.mono {r : Fin N} (h : ParentOk s q r)
    (hq : (s'.proc q).pid = (s.proc q).pid ∧ (s'.proc q).birth = (s.proc q).birth ∧
      (s'.proc q).forker = (s.proc q).forker ∧ (s'.proc q).parent = (s.proc q).parent)
    (hr : (s'.proc r).live ∧ (s'.proc r).birth = (s.proc r).birth)
    (hlog : ∀ e, e ∈ s.log → e ∈ s'.log) (hinit : s'.initproc = s.initproc) : ParentOk s' q r := by
  obtain ⟨h1, h2, h3, h4⟩ := hq
  refine ⟨h.ne, h4.trans h.eq, hr.1, ?_, ?_, ?_⟩
  · rw [h3, hr.2, hinit]
    exact h.forker.imp_right fun h5 => ⟨hlog _ h5.1, h5.2⟩
  · rw [h1, h2, h3]
    exact hlog _ h.fork
  · rw [h2, h3, hr.2]
    exact h.adopt.imp_right (hlog _)

structure Lineage (s : St N κ χ σ L) : Prop where
  boot : ∀ c x, (s.cpu c).pc.stage = some x → BootOk s x
  init : ∀ i, s.initproc = some i → (s.proc i).pid = 1 ∧ (s.proc i).parent = none ∧
    ((s.proc i).live ∨ (s.proc i).state = .EMBRYO ∧ ∀ q, ¬ (s.proc q).used)
  noinit : s.initproc = none → ∀ q, ¬ (s.proc q).used
  parent : ∀ q, (s.proc q).used → s.initproc ≠ some q → ∃ r, ParentOk s q r
  exits : ∀ c, (s.cpu c).pc = .exit → (s.cpu c).proc ≠ s.initproc

theorem Pc.booting_of_stage {x : Option (Fin N × Bool)} (h : k.stage = some x) :
    k.booting = true := by
  cases k <;> first | rfl | cases h

namespace Lineage

theorem not_booting (h : Lineage s) (hi : Inv s) (hp : (s.proc p).used) (c : κ) :
    (s.cpu c).pc.stage = none := by
  cases hx : (s.cpu c).pc.stage with
  | none => rfl
  | some x =>
    have hb := h.boot c x hx
    match x with
    | none => exact absurd (hb.2.2 p).1 hp.state.1
    | some (np, b) =>
      have hne : p ≠ np := by
        rintro rfl
        have hm : (s.cpu c).pc.makes = some p := by
          cases hk : (s.cpu c).pc <;> rw [hk] at hx <;> first | cases hx; rfl | cases hx
        exact hp.state.2 (hi.making c p hm).1
      cases b with
      | false => exact absurd (hb.2.2.2 p hne) hp.state.1
      | true => exact absurd (hb.2 p hne) hp.state.1

theorem init_live (h : Lineage s) (hp : (s.proc p).used) : ∃ i, s.initproc = some i ∧
    (s.proc i).live := by
  cases hi : s.initproc with
  | none => exact absurd hp (h.noinit hi p)
  | some i =>
    refine ⟨i, rfl, (h.init i hi).2.2.resolve_right ?_⟩
    exact fun h1 => h1.2 p hp

theorem frame (h : Lineage s) (hinit : s'.initproc = s.initproc)
    (hpid : ∀ i, s.initproc = some i → (s'.proc i).pid = (s.proc i).pid ∧
      (s'.proc i).parent = (s.proc i).parent ∧
      ((s.proc i).state = .EMBRYO → (s'.proc i).state = .EMBRYO))
    (hused : ∀ q, (s'.proc q).used → (s.proc q).used ∧ (s'.proc q).pid = (s.proc q).pid ∧
      (s'.proc q).birth = (s.proc q).birth ∧ (s'.proc q).forker = (s.proc q).forker ∧
      (s'.proc q).parent = (s.proc q).parent)
    (hlive : ∀ q, (s.proc q).live → (s'.proc q).live ∧ (s'.proc q).birth = (s.proc q).birth)
    (hlog : ∀ e, e ∈ s.log → e ∈ s'.log)
    (hboot : ∀ c x, (s'.cpu c).pc.stage = some x → BootOk s' x)
    (hexits : ∀ c, (s'.cpu c).pc = .exit → (s'.cpu c).proc ≠ s.initproc) : Lineage s' := by
  refine ⟨hboot, fun i hi => ?_, fun hn q hq => ?_, fun q hq hne => ?_, hinit ▸ hexits⟩
  · rw [hinit] at hi
    obtain ⟨h1, h2, h3⟩ := h.init i hi
    obtain ⟨h4, h5, h6⟩ := hpid i hi
    refine ⟨h4.trans h1, h5.trans h2, h3.imp (fun h7 => (hlive i h7).1) fun ⟨h7, h8⟩ => ?_⟩
    exact ⟨h6 h7, fun q hq => h8 q (hused q hq).1⟩
  · exact h.noinit (hinit ▸ hn) q (hused q hq).1
  · obtain ⟨h1, h2⟩ := hused q hq
    obtain ⟨r, hr⟩ := h.parent q h1 (hinit ▸ hne)
    exact ⟨r, hr.mono h2 (hlive r hr.live) hlog hinit⟩

variable {y : Cpu N χ L}

theorem no_stage [DecidableEq κ] (h : Lineage s) (hi : Inv s) (hp : (s.proc p).used)
    (hcpu : s'.cpu = update s.cpu c y) (hstage : y.pc.stage = none) {d : κ} :
    (s'.cpu d).pc.stage = none := by
  rw [hcpu]
  by_cases hdc : d = c
  · rw [hdc, update_self, hstage]
  · rw [update_of_ne hdc, h.not_booting hi hp d]

theorem exits_of [DecidableEq κ] (h : Lineage s) (hcpu : s'.cpu = update s.cpu c y)
    (hexit : y.pc ≠ .exit) (d : κ) (hd : (s'.cpu d).pc = .exit) :
    (s'.cpu d).proc ≠ s.initproc := by
  rw [hcpu] at hd ⊢
  by_cases hdc : d = c
  · rw [hdc, update_self] at hd
    exact absurd hd hexit
  · rw [update_of_ne hdc] at hd ⊢
    exact h.exits d hd

theorem slot [DecidableEq κ] (h : Lineage s) (hi : Inv s)
    (hinit : s'.initproc = s.initproc) (hproc : s'.proc = update s.proc np x)
    (hcpu : s'.cpu = update s.cpu c y) (hp : (s.proc p).used)
    (hold : ¬ (s.proc np).live) (hx : ¬ x.used) (hlog : ∀ e, e ∈ s.log → e ∈ s'.log)
    (hstage : y.pc.stage = none) (hexit : y.pc ≠ .exit) : Lineage s' := by
  have hne : ∀ q, q ≠ np → s'.proc q = s.proc q := fun q hq => by
    rw [hproc, update_of_ne hq]
  have hself : s'.proc np = x := by rw [hproc, update_self]
  have hoff : ∀ q, (s'.proc q).used → q ≠ np := by
    rintro q hq rfl
    rw [hself] at hq
    exact hx hq
  have hon : ∀ q, (s.proc q).live → q ≠ np := by
    rintro q hq rfl
    exact hold hq
  obtain ⟨i, hi', hil⟩ := h.init_live hp
  refine h.frame hinit (fun i' hi'' => ?_) (fun q hq => ?_) (fun q hq => ?_) hlog (fun d z hd => ?_)
    fun d hd => ?_
  · obtain rfl : i = i' := Option.some.inj (hi'.symm.trans hi'')
    rw [hne i (hon i hil)]
    exact ⟨rfl, rfl, id⟩
  · have hqn := hoff q hq
    rw [hne q hqn] at hq ⊢
    exact ⟨hq, rfl, rfl, rfl, rfl⟩
  · rw [hne q (hon q hq)]
    exact ⟨hq, rfl⟩
  · rw [h.no_stage hi hp hcpu hstage] at hd
    cases hd
  · exact h.exits_of hcpu hexit d hd

theorem quiet (h : Lineage s) (hq : Quiet s s') (hlog : ∀ e, e ∈ s.log → e ∈ s'.log) :
    Lineage s' := by
  refine h.frame hq.initproc (fun i _ => ?_) (fun q hu => ?_) (fun q hl => ?_) hlog
    (fun d x hd => ?_)
    fun d hd => ?_
  · have hk := hq.kin i
    exact ⟨hk.kept.pid, hk.parent, (hk.state_iff (.inr (.inl rfl))).2⟩
  · have hk := hq.kin q
    exact ⟨hk.used_iff.1 hu, hk.kept.pid, hk.kept.birth, hk.kept.forker, hk.parent⟩
  · have hk := hq.kin q
    exact ⟨hk.live_iff.2 hl, hk.kept.birth⟩
  · have hun : ∀ q, (s.proc q).state = .UNUSED → (s'.proc q).state = .UNUSED := fun q =>
      ((hq.kin q).state_iff (.inl rfl)).2
    rcases hq.stage d with h1 | h1 <;> rw [h1] at hd
    · cases hd
    · have hb := h.boot d x hd
      match x with
      | none =>
        obtain ⟨h2, h3, h4⟩ := hb
        exact ⟨hq.initproc.trans h2, hq.nextpid.trans h3,
          fun q => ⟨hun q (h4 q).1, (hq.kin q).parent.trans (h4 q).2⟩⟩
      | some (np, false) =>
        obtain ⟨h2, h3, h4, h5⟩ := hb
        exact ⟨hq.initproc.trans h2, (hq.kin np).kept.pid.trans h3, (hq.kin np).parent.trans h4,
          fun q hne => hun q (h5 q hne)⟩
      | some (np, true) =>
        obtain ⟨h2, h3⟩ := hb
        exact ⟨hq.initproc.trans h2, fun q hne => hun q (h3 q hne)⟩
  · obtain ⟨h1, h2⟩ := hq.exits d hd
    rw [h1]
    exact h2.elim (h.exits d) id

/-! ### `userinit` -/

theorem not_used_of_embryo {t : Table N χ L} (hnp : (t np).state = .EMBRYO)
    (h : ∀ q, q ≠ np → (t q).state = .UNUSED) (q : Fin N) : ¬ (t q).used := by
  intro hq
  by_cases hqn : q = np
  · rw [hqn] at hq
    exact hq.state.2 hnp
  · exact hq.state.1 (h q hqn)

section Boot

variable [DecidableEq κ]

theorem boot_only (hi : Inv s) (hc : (s.cpu c).pc.booting = true) (hcpu : s'.cpu = update s.cpu c y)
    (hno : ∀ q, ¬ (s.proc q).used) (hy : y.pc ≠ .exit) :
    (∀ d x, (s'.cpu d).pc.stage = some x → d = c ∧ y.pc.stage = some x) ∧
      ∀ d, (s'.cpu d).pc ≠ .exit := by
  refine ⟨fun d x hd => ?_, fun d hd => ?_⟩ <;> rw [hcpu] at hd
  · by_cases hdc : d = c
    · rw [hdc, update_self] at hd
      exact ⟨hdc, hd⟩
    · rw [update_of_ne hdc] at hd
      exact absurd (hi.boot d c (Pc.booting_of_stage hd) hc) hdc
  · by_cases hdc : d = c
    · rw [hdc, update_self] at hd
      exact hy hd
    · rw [update_of_ne hdc] at hd
      obtain ⟨q, -, hq⟩ := hi.inProc d (by rw [hd]; rfl)
      exact hno q (.inl (.inr (.inr hq)))

theorem bootAlloc (h : Lineage s) (hi : Inv s) (hpc : (s.cpu c).pc = .bootAlloc)
    (hinit : s'.initproc = s.initproc) (hproc : s'.proc = update s.proc np x)
    (hcpu : s'.cpu = update s.cpu c ⟨(s.cpu c).proc, .bootStack np⟩) (hpid : x.pid = s.nextpid)
    (hpar : x.parent = (s.proc np).parent) (hst : x.state = .EMBRYO) : Lineage s' := by
  obtain ⟨h1, h2, h3⟩ := h.boot c none (by rw [hpc]; rfl)
  have hno : ∀ q, ¬ (s.proc q).used := fun q hq => hq.state.1 (h3 q).1
  have hself : s'.proc np = x := by rw [hproc, update_self]
  have hne : ∀ q, q ≠ np → s'.proc q = s.proc q := fun q hq => by
    rw [hproc, update_of_ne hq]
  have hno' := not_used_of_embryo (hself ▸ hst) fun q hq => hne q hq ▸ (h3 q).1
  obtain ⟨h4, h5⟩ := boot_only hi (by rw [hpc]; rfl) hcpu hno nofun
  have hn : s'.initproc = none := hinit.trans h1
  refine ⟨fun d y hd => ?_, fun i hi => ?_, fun _ => hno', fun q hq => absurd hq (hno' q),
    fun d hd => absurd hd (h5 d)⟩
  · cases (h4 d y hd).2
    refine ⟨hn, ?_, ?_, fun q hq => ?_⟩
    · rw [hself, hpid, h2]
    · rw [hself, hpar]
      exact (h3 np).2
    · rw [hne q hq]
      exact (h3 q).1
  · rw [hn] at hi
    cases hi

theorem bootStack (h : Lineage s) (hi : Inv s) (hpc : (s.cpu c).pc = .bootStack np)
    (hinit : s'.initproc = some np) (hproc : s'.proc = update s.proc np x)
    (hcpu : s'.cpu = update s.cpu c ⟨(s.cpu c).proc, .bootReady np⟩)
    (hpid : x.pid = (s.proc np).pid)
    (hpar : x.parent = (s.proc np).parent) (hst : x.state = (s.proc np).state) : Lineage s' := by
  obtain ⟨h1, h2, h3, h4⟩ := h.boot c (some (np, false)) (by rw [hpc]; rfl)
  have hemb : x.state = .EMBRYO := hst.trans (hi.making c np (by rw [hpc]; rfl)).1
  have hself : s'.proc np = x := by rw [hproc, update_self]
  have hne : ∀ q, q ≠ np → s'.proc q = s.proc q := fun q hq => by
    rw [hproc, update_of_ne hq]
  have hno' := not_used_of_embryo (hself ▸ hemb) fun q hq => hne q hq ▸ h4 q hq
  obtain ⟨h5, h6⟩ := boot_only hi (by rw [hpc]; rfl) hcpu (h.noinit h1) nofun
  refine ⟨fun d y hd => ?_, fun i hi => ?_, fun _ => hno', fun q hq => absurd hq (hno' q),
    fun d hd => absurd hd (h6 d)⟩
  · cases (h5 d y hd).2
    refine ⟨hinit, fun q hq => ?_⟩
    rw [hne q hq]
    exact h4 q hq
  · obtain rfl : np = i := Option.some.inj (hinit.symm.trans hi)
    rw [hself, hpid, hpar]
    exact ⟨h2, h3, .inr ⟨hemb, hno'⟩⟩

theorem bootRun (h : Lineage s) (hi : Inv s) (hpc : (s.cpu c).pc = .bootRun np)
    (hinit : s'.initproc = s.initproc) (hproc : s'.proc = update s.proc np x)
    (hcpu : s'.cpu = update s.cpu c ⟨(s.cpu c).proc, .free⟩) (hpid : x.pid = (s.proc np).pid)
    (hpar : x.parent = (s.proc np).parent) (hst : x.state = .RUNNABLE) : Lineage s' := by
  obtain ⟨h1, h2⟩ := h.boot c (some (np, true)) (by rw [hpc]; rfl)
  obtain ⟨h3, h4, -⟩ := h.init np h1
  have hemb := (hi.making c np (by rw [hpc]; rfl)).1
  have hself : s'.proc np = x := by rw [hproc, update_self]
  have hno := not_used_of_embryo hemb h2
  obtain ⟨h5, h6⟩ := boot_only hi (by rw [hpc]; rfl) hcpu hno nofun
  have hn : s'.initproc = some np := hinit.trans h1
  refine ⟨fun d y hd => ?_, fun i hi => ?_, fun h7 => ?_, fun q hq hqn => ?_,
    fun d hd => absurd hd (h6 d)⟩
  · cases (h5 d y hd).2
  · obtain rfl : np = i := Option.some.inj (hn.symm.trans hi)
    rw [hself, hpid, hpar]
    exact ⟨h3, h4, .inl (.inr (.inl hst))⟩
  · rw [hn] at h7
    cases h7
  · have hqn' : q ≠ np := fun he => hqn (he ▸ hn)
    rw [hproc, update_of_ne hqn'] at hq
    exact absurd hq (hno q)

end Boot

/-! ### `fork` and `exit` -/

theorem publish [DecidableEq κ] (h : Lineage s) (hi : Inv s) (hinit : s'.initproc = s.initproc)
    (hproc : s'.proc = update s.proc np x) (hcpu : s'.cpu = update s.cpu c y) (hp : (s.proc p).live)
    (hold : (s.proc np).state = .EMBRYO) (hpar : x.parent = some p)
    (hfork : x.forker = (s.proc p).birth) (hlog : s'.log = .fork x.birth x.pid x.forker :: s.log)
    (hstage : y.pc.stage = none) (hexit : y.pc ≠ .exit) : Lineage s' := by
  have hne : ∀ q, q ≠ np → s'.proc q = s.proc q := fun q hq => by
    rw [hproc, update_of_ne hq]
  have hself : s'.proc np = x := by rw [hproc, update_self]
  have hon : ∀ q, (s.proc q).live → s'.proc q = s.proc q := fun q hq => by
    refine hne q ?_
    rintro rfl
    exact hq.state.2.1 hold
  have hsub : ∀ e, e ∈ s.log → e ∈ s'.log := fun e he => hlog ▸ List.mem_cons_of_mem _ he
  obtain ⟨i, hi', hil⟩ := h.init_live (.inl hp)
  refine ⟨fun d z hd => ?_, fun i' hi'' => ?_, fun hn => ?_, fun q hq hqi => ?_, fun d hd => ?_⟩
  · rw [h.no_stage hi (.inl hp) hcpu hstage] at hd
    cases hd
  · rw [hinit] at hi''
    obtain rfl : i = i' := Option.some.inj (hi'.symm.trans hi'')
    obtain ⟨h1, h2, -⟩ := h.init i hi'
    rw [hon i hil]
    exact ⟨h1, h2, .inl hil⟩
  · rw [hinit, hi'] at hn
    cases hn
  · by_cases hqn : q = np
    · have hfork' : (s'.proc q).forker = (s'.proc p).birth := by
        rw [hqn, hself, hon p hp]
        exact hfork
      refine ⟨p, ?_, ?_, ?_, .inl hfork', ?_, .inl hfork'⟩
      · rw [hqn]
        rintro rfl
        exact hp.state.2.1 hold
      · rw [hqn, hself]
        exact hpar
      · rw [hon p hp]
        exact hp
      · rw [hqn, hself, hlog]
        exact List.mem_cons_self ..
    · rw [hne q hqn] at hq
      obtain ⟨r, hr⟩ := h.parent q hq (hinit ▸ hqi)
      refine ⟨r, hr.mono ?_ ?_ hsub hinit⟩
      · rw [hne q hqn]
        exact ⟨rfl, rfl, rfl, rfl⟩
      · rw [hon r hr.live]
        exact ⟨hr.live, rfl⟩
  · rw [hinit]
    exact h.exits_of hcpu hexit d hd

theorem exit [DecidableEq κ] (h : Lineage s) (hi : Inv s) {i : Fin N}
    (hinit : s'.initproc = s.initproc) (hi' : s.initproc = some i)
    (hcpu : s'.cpu = update s.cpu c y) (hp : (s.proc p).live) (hpi : p ≠ i)
    (hkept : ∀ q, Kept (s.proc q) (s'.proc q))
    (hstate : ∀ q, q ≠ p → Woken (s.proc q) (s'.proc q)) (hz : (s'.proc p).state = .ZOMBIE)
    (hpar : ∀ q, (s'.proc q).parent = if (s.proc q).parent = some p then some i
      else (s.proc q).parent)
    (hsub : ∀ e, e ∈ s.log → e ∈ s'.log) (hexit' : .exit (s.proc p).birth ∈ s'.log)
    (hadopt : ∀ q, (s.proc q).parent = some p → .adopt (s.proc q).birth (s.proc i).birth ∈ s'.log)
    (hstage : y.pc.stage = none) (hexit : y.pc ≠ .exit) : Lineage s' := by
  have hil : (s.proc i).live := by
    obtain ⟨j, hj, hjl⟩ := h.init_live (.inl hp)
    rwa [Option.some.inj (hi'.symm.trans hj)]
  have hlive : ∀ q, q ≠ p → (s.proc q).live → (s'.proc q).live := fun q hq hl =>
    (hstate q hq).live_iff.2 hl
  have hil' : (s'.proc i).live := hlive i (Ne.symm hpi) hil
  refine ⟨fun d z hd => ?_, fun i' hi'' => ?_, fun hn => ?_, fun q hq hqi => ?_, fun d hd => ?_⟩
  · rw [h.no_stage hi (.inl hp) hcpu hstage] at hd
    cases hd
  · rw [hinit] at hi''
    obtain rfl : i = i' := Option.some.inj (hi'.symm.trans hi'')
    obtain ⟨h1, h2, -⟩ := h.init i hi'
    refine ⟨(hkept i).pid.trans h1, ?_, .inl hil'⟩
    rw [hpar, h2, if_neg nofun]
  · rw [hinit, hi'] at hn
    cases hn
  · have hq' : (s.proc q).used := by
      by_cases hqp : q = p
      · rw [hqp]
        exact .inl hp
      · exact ((hstate q hqp).used_iff).1 hq
    obtain ⟨r, hr⟩ := h.parent q hq' (hinit ▸ hqi)
    by_cases hrp : r = p
    · -- an abandoned child
      subst hrp
      have hfork : (s.proc q).forker = (s.proc r).birth := by
        rcases hr.forker with h1 | ⟨-, h1⟩
        · exact h1
        · exact absurd (Option.some.inj (h1.symm.trans hi')) hpi
      refine ⟨i, ?_, ?_, hil', .inr ⟨?_, hinit.trans hi'⟩, ?_, .inr ?_⟩
      · rintro rfl
        exact hqi (hinit.trans hi')
      · rw [hpar, if_pos hr.eq]
      · rw [(hkept q).forker, hfork]
        exact hexit'
      · rw [(hkept q).birth, (hkept q).pid, (hkept q).forker]
        exact hsub _ hr.fork
      · rw [(hkept q).birth, (hkept i).birth]
        exact hadopt q hr.eq
    · refine ⟨r, hr.mono ⟨(hkept q).pid, (hkept q).birth, (hkept q).forker, ?_⟩
        ⟨hlive r hrp hr.live, (hkept r).birth⟩ hsub hinit⟩
      rw [hpar, if_neg]
      rw [hr.eq]
      exact fun he => hrp (Option.some.inj he)
  · rw [hinit]
    exact h.exits_of hcpu hexit d hd

end Lineage

/-- The invariant of `fork`, `exit` and `wait`. -/
structure Family (s : St N κ χ σ L) : Prop where
  births : Births s
  lineage : Lineage s
  log : LogOk s.log

section Steps

variable [DecidableEq κ] [DecidableEq χ]

theorem Family.step (h : Family s) (hi : Inv s) (hs : Step K c s s') : Family s' := by
  obtain ⟨hb, hl, hok⟩ := h
  have hrun : ∀ {p}, (s.cpu c).proc = some p → (s.cpu c).pc.inProc = true → (s.proc p).live :=
    fun hp hk => .inr (.inr (hi.state_inProc hp hk))
  have hmk : ∀ {np}, (s.cpu c).pc.makes = some np → (s.proc np).state = .EMBRYO := fun hm =>
    (hi.making c _ hm).1
  have hcur : (s.cpu c).pc.inProc = true → ∃ p, (s.proc p).used := fun hk => by
    obtain ⟨p, -, hp⟩ := hi.inProc c hk
    exact ⟨p, .inl (.inr (.inr hp))⟩
  cases hi.effect hs with
  | quiet hq hlog => exact ⟨hb.quiet hq (.inl hlog), hl.quiet hq fun e he => hlog ▸ he, hlog ▸ hok⟩
  | waitFail hq p hp hpc hk hlog =>
    refine ⟨hb.quiet hq (.inr ⟨_, hlog, nofun, nofun⟩), hl.quiet hq fun e he => ?_, ?_⟩
    · exact hlog ▸ List.mem_cons_of_mem _ he
    · rw [hlog]
      exact ⟨trivial, hok⟩
  | bootAlloc np hpc hnp he =>
    subst he
    exact ⟨hb.alloc rfl rfl rfl rfl rfl, hl.bootAlloc hi hpc rfl rfl rfl rfl rfl rfl, hok⟩
  | bootStack np hpc he =>
    subst he
    have hst : (s.proc np).state = .EMBRYO := hmk (by rw [hpc]; rfl)
    exact ⟨hb.slot rfl rfl hst rfl (fun hz => nomatch hst.symm.trans hz) (.inl rfl),
      hl.bootStack hi hpc rfl rfl rfl rfl rfl rfl, hok⟩
  | bootRun np hpc he =>
    subst he
    exact ⟨hb.slot rfl rfl (hmk (by rw [hpc]; rfl)) rfl nofun (.inl rfl),
      hl.bootRun hi hpc rfl rfl rfl rfl rfl rfl, hok⟩
  | alloc p np hp hpc hnp he =>
    subst he
    refine ⟨hb.alloc rfl rfl rfl rfl rfl, ?_, hok⟩
    refine hl.slot hi rfl rfl rfl (.inl (hrun hp (by rw [hpc]; rfl))) ?_ ?_ (fun _ => id) rfl nofun
    · exact fun h1 => h1.state.1 (findUnused_state hnp)
    · exact fun h1 => h1.state.2 rfl
  | stack np hpc he =>
    subst he
    have hst : (s.proc np).state = .EMBRYO := hmk (by rw [hpc]; rfl)
    obtain ⟨p, hp⟩ := hcur (by rw [hpc]; rfl)
    exact ⟨hb.slot rfl rfl hst rfl (fun hz => nomatch hst.symm.trans hz) (.inl rfl),
      hl.slot hi rfl rfl rfl hp (fun h1 => h1.state.2.1 hst) (fun h1 => h1.state.2 hst)
        (fun _ => id)
        rfl nofun, hok⟩
  | unalloc np hpc he =>
    subst he
    have hst : (s.proc np).state = .EMBRYO :=
      hmk (by rcases hpc with hpc | hpc <;> rw [hpc] <;> rfl)
    obtain ⟨p, hp⟩ := hcur (by rcases hpc with hpc | hpc <;> rw [hpc] <;> rfl)
    exact ⟨hb.slot rfl rfl hst rfl nofun (.inl rfl),
      hl.slot hi rfl rfl rfl hp (fun h1 => h1.state.2.1 hst) (fun h1 => h1.state.1 rfl)
        (fun _ => id)
        rfl nofun, hok⟩
  | fill p np hp hpc he =>
    subst he
    have hst : (s.proc np).state = .EMBRYO := hmk (by rw [hpc]; rfl)
    exact ⟨hb.slot rfl rfl hst rfl (fun hz => nomatch hst.symm.trans hz) (.inl rfl),
      hl.slot hi rfl rfl rfl (.inl (hrun hp (by rw [hpc]; rfl))) (fun h1 => h1.state.2.1 hst)
        (fun h1 => h1.state.2 hst) (fun _ => id) rfl nofun, hok⟩
  | publish np hpc he =>
    subst he
    obtain ⟨hst, -, -, hf⟩ := hi.making c np (by rw [hpc]; rfl)
    obtain ⟨p, hp, hpar, hfork⟩ := hf (by rw [hpc]; rfl)
    exact ⟨hb.slot rfl rfl hst rfl nofun (.inr ⟨_, rfl, nofun, nofun⟩),
      hl.publish hi rfl rfl rfl (hrun hp (by rw [hpc]; rfl)) hst hpar hfork rfl rfl nofun,
      trivial, hok⟩
  | exit p init hp hpc hinit he =>
    have hlive := hrun hp (by rw [hpc]; rfl)
    obtain ⟨h1, h2, h3, h4⟩ := exitTable_spec p init s.proc
    have hself : s'.proc p = { exitTable p init s.proc p with context := .dead } := by
      rw [he]
      exact update_self ..
    have hne : ∀ q, q ≠ p → s'.proc q = exitTable p init s.proc q := fun q hq => by
      rw [he]
      exact update_of_ne hq ..
    have hz : (s'.proc p).state = .ZOMBIE := by
      rw [hself]
      exact h4
    have hwoken : ∀ q, q ≠ p → Woken (s.proc q) (s'.proc q) := fun q hq => by
      rw [hne q hq]
      exact h1 q hq
    have hkept : ∀ q, Kept (s.proc q) (s'.proc q) := by
      intro q
      by_cases hq : q = p
      · rw [hq, hself]
        exact ⟨h3.pid, h3.kstack, h3.birth, h3.forker, h3.maker⟩
      · exact (hwoken q hq).kept
    have hpar : ∀ q, (s'.proc q).parent = if (s.proc q).parent = some p then some init
        else (s.proc q).parent := by
      intro q
      rw [← h2 q]
      by_cases hq : q = p
      · rw [hq, hself]
      · rw [hne q hq]
    have hlog : ∀ e, e ∈ s'.log ↔ (∃ q, (s.proc q).parent = some p ∧
        .adopt (s.proc q).birth (s.proc init).birth = e) ∨ e = .exit (s.proc p).birth ∨
          e ∈ s.log := by
      intro e
      rw [he]
      change e ∈ List.map _ _ ++ _ :: s.log ↔ _
      simp
    have hsub : ∀ e, e ∈ s.log → e ∈ s'.log := fun e h5 => (hlog e).2 (.inr (.inr h5))
    have hexit : .exit (s.proc p).birth ∈ s'.log := (hlog _).2 (.inr (.inl rfl))
    refine ⟨hb.exit hlive ?_ (fun q => ⟨(hkept q).birth, fun hq => ⟨hkept q, ?_, ?_⟩⟩) hz hsub hexit
        fun e h5 => ?_,
      hl.exit hi (c := c) ?_ hinit (y := ⟨(s.cpu c).proc, .back p⟩) ?_ hlive ?_ hkept hwoken hz hpar
        hsub hexit (fun q hq => (hlog _).2 (.inl ⟨q, hq, rfl⟩)) rfl nofun, ?_⟩
    · rw [he]
      rfl
    · exact (hwoken q hq).state_iff (by decide) (by decide)
    · exact (hwoken q hq).state_iff (by decide) (by decide)
    · rcases (hlog e).1 h5 with ⟨q, hq, rfl⟩ | h5 | h5
      · exact .inr (.inr ⟨_, _, rfl⟩)
      · exact .inr (.inl h5)
      · exact .inl h5
    · rw [he]
      rfl
    · rw [he]
      rfl
    · rintro rfl
      exact hl.exits c hpc (hp.trans hinit.symm)
    · rw [he]
      exact LogOk.adopts (l := .exit (s.proc p).birth :: s.log) ⟨trivial, hok⟩ _ _ _
  | reap p q hp hpc hz he =>
    subst he
    have hlive := hrun hp (by rw [hpc]; rfl)
    obtain ⟨hpar, hst⟩ := findZombie_spec hz
    have hq : (s.proc q).used := .inr hst
    have hqi : s.initproc ≠ some q := fun h1 => by
      rcases (hl.init q h1).2.2 with h2 | ⟨-, h2⟩
      · exact h2.state.2.2 hst
      · exact h2 q hq
    obtain ⟨r, hr⟩ := hl.parent q hq hqi
    obtain rfl : p = r := Option.some.inj (hpar.symm.trans hr.eq)
    refine ⟨hb.reap rfl rfl hst rfl rfl, hl.slot hi rfl rfl rfl (.inl hlive)
      (fun h1 => h1.state.2.2 hst) (fun h1 => h1.state.1 rfl)
        (fun e he => List.mem_cons_of_mem _ he)
      rfl nofun, ⟨hb.exited q hst, ⟨_, hr.fork, hr.adopt⟩, fun pid m h1 => ?_⟩, hok⟩
    exact (hb.reaped _ _ _ h1).2 q hq.state.1 rfl

omit [DecidableEq χ] in
theorem family_start (c : κ) (g : σ) : Family (start c g : St N κ χ σ L) := by
  refine ⟨⟨fun q hq => absurd rfl hq, fun q r hq => absurd rfl hq, nofun, nofun, nofun⟩,
    ⟨fun d x hd => ?_, nofun, fun _ q hq => hq.state.1 rfl, fun q hq => absurd rfl hq.state.1,
      fun d hd => ?_⟩, trivial⟩
  · have : x = none := by
      by_cases hdc : d = c
      · simpa [start, hdc, Pc.stage] using hd.symm
      · simp [start, hdc, Pc.stage] at hd
    subst this
    exact ⟨rfl, rfl, fun q => ⟨rfl, rfl⟩⟩
  · by_cases hdc : d = c <;> simp [start, hdc] at hd

theorem Reachable.family {g : σ} (h : Reachable K g s) : Family s := by
  induction h with
  | start c => exact family_start c g
  | step hr hs ih => exact ih.step hr.inv hs

/-! ## Parent pointers -/

/-- Processor `c` follows `p->parent` in `suid` or `sgid`, before or after the lock is released. -/
def FollowsParent (s : St N κ χ σ L) (c : κ) (p : Fin N) : Prop :=
  (s.cpu c).proc = some p ∧ ((∃ group id, (s.cpu c).pc = .setId group id ∧ id.toNat ≤ 32767) ∨
    (s.cpu c).pc = .code .idRet)

/-- In every state, the parent of a process other than init is another live process: the one that
has made it, or init, whose pid is 1, once that one has exited. So `cps`, which looks at the parent
of processes with a pid above 1 only, and `getppid`, which looks whether there is one, follow
pointers to live processes; `suid` and `sgid` do exactly if their caller is not init. -/
theorem parents_sound {g : σ} (h : Reachable K g s) :
    (∀ q, (s.proc q).used → s.initproc ≠ some q → ∃ r, r ≠ q ∧ (s.proc q).parent = some r ∧
      (s.proc r).live ∧ ((s.proc q).forker = (s.proc r).birth ∨
        .exit (s.proc q).forker ∈ s.log ∧ s.initproc = some r ∧ (s.proc r).pid = 1)) ∧
    (∀ q r, (s.proc q).state ≠ .UNUSED → (s.proc r).state ≠ .UNUSED →
      (s.proc q).birth = (s.proc r).birth → q = r) ∧
    (∀ q, (s.proc q).live → 1 < (s.proc q).pid.toInt →
      ∃ r, (s.proc q).parent = some r ∧ (s.proc r).live) ∧
    (∀ q, (s.proc q).live → ∀ r, (s.proc q).parent = some r → (s.proc r).live) ∧
    ∀ c p, FollowsParent s c p →
      ((∃ r, (s.proc p).parent = some r ∧ (s.proc r).live) ↔ s.initproc ≠ some p) := by
  have hl := h.family.lineage
  have hpar : ∀ q, (s.proc q).used → s.initproc ≠ some q →
      ∃ r, (s.proc q).parent = some r ∧ (s.proc r).live := by
    intro q hq hqi
    obtain ⟨r, hr⟩ := hl.parent q hq hqi
    exact ⟨r, hr.eq, hr.live⟩
  refine ⟨fun q hq hqi => ?_, h.family.births.inj, fun q hq hpid => hpar q (.inl hq) fun hqi => ?_,
    fun q hq r hr => ?_, fun c p hc => ⟨fun ⟨r, hr, _⟩ hpi => ?_, fun hpi => hpar p ?_ hpi⟩⟩
  · obtain ⟨r, hr⟩ := hl.parent q hq hqi
    exact ⟨r, hr.ne, hr.eq, hr.live, hr.forker.imp_right fun h1 => ⟨h1.1, h1.2, (hl.init r h1.2).1⟩⟩
  · rw [(hl.init q hqi).1] at hpid
    revert hpid
    decide
  · have hqi : s.initproc ≠ some q := fun hqi => by
      rw [(hl.init q hqi).2.1] at hr
      cases hr
    obtain ⟨r', hr', hlive⟩ := hpar q (.inl hq) hqi
    rwa [Option.some.inj (hr.symm.trans hr')]
  · rw [(hl.init p hpi).2.1] at hr
    cases hr
  · refine .inl (.inr (.inr (h.inv.state_inProc hc.1 ?_)))
    rcases hc.2 with ⟨group, id, hpc, -⟩ | hpc <;> rw [hpc] <;> rfl

end Steps

/-- Init calls `suid`, and has no parent. -/
theorem suid_of_init : ∃ s : St 1 (Fin 2) Unit Unit Unit,
    Reachable .none () s ∧ FollowsParent s 0 0 ∧ (s.proc 0).live ∧ (s.proc 0).parent = none := by
  obtain ⟨s, h, hp, hpc, hl, hpar⟩ := exists_reachable (K := .none) (g := ()) (c := (0 : Fin 2))
    (boots 0 ++ [(0, .suid 0)])
    (P := fun s : St 1 (Fin 2) Unit Unit Unit => (s.cpu 0).proc = some 0 ∧
      (s.cpu 0).pc = .setId false 0 ∧ (s.proc 0).live ∧ (s.proc 0).parent = none)
        (by decide +kernel)
  exact ⟨s, h, ⟨hp, .inl ⟨false, 0, hpc, by decide⟩⟩, hl, hpar⟩

/-- The child has a parent. -/
theorem parents_sound_child : ∃ s : St 2 Unit Unit Unit Unit, Reachable .none () s ∧
    (s.proc 1).live ∧ ∃ r, r ≠ 1 ∧ (s.proc 1).parent = some r ∧ (s.proc r).live := by
  obtain ⟨s, h, hl, hi⟩ := exists_reachable (K := .none) (g := ()) (c := ()) (boots () ++ forks ())
    (P := fun s : St 2 Unit Unit Unit Unit => (s.proc 1).live ∧ s.initproc = some 0)
    (by decide +kernel)
  obtain ⟨r, h1, h2, h3, -⟩ := (parents_sound h).1 1 (.inl hl) (by rw [hi]; decide)
  exact ⟨s, h, hl, r, h1, h2, h3⟩

end Xv6.Ptable
