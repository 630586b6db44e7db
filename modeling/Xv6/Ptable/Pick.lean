import Mathlib.Data.Fin.VecNotation
import Mathlib.Data.Finset.Max
import Mathlib.Data.Fintype.Basic
import Mathlib.Tactic.FinCases
import Xv6.Lib.Cycle
import Xv6.Ptable.Effect

/-!
# Which process the scheduler picks

The two loops of `scheduler` share one cursor: the inner loop looks for the best process from slot 0
on, and the outer one goes on behind the process that it has found. So a processor always
dispatches a process of the best priority, whatever the others do to the table meanwhile. But the
outer loop may stop at a worse process, for which the inner one then finds the first of the best
processes again.
-/

namespace Xv6.Ptable

open Function (update update_of_ne update_self)

variable {N : Nat} {κ χ σ L : Type} {K : Client N χ σ L} {s s' : St N κ χ σ L} {c d : κ}
  {p q r : Fin N} {t : Table N χ L}

/-! ## The inner loop -/

/-- A runnable process of which the priority value is the smallest. -/
def Best (t : Table N χ L) (p : Fin N) : Prop :=
  (t p).state = .RUNNABLE ∧ ∀ q, (t q).state = .RUNNABLE → (t p).priority ≤ (t q).priority

def better (t : Table N χ L) (highP p1 : Fin N) : Fin N :=
  if (t p1).state = .RUNNABLE ∧ (t p1).priority < (t highP).priority then p1 else highP

theorem better_le (t : Table N χ L) (p q : Fin N) :
    (t (better t p q)).priority ≤ (t p).priority ∧
      ((t q).state = .RUNNABLE → (t (better t p q)).priority ≤ (t q).priority) := by
  unfold better
  split
  · next h => exact ⟨h.2.le, fun _ => le_rfl⟩
  · next h => exact ⟨le_rfl, fun hq => not_lt.1 fun hlt => h ⟨hq, hlt⟩⟩

theorem foldl_better_le (l : List (Fin N)) (p : Fin N) :
    (t (l.foldl (better t) p)).priority ≤ (t p).priority ∧
      ∀ q ∈ l, (t q).state = .RUNNABLE → (t (l.foldl (better t) p)).priority ≤ (t q).priority := by
  induction l generalizing p with
  | nil => exact ⟨le_rfl, nofun⟩
  | cons r l ih =>
    obtain ⟨h1, h2⟩ := ih (better t p r)
    obtain ⟨h3, h4⟩ := better_le t p r
    refine ⟨h1.trans h3, fun q hq hst => ?_⟩
    rcases List.mem_cons.1 hq with rfl | hq
    · exact h1.trans (h4 hst)
    · exact h2 q hq hst

theorem best_highest (hp : (t p).state = .RUNNABLE) : Best t (highest t p) :=
  ⟨highest_runnable hp, fun q hq =>
    (foldl_better_le (List.finRange N) p).2 q (List.mem_finRange q) hq⟩

theorem foldl_better_eq {l : List (Fin N)}
    (h : ∀ q ∈ l, (t q).state = .RUNNABLE → (t p).priority ≤ (t q).priority) :
    l.foldl (better t) p = p := by
  induction l with
  | nil => rfl
  | cons r l ih =>
    have hr : better t p r = p := if_neg fun hc =>
      absurd hc.2 (not_lt.2 (h r List.mem_cons_self hc.1))
    rw [List.foldl_cons, hr]
    exact ih fun q hq => h q (List.mem_cons_of_mem _ hq)

theorem highest_of_best (h : Best t p) : highest t p = p :=
  foldl_better_eq fun q _ hq => h.2 q hq

theorem highest_of_worse (hq : Best t q) (hfirst : ∀ r, Best t r → q ≤ r)
    (hp : (t q).priority < (t p).priority) : highest t p = q := by
  have hworse : ∀ r < q, (t r).state = .RUNNABLE → (t q).priority < (t r).priority := by
    intro r hr hst
    refine lt_of_le_of_ne (hq.2 r hst) fun heq => ?_
    have hbest : Best t r := ⟨hst, fun x hx => heq ▸ hq.2 x hx⟩
    exact absurd (hfirst r hbest) (not_le.2 hr)
  obtain ⟨l1, l2, hsplit⟩ := List.append_of_mem (List.mem_finRange q)
  have hsorted : (l1 ++ q :: l2).Pairwise (· < ·) := hsplit ▸ List.pairwise_lt_finRange N
  have hbefore : ∀ r ∈ l1, r < q := fun r hr =>
    (List.pairwise_append.1 hsorted).2.2 r hr q List.mem_cons_self
  -- before slot `q` the loop has only seen processes that are worse
  have hacc : ∀ (l : List (Fin N)) (x : Fin N), (∀ r ∈ l, r < q) →
      (t q).priority < (t x).priority →
      (t q).priority < (t (l.foldl (better t) x)).priority := by
    intro l
    induction l with
    | nil => exact fun x _ hx => hx
    | cons r l ih =>
      intro x hl hx
      refine ih _ (fun y hy => hl y (List.mem_cons_of_mem _ hy)) ?_
      unfold better
      split
      · next hc => exact hworse r (hl r List.mem_cons_self) hc.1
      · exact hx
  change (List.finRange N).foldl (better t) p = q
  rw [hsplit, List.foldl_append, List.foldl_cons]
  have htake : better t (l1.foldl (better t) p) q = q := if_pos ⟨hq.1, hacc l1 p hbefore hp⟩
  rw [htake]
  exact foldl_better_eq fun r _ hr => hq.2 r hr

/-! ## Steps of the scheduler -/

section Steps

variable [DecidableEq κ] [DecidableEq χ]

theorem Step.dispatch (hi : Inv s) (hs : Step K c s s') (hp : (s'.cpu c).pc = .run p) :
    ∃ r, (s.cpu c).pc = .loop r.val ∧ (s.proc r).state = .RUNNABLE ∧ p = highest s.proc r ∧
      s'.proc = s.proc := by
  have hmove : ∀ (m : κ → Cpu N χ L) (x : Cpu N χ L), x.pc ≠ .run p →
      (update m c x c).pc ≠ .run p := by
    intro m x hx
    rwa [update_self]
  cases hs with
  | choose hpc hst =>
    have hself : (update s.cpu c ⟨some (highest s.proc _), .run (highest s.proc _)⟩ c).pc
        = .run p := hp
    rw [update_self] at hself
    cases hself
    exact ⟨_, hpc, hst, rfl, rfl⟩
  | swtch hpc =>
    have hctx := hi.context _ (.inl (hi.run c _ hpc).2)
    refine absurd hp (hmove _ _ fun hrun => ?_)
    rw [show (s.proc _).context = _ from hrun] at hctx
    cases hctx
  | outside _ hpc =>
    rw [show (s.cpu c).pc = _ from hp] at hpc
    cases hpc
  | acquire _ _ he => exact absurd hp (hmove _ _ (by cases he <;> nofun))
  | release _ hl => exact absurd hp (hmove _ _ (by cases hl <;> nofun))
  | _ => exact absurd hp (hmove _ _ (by nofun))

theorem Step.cpu_of_ne (hs : Step K d s s') (hdc : d ≠ c) : s'.cpu c = s.cpu c := by
  cases hs with
  | outside => rfl
  | _ => exact update_of_ne hdc.symm ..

theorem Inv.locked (h : Inv s) (hc : s.ptlock = some c) (hdc : d ≠ c) (hs : Step K d s s') :
    ∀ q, ((s'.proc q).state = .RUNNABLE ↔ (s.proc q).state = .RUNNABLE) ∧
      ((s.proc q).state = .RUNNABLE → (s'.proc q).priority = (s.proc q).priority) := by
  have hholds : (s.cpu d).pc.holds = true → False := by
    intro hd
    rw [(h.lock d).2 hd] at hc
    exact hdc (Option.some.inj hc)
  -- a slot that changes was not runnable, and is not
  have hslot : ∀ {np} {x : Proc N χ L}, (s.proc np).state ≠ .RUNNABLE → x.state ≠ .RUNNABLE →
      ∀ q, ((update s.proc np x q).state = .RUNNABLE ↔ (s.proc q).state = .RUNNABLE) ∧
        ((s.proc q).state = .RUNNABLE →
          (update s.proc np x q).priority = (s.proc q).priority) := by
    intro np x hnp hx q
    by_cases hq : q = np
    · subst hq
      rw [update_self]
      exact ⟨⟨fun h => absurd h hx, fun h => absurd h hnp⟩, fun h => absurd h hnp⟩
    · rw [update_of_ne hq]
      exact ⟨Iff.rfl, fun _ => rfl⟩
  have hmake : ∀ {np}, (s.cpu d).pc.makes = some np → (s.proc np).state = .EMBRYO :=
    fun hm => (h.making d _ hm).1
  have hown : ∀ {x : Fin N}, (s.cpu d).proc = some x → (s.cpu d).pc.inProc = true →
      (s.proc x).state ≠ .RUNNABLE := fun hx hk => by
    rw [h.state_inProc hx hk]
    decide
  have hembryo : ∀ {np}, (s.cpu d).pc.makes = some np → (s.proc np).state ≠ .RUNNABLE :=
    fun hm => by
      rw [hmake hm]
      decide
  cases hs with
  | acquire hfree => rw [hc] at hfree; cases hfree
  | release hpc hl => cases hl <;> exact (hholds (by rw [hpc]; rfl)).elim
  | bootStack hpc =>
    have hm := hembryo (by rw [hpc]; rfl)
    exact hslot hm hm
  | stack hpc =>
    have hm := hembryo (by rw [hpc]; rfl)
    exact hslot hm hm
  | stackFail hpc => exact hslot (hembryo (by rw [hpc]; rfl)) (by nofun)
  | copyFail hpc => exact hslot (hembryo (by rw [hpc]; rfl)) (by nofun)
  | fill _ hpc =>
    have hm := hembryo (by rw [hpc]; rfl)
    exact hslot hm hm
  | exec hp hpc =>
    have hx := hown hp (by rw [hpc]; rfl)
    exact hslot hx hx
  | trap hp hpc =>
    have hx := hown hp (by rw [hpc]; rfl)
    exact hslot hx hx
  | copy | relock | idRet | enter | set | leave | outside =>
    exact fun q => ⟨Iff.rfl, fun _ => rfl⟩
  | bootAlloc hpc | bootRun hpc | skip hpc | choose hpc | swtch hpc | back hpc | yield _ hpc
  | alloc _ hpc | allocFull hpc | publish hpc | exit _ hpc | reap _ hpc | waitFail _ hpc
  | waitSleep _ hpc | waitAwake _ hpc | sleepRelease hpc | sleep _ hpc | awake _ hpc | nap _ hpc
  | napAwake _ hpc | wakeup hpc | wakeTop hpc | kill hpc | chpr hpc | setId _ hpc
  | setIdNull _ hpc | setIdBounds hpc => exact (hholds (by rw [hpc]; rfl)).elim

theorem Step.loop_cases {i : Nat} (hs : Step K c s s') (hpc : (s.cpu c).pc = .loop i) :
    s'.proc = s.proc ∧
    ((∃ r : Fin N, r.val = i ∧ (s.proc r).state ≠ .RUNNABLE ∧ (s'.cpu c).pc = .loop (i + 1)) ∨
     (∃ r : Fin N, r.val = i ∧ (s.proc r).state = .RUNNABLE ∧
       s'.cpu c = ⟨some (highest s.proc r), .run (highest s.proc r)⟩) ∨
     N ≤ i ∧ (s'.cpu c).pc = .top) := by
  have hgoto : ∀ k, ((s.goto c k).cpu c).pc = k := by
    intro k
    change (update s.cpu c _ c).pc = k
    rw [update_self]
  cases hs with
  | skip h hst =>
    rw [hpc] at h
    cases h
    exact ⟨rfl, .inl ⟨_, rfl, hst, hgoto _⟩⟩
  | choose h hst =>
    rw [hpc] at h
    cases h
    exact ⟨rfl, .inr (.inl ⟨_, rfl, hst, update_self ..⟩)⟩
  | release h hl =>
    rw [hpc] at h
    subst h
    cases hl with
    | scheduler _ hN => exact ⟨rfl, .inr (.inr ⟨hN, hgoto _⟩)⟩
  | acquire _ h he =>
    rw [hpc] at h
    subst h
    cases he
  | _ => simp_all

/-! ## Passes of the outer loop -/

/-- Steps of all processors, `n` of them of `c`, none of which dispatches a process on `c`. -/
inductive Scan (K : Client N χ σ L) (c : κ) : Nat → St N κ χ σ L → St N κ χ σ L → Prop
  | refl (s₀ : St N κ χ σ L) : Scan K c 0 s₀ s₀
  | own {n : Nat} {s₀ s₁ s₂ : St N κ χ σ L} : Scan K c n s₀ s₁ → Step K c s₁ s₂ →
    (∀ p, (s₂.cpu c).pc ≠ .run p) → Scan K c (n + 1) s₀ s₂
  | other {n : Nat} {s₀ s₁ s₂ : St N κ χ σ L} {d : κ} : Scan K c n s₀ s₁ → d ≠ c →
    Step K d s₁ s₂ → Scan K c n s₀ s₂

theorem Scan.spec {n : Nat} (h : Scan K c n s s') (hi : Inv s) (hpc : (s.cpu c).pc = .loop 0)
    (hsome : ∃ q, (s.proc q).state = .RUNNABLE) :
    Inv s' ∧ (s'.cpu c).pc = .loop n ∧
      ∀ q, ((s'.proc q).state = .RUNNABLE ↔ (s.proc q).state = .RUNNABLE) ∧
        ((s'.proc q).state = .RUNNABLE → n ≤ q.val) := by
  induction h with
  | refl s0 => exact ⟨hi, hpc, fun q => ⟨Iff.rfl, fun _ => Nat.zero_le _⟩⟩
  | own _ hs hno ih =>
    obtain ⟨hi1, hpc1, hrun⟩ := ih hi hpc hsome
    obtain ⟨hproc, ⟨r, hr, hst, hpc2⟩ | ⟨r, -, -, hcpu⟩ | ⟨hN, -⟩⟩ := hs.loop_cases hpc1
    · refine ⟨hi1.step hs, hpc2, fun q => ?_⟩
      rw [hproc]
      refine ⟨(hrun q).1, fun hq => ?_⟩
      have hle := (hrun q).2 hq
      have hne : q ≠ r := by
        rintro rfl
        exact hst hq
      have := Fin.val_ne_of_ne hne
      omega
    · exact absurd (congrArg Cpu.pc hcpu) (hno _)
    · obtain ⟨q, hq⟩ := hsome
      have hle := (hrun q).2 ((hrun q).1.2 hq)
      have := q.isLt
      omega
  | other _ hd hs ih =>
    obtain ⟨hi1, hpc1, hrun⟩ := ih hi hpc hsome
    have hkeep := hi1.locked ((hi1.lock c).2 (by rw [hpc1]; rfl)) hd hs
    refine ⟨hi1.step hs,
      by rw [hs.cpu_of_ne hd, hpc1], fun q => ⟨(hkeep q).1.trans (hrun q).1, fun hq => ?_⟩⟩
    exact (hrun q).2 ((hkeep q).1.1 hq)

theorem Reachable.best {g : σ} (h : Reachable K g s) (hpc : (s.cpu c).pc = .run p) :
    Best s.proc p := by
  induction h generalizing p with
  | start c' =>
    by_cases hc : c = c'
    · rw [show ((Ptable.start c' g : St N κ χ σ L).cpu c).pc = .boot from if_pos hc] at hpc
      cases hpc
    · rw [show ((Ptable.start c' g : St N κ χ σ L).cpu c).pc = .top from if_neg hc] at hpc
      cases hpc
  | @step s1 s2 d hr hs ih =>
    by_cases hd : d = c
    · subst hd
      obtain ⟨r, -, hst, rfl, hproc⟩ := hs.dispatch hr.inv hpc
      rw [hproc]
      exact best_highest hst
    · rw [hs.cpu_of_ne hd] at hpc
      have hkeep := hr.inv.locked ((hr.inv.lock c).2 (by rw [hpc]; rfl)) hd hs
      obtain ⟨hst, hmin⟩ := ih hpc
      refine ⟨(hkeep p).1.2 hst, fun q hq => ?_⟩
      have hq' := (hkeep q).1.1 hq
      rw [(hkeep p).2 hst, (hkeep q).2 hq']
      exact hmin q hq'

/-- The process that a processor is about to switch to is runnable, and no runnable process has a
smaller priority value, whatever has been done to the table by forks, exits, wakeups, kills,
`exec` and `chpr`. A pass of the outer loop from slot 0 on, with a runnable process in the table,
does not end before a process has been dispatched, which takes at most `N` steps. -/
theorem dispatch_best {g : σ} (h : Reachable K g s) :
    (∀ c p, (s.cpu c).pc = .run p → Best s.proc p) ∧
    ∀ c, (s.cpu c).pc = .loop 0 → (∃ q, (s.proc q).state = .RUNNABLE) →
      ∀ n s', Scan K c n s s' → (s'.cpu c).pc = .loop n ∧ n < N ∧
        ∃ s'', Step K c s' s'' ∧
          ((s''.cpu c).pc = .loop (n + 1) ∨ ∃ p, (s''.cpu c).pc = .run p) := by
  refine ⟨fun c p hpc => h.best hpc, fun c hpc hsome n s' hscan => ?_⟩
  obtain ⟨-, hpc', hrun⟩ := hscan.spec h.inv hpc hsome
  obtain ⟨q, hq⟩ := hsome
  have hn : n < N := lt_of_le_of_lt ((hrun q).2 ((hrun q).1.2 hq)) q.isLt
  refine ⟨hpc', hn, ?_⟩
  by_cases hst : (s'.proc ⟨n, hn⟩).state = .RUNNABLE
  · refine ⟨_, .choose (p := ⟨n, hn⟩) hpc' hst, .inr ⟨highest s'.proc ⟨n, hn⟩, ?_⟩⟩
    change (update s'.cpu c _ c).pc = _
    rw [update_self]
  · refine ⟨_, .skip (p := ⟨n, hn⟩) hpc' hst, .inl ?_⟩
    change (update s'.cpu c _ c).pc = _
    rw [update_self]

end Steps

/-- Init and two children are runnable, and the second child, which has the best priority, is
dispatched. -/
theorem dispatch_best_three : ∃ s : St 3 Unit Unit Unit Unit, Reachable .none () s ∧
    (∀ p, (s.proc p).state = .RUNNABLE) ∧ (s.proc 0).priority = 10 ∧ (s.proc 1).priority = 10 ∧
    (s.proc 2).priority = 5 ∧ (s.cpu ()).pc = .run 2 ∧ Best s.proc 2 := by
  obtain ⟨s, h, h1, h2, h3, h4, hpc⟩ := exists_reachable (K := .none) (g := ()) (c := ())
    (boots () ++ forks () ++ forks () ++ ((), .chpr 3 5) :: goes () 2 ++ ((), .yield) :: goes () 3)
    (P := fun s : St 3 Unit Unit Unit Unit => (∀ p, (s.proc p).state = .RUNNABLE) ∧
      (s.proc 0).priority = 10 ∧ (s.proc 1).priority = 10 ∧ (s.proc 2).priority = 5 ∧
      (s.cpu ()).pc = .run 2) (by decide +kernel)
  exact ⟨s, h, h1, h2, h3, h4, hpc, (dispatch_best h).1 () 2 hpc⟩

/-! ## Turns -/

/-- The best of the processes `R` with the priorities `pr`. -/
def bestOf (R : Finset (Fin N)) (pr : Fin N → Int) : Finset (Fin N) :=
  R.filter fun p => ∀ q ∈ R, pr p ≤ pr q

/-- No process of a worse priority stands between two of the best ones. -/
def Contiguous (R : Finset (Fin N)) (pr : Fin N → Int) : Prop :=
  ∀ p ∈ bestOf R pr, ∀ q ∈ bestOf R pr, ∀ r ∈ R, p < r → r < q → r ∈ bestOf R pr

instance (R : Finset (Fin N)) (pr : Fin N → Int) : Decidable (Contiguous R pr) :=
  inferInstanceAs (Decidable (∀ p ∈ bestOf R pr, ∀ q ∈ bestOf R pr, ∀ r ∈ R, p < r → r < q →
    r ∈ bestOf R pr))

/-- Whenever the outer loop looks at the table, the runnable processes are `R`, with the priorities
`pr`. -/
def Steady (c : κ) (R : Finset (Fin N)) (pr : Fin N → Int) (s : St N κ χ σ L) : Prop :=
  ∀ i, (s.cpu c).pc = .loop i →
    (∀ q, (s.proc q).state = .RUNNABLE ↔ q ∈ R) ∧ ∀ q ∈ R, (s.proc q).priority = pr q

theorem Steady.best_iff {R : Finset (Fin N)} {pr : Fin N → Int} {i : Nat} (h : Steady c R pr s)
    (hpc : (s.cpu c).pc = .loop i) : Best s.proc p ↔ p ∈ bestOf R pr := by
  obtain ⟨hst, hpr⟩ := h i hpc
  rw [Best, bestOf, Finset.mem_filter, hst]
  refine and_congr_right fun hp => forall_congr' fun q => ?_
  rw [hst]
  refine forall_congr' fun hq => ?_
  rw [hpr p hp, hpr q hq]

/-- Where a processor is after it has dispatched `p`: it runs `p`, or the outer loop has gone on
behind `p`, and may have started again from slot 0. -/
structure Behind (R : Finset (Fin N)) (p : Fin N) (x : Cpu N χ L) : Prop where
  boot : x.pc.booting = false
  run : ∀ q, x.pc = .run q → q = p
  back : ∀ q, x.pc = .back q → q = p
  code : x.pc.inProc = true → x.proc = some p
  loop : ∀ i, x.pc = .loop i →
    p.val < i ∧ (∀ r ∈ R, p < r → i ≤ r.val) ∨ (∀ r ∈ R, r ≤ p) ∧ ∀ r ∈ R, i ≤ r.val
  top : x.pc = .top ∨ x.pc = .free ∨ (∃ ch, x.pc = .wakeTop ch) → ∀ r ∈ R, r ≤ p

namespace Behind

variable {R : Finset (Fin N)} {pr : Fin N → Int} {x : Cpu N χ L}

theorem of_code (hk : x.pc.inProc = true) (hp : x.proc = some p) : Behind R p x := by
  refine ⟨?_, ?_, ?_, fun _ => hp, ?_, ?_⟩
  · cases hb : x.pc.booting with
    | false => rfl
    | true => rw [Pc.inProc_eq (Pc.booting_away hb)] at hk; cases hk
  · rintro q hq
    rw [hq] at hk
    cases hk
  · rintro q hq
    rw [hq] at hk
    cases hk
  · rintro i hi
    rw [hi] at hk
    cases hk
  · rintro (hx | hx | ⟨ch, hx⟩) <;> rw [hx] at hk <;> cases hk

theorem of_run (hx : x.pc = .run p) : Behind R p x := by
  refine ⟨by rw [hx]; rfl, fun q hq => ?_, fun q hq => ?_, fun hk => ?_, fun i hi => ?_, ?_⟩
  · rw [hx] at hq
    cases hq
    rfl
  · rw [hx] at hq
    cases hq
  · rw [hx] at hk
    cases hk
  · rw [hx] at hi
    cases hi
  · rintro (h | h | ⟨ch, h⟩) <;> rw [hx] at h <;> cases h

theorem of_back (hx : x.pc = .back p) : Behind R p x := by
  refine ⟨by rw [hx]; rfl, fun q hq => ?_, fun q hq => ?_, fun hk => ?_, fun i hi => ?_, ?_⟩
  · rw [hx] at hq
    cases hq
  · rw [hx] at hq
    cases hq
    rfl
  · rw [hx] at hk
    cases hk
  · rw [hx] at hi
    cases hi
  · rintro (h | h | ⟨ch, h⟩) <;> rw [hx] at h <;> cases h

theorem of_loop {i : Nat} (hx : x.pc = .loop i)
    (h : p.val < i ∧ (∀ r ∈ R, p < r → i ≤ r.val) ∨ (∀ r ∈ R, r ≤ p) ∧ ∀ r ∈ R, i ≤ r.val) :
    Behind R p x := by
  refine ⟨by rw [hx]; rfl, fun q hq => ?_, fun q hq => ?_, fun hk => ?_, fun j hj => ?_, ?_⟩
  · rw [hx] at hq
    cases hq
  · rw [hx] at hq
    cases hq
  · rw [hx] at hk
    cases hk
  · rw [hx] at hj
    cases hj
    exact h
  · rintro (h | h | ⟨ch, h⟩) <;> rw [hx] at h <;> cases h

theorem of_top (hx : x.pc = .top ∨ x.pc = .free ∨ ∃ ch, x.pc = .wakeTop ch)
    (h : ∀ r ∈ R, r ≤ p) : Behind R p x := by
  refine ⟨?_, fun q hq => ?_, fun q hq => ?_, fun hk => ?_, fun j hj => ?_, fun _ => h⟩
  · rcases hx with hx | hx | ⟨ch, hx⟩ <;> rw [hx] <;> rfl
  · rcases hx with hx | hx | ⟨ch, hx⟩ <;> rw [hx] at hq <;> cases hq
  · rcases hx with hx | hx | ⟨ch, hx⟩ <;> rw [hx] at hq <;> cases hq
  · rcases hx with hx | hx | ⟨ch, hx⟩ <;> rw [hx] at hk <;> cases hk
  · rcases hx with hx | hx | ⟨ch, hx⟩ <;> rw [hx] at hj <;> cases hj

theorem follows (h : Behind R p (s.cpu c)) (hst : Steady c R pr s)
    (hpc : (s.cpu c).pc = .loop r.val) (hr : (s.proc r).state = .RUNNABLE)
    (hp : p ∈ bestOf R pr) (hcont : Contiguous R pr) :
    Lib.Follows (bestOf R pr) p (highest s.proc r) := by
  have hbest : ∀ {x}, Best s.proc x ↔ x ∈ bestOf R pr := hst.best_iff hpc
  have hR : r ∈ R := ((hst _ hpc).1 r).1 hr
  have hsub : ∀ z ∈ bestOf R pr, z ∈ R := fun z hz => (Finset.mem_filter.1 hz).1
  by_cases hb : r ∈ bestOf R pr
  · rw [highest_of_best (hbest.2 hb)]
    refine ⟨hb, ?_⟩
    rcases h.loop _ hpc with ⟨hlt, hnext⟩ | ⟨hlast, hfirst⟩
    · exact .inl ⟨hlt, fun z hz hpz => hnext z (hsub z hz) hpz⟩
    · exact .inr ⟨fun z hz => hlast z (hsub z hz), fun z hz => hfirst z (hsub z hz)⟩
  · -- a worse process: the first of the best ones is taken
    obtain ⟨m, hm, hmin⟩ : ∃ m ∈ bestOf R pr, ∀ z ∈ bestOf R pr, m ≤ z :=
      Finset.exists_min_image _ id ⟨p, hp⟩
    have hlt : (s.proc m).priority < (s.proc r).priority := by
      refine lt_of_le_of_ne ((hbest.2 hm).2 r hr) fun heq => hb (hbest.1 ⟨hr, fun x hx => ?_⟩)
      rw [← heq]
      exact (hbest.2 hm).2 x hx
    rw [highest_of_worse (hbest.2 hm) (fun z hz => hmin z (hbest.1 hz)) hlt]
    refine ⟨hm, .inr ⟨fun z hz => ?_, hmin⟩⟩
    rcases h.loop _ hpc with ⟨hpr, hnext⟩ | ⟨hlast, -⟩
    · by_contra hpz
      have hrz : r ≤ z := hnext z (hsub z hz) (not_le.1 hpz)
      have hne : r ≠ z := by
        rintro rfl
        exact hb hz
      exact hb (hcont p hp z hz r hR hpr (lt_of_le_of_ne hrz hne))
    · exact hlast z (hsub z hz)

variable [DecidableEq κ] [DecidableEq χ]

theorem step (h : Behind R p (s.cpu c)) (hi : Inv s) (hst : Steady c R pr s) (hs : Step K c s s')
    (hno : ∀ q, (s'.cpu c).pc ≠ .run q) : Behind R p (s'.cpu c) := by
  have hself : ∀ (m : κ → Cpu N χ L) (x : Cpu N χ L), Behind R p x →
      Behind R p (update m c x c) := by
    intro m x hx
    rwa [update_self]
  have hboot : ∀ {k : Pc N χ L}, (s.cpu c).pc = k → k.booting = true → False := by
    intro k hk hb
    rw [← hk, h.boot] at hb
    cases hb
  have hproc : ∀ {k : Pc N χ L}, (s.cpu c).pc = k → k.inProc = true → (s.cpu c).proc = some p :=
    fun hk hin => h.code (by rw [hk]; exact hin)
  have hsched : ∀ {q : Fin N} {k : Pc N χ L}, (s.cpu c).proc = some q → (s.cpu c).pc = k →
      k.inProc = true → q = p :=
    fun hq hk hin => Option.some.inj (hq.symm.trans (hproc hk hin))
  cases hs with
  | acquire hfree hpc he =>
    refine hself _ _ ?_
    cases he with
    | boot => exact (hboot hpc rfl).elim
    | bootReady => exact (hboot hpc rfl).elim
    | scheduler => exact of_loop rfl (.inr ⟨h.top (.inl hpc), fun _ _ => Nat.zero_le _⟩)
    | wakeTop ch => exact of_top (.inr (.inr ⟨ch, rfl⟩)) (h.top (.inl hpc))
    | _ => exact of_code rfl (hproc hpc rfl)
  | release hpc hl =>
    refine hself _ _ ?_
    cases hl with
    | top => exact of_top (.inl rfl) (h.top (.inr (.inl hpc)))
    | scheduler i hN =>
      refine of_top (.inl rfl) fun r hr => ?_
      rcases h.loop _ hpc with ⟨-, hnext⟩ | ⟨hlast, -⟩
      · by_contra hpr
        have := hnext r hr (not_le.1 hpr)
        omega
      · exact hlast r hr
    | code k => exact of_code rfl (hproc hpc rfl)
  | bootAlloc hpc | bootStack hpc | bootRun hpc => exact (hboot hpc rfl).elim
  | @skip r hpc hr =>
    refine hself _ _ (of_loop rfl ?_)
    have hnot : r ∉ R := fun hR => hr (((hst _ hpc).1 r).2 hR)
    have hnext : ∀ z ∈ R, r.val ≤ z.val → r.val + 1 ≤ z.val := by
      intro z hz hle
      have hne : z ≠ r := by
        rintro rfl
        exact hnot hz
      have := Fin.val_ne_of_ne hne
      omega
    rcases h.loop _ hpc with ⟨hlt, hafter⟩ | ⟨hlast, hfirst⟩
    · exact .inl ⟨by omega, fun z hz hpz => hnext z hz (hafter z hz hpz)⟩
    · exact .inr ⟨hlast, fun z hz => hnext z hz (hfirst z hz)⟩
  | @choose r hpc hr =>
    refine absurd ?_ (hno (highest s.proc r))
    change (update s.cpu c _ c).pc = _
    rw [update_self]
  | @swtch q hpc =>
    obtain ⟨hq, hrun⟩ := hi.run c q hpc
    obtain rfl := h.run q hpc
    exact hself _ _ (of_code (Pc.resumes_spec (hi.context _ (.inl hrun))).2 hq)
  | @back q hpc =>
    obtain rfl := h.back q hpc
    exact hself _ _ (of_loop rfl (.inl ⟨Nat.lt_succ_self _, fun r _ hr => hr⟩))
  | yield hp hpc | waitSleep hp hpc | sleep hp hpc | nap hp hpc | exit hp hpc =>
    obtain rfl := hsched hp hpc rfl
    exact hself _ _ (of_back rfl)
  | wakeTop hpc => exact hself _ _ (of_top (.inr (.inl rfl)) (h.top (.inr (.inr ⟨_, hpc⟩))))
  | outside => exact h
  | alloc _ hpc | allocFull hpc | stack hpc | stackFail hpc | copy hpc | copyFail hpc | fill _ hpc
  | publish hpc | reap _ hpc | waitFail _ hpc | waitAwake _ hpc | sleepRelease hpc | awake _ hpc
  | relock hpc | napAwake _ hpc | wakeup hpc | kill hpc | chpr hpc | setId _ hpc
  | setIdNull _ hpc | setIdBounds hpc | idRet hpc | exec _ hpc | trap _ hpc | enter _ hpc
  | set _ hpc | leave _ hpc => exact hself _ _ (of_code rfl (hproc hpc rfl))

end Behind

section Turns

variable [DecidableEq κ] [DecidableEq χ]

/-- A run of processor `c` alone on a steady table, with the processes that it dispatches, newest
first. -/
inductive Turns (K : Client N χ σ L) (c : κ) (R : Finset (Fin N)) (pr : Fin N → Int) :
    St N κ χ σ L → List (Fin N) → St N κ χ σ L → Prop
  | start {s₀ : St N κ χ σ L} : Steady c R pr s₀ → Turns K c R pr s₀ [] s₀
  | step {s₀ s₁ s₂ : St N κ χ σ L} {l : List (Fin N)} : Turns K c R pr s₀ l s₁ → Step K c s₁ s₂ →
    Steady c R pr s₂ → (∀ p, (s₂.cpu c).pc ≠ .run p) → Turns K c R pr s₀ l s₂
  | dispatch {s₀ s₁ s₂ : St N κ χ σ L} {l : List (Fin N)} {p : Fin N} : Turns K c R pr s₀ l s₁ →
    Step K c s₁ s₂ → (s₂.cpu c).pc = .run p → Turns K c R pr s₀ (p :: l) s₂

variable {R : Finset (Fin N)} {pr : Fin N → Int} {l m : List (Fin N)}

theorem Turns.spec (h : Turns K c R pr s l s') (hi : Inv s) (hcont : Contiguous R pr) :
    Inv s' ∧ Steady c R pr s' ∧ (∀ x ∈ l, x ∈ bestOf R pr) ∧
      l.IsChain (fun a b => Lib.Follows (bestOf R pr) b a) ∧
      ∀ p, l.head? = some p → Behind R p (s'.cpu c) := by
  induction h with
  | start hst => exact ⟨hi, hst, nofun, List.isChain_nil, nofun⟩
  | step _ hs hst hno ih =>
    obtain ⟨hi1, hst1, hmem, hchain, hbeh⟩ := ih
    exact ⟨hi1.step hs, hst, hmem, hchain, fun p hp => (hbeh p hp).step hi1 hst1 hs hno⟩
  | @dispatch s1 s2 l p _ hs hp ih =>
    obtain ⟨hi1, hst1, hmem, hchain, hbeh⟩ := ih
    obtain ⟨r, hpc, hr, rfl, -⟩ := hs.dispatch hi1 hp
    have hbest : highest s1.proc r ∈ bestOf R pr := (hst1.best_iff hpc).1 (best_highest hr)
    refine ⟨hi1.step hs, fun i hloop => ?_, fun x hx => ?_, ?_, fun q hq => ?_⟩
    · rw [hp] at hloop
      cases hloop
    · rcases List.mem_cons.1 hx with rfl | hx
      · exact hbest
      · exact hmem x hx
    · cases l with
      | nil => exact List.isChain_singleton _
      | cons b l =>
        rw [List.isChain_cons_cons]
        exact ⟨(hbeh b rfl).follows hst1 hpc hr (hmem b List.mem_cons_self) hcont, hchain⟩
    · cases hq
      exact .of_run hp

/-- If no worse process stands between two of the best ones in the table, then in any `k`
consecutive dispatches on a processor that runs alone on a steady table, where `k` is the number of
the best processes, each of them is dispatched exactly once. -/
theorem round_robin (hi : Inv s) (h : Turns K c R pr s l s') (hcont : Contiguous R pr)
    (hm : m <:+: l) (hlen : m.length = (bestOf R pr).card) (hp : p ∈ bestOf R pr) :
    m.count p = 1 := by
  obtain ⟨-, -, hmem, hchain, -⟩ := h.spec hi hcont
  obtain ⟨l1, l2, rfl⟩ := hm
  refine Lib.count_turns (fun x hx => hmem x ?_) hchain.left_of_append.right_of_append hlen hp
  exact List.mem_append_left _ (List.mem_append_right _ hx)

end Turns

/-- Init and two children of it, when init has changed the priority of the first child and has then
yielded the processor. -/
def three (priority : Int) : St 3 Unit Unit Unit Unit where
  ptlock := some ()
  lk := none
  g := ()
  proc := ![⟨.RUNNABLE, 1, none, none, false, true, 10, 0, 0, .rel .user, 0, 0, none⟩,
    ⟨.RUNNABLE, 2, some 0, none, false, true, priority, 0, 0, .rel .user, 1, 0, some 0⟩,
    ⟨.RUNNABLE, 3, some 0, none, false, true, 10, 0, 0, .rel .user, 2, 0, some 0⟩]
  cpu _ := ⟨none, .loop 1⟩
  nextpid := 4
  initproc := some 0
  births := 3
  log := [.fork 2 3 0, .fork 1 2 0]

theorem reach_three {priority : Int} (h : priority = 10 ∨ priority = 20) :
    Reachable .none () (three priority) := by
  have hrun : ∃ s : St 3 Unit Unit Unit Unit, Reachable .none () s ∧
      (∀ q, s.proc q = (three priority).proc q) ∧ s.cpu () = ⟨none, .loop 1⟩ ∧
      s.ptlock = some () ∧ s.lk = none ∧ s.nextpid = 4 ∧ s.initproc = some 0 ∧ s.births = 3 ∧
      s.log = [.fork 2 3 0, .fork 1 2 0] := by
    rcases h with rfl | rfl
    · exact exists_reachable (c := ()) (boots () ++ forks () ++ forks () ++
        ((), .chpr 2 10) :: goes () 2 ++ ((), .yield) :: goes () 2) (by decide +kernel)
    · exact exists_reachable (c := ()) (boots () ++ forks () ++ forks () ++
        ((), .chpr 2 20) :: goes () 2 ++ ((), .yield) :: goes () 2) (by decide +kernel)
  obtain ⟨s, hs, h1, h2, h3, h4, h5, h6, h7, h8⟩ := hrun
  obtain rfl : s = three priority :=
    (St.mk.injEq ..).mpr ⟨h3, h4, rfl, funext h1, funext fun _ => h2, h5, h6, h7, h8⟩
  exact hs

theorem steady_three (priority : Int) {s : St 3 Unit Unit Unit Unit}
    (h : s.proc = (three priority).proc) : Steady () Finset.univ ![10, priority, 10] s := by
  refine fun i _ => ⟨fun q => ?_, fun q _ => ?_⟩
  · rw [h]
    fin_cases q <;> exact iff_of_true rfl (Finset.mem_univ _)
  · rw [h]
    fin_cases q <;> rfl

theorem turn {priority : Int} {s₀ s : St 3 Unit Unit Unit Unit} {l : List (Fin 3)} {r p : Fin 3}
    (h : Turns .none () Finset.univ ![10, priority, 10] s₀ l s)
    (hproc : s.proc = (three priority).proc) (hpc : (s.cpu ()).pc = .loop r.val)
    (hp : highest (three priority).proc r = p) :
    ∃ s', Turns .none () Finset.univ ![10, priority, 10] s₀ (p :: l) s' ∧
      s'.proc = (three priority).proc ∧ (s'.cpu ()).pc = .loop (p.val + 1) := by
  have hrun : ∀ q, (s.proc q).state = .RUNNABLE ∧ (s.proc q).context = .rel .user := by
    intro q
    rw [hproc]
    fin_cases q <;> exact ⟨rfl, rfl⟩
  have hst : ∀ {s' : St 3 Unit Unit Unit Unit}, (∀ i, (s'.cpu ()).pc ≠ .loop i) →
      Steady () Finset.univ ![10, priority, 10] s' := fun h i hi => absurd hi (h i)
  rw [← hproc] at hp
  have h1 := h.dispatch (.choose (p := r) hpc (hrun r).1) (p := p) (by subst hp; rfl)
  have h2 := h1.step (.swtch (p := p) (by subst hp; rfl))
    (hst fun i hi => by cases (hrun p).2.symm.trans hi)
    fun q hq => by cases (hrun p).2.symm.trans hq
  have h3 := h2.step (.release (k := .rel .user) (hrun p).2 (.code .user))
    (hst fun i h => by cases h) fun q h => by cases h
  have h4 := h3.step (.acquire rfl rfl (.yield .user trivial)) (hst fun i h => by cases h)
    fun q h => by cases h
  obtain ⟨s5, h5, hproc5, hpc5⟩ : ∃ s5, Turns .none () Finset.univ ![10, priority, 10] s₀
    (p :: l) s5 ∧
      s5.proc = (three priority).proc ∧ (s5.cpu ()).pc = .back p := by
    refine ⟨_, h4.step (.yield (p := p) (by subst hp; rfl) rfl) (hst fun i h => by cases h)
      (fun q h => by cases h), ?_, rfl⟩
    rw [← hproc]
    funext q
    by_cases hq : q = p
    · subst hq
      simp [St.sched, St.setState, St.setProc, St.goto, ← (hrun q).1, ← (hrun q).2]
    · simp [St.sched, St.setState, St.setProc, St.goto, hq]
  exact ⟨_, h5.step (.back hpc5) (steady_three priority hproc5)
    (fun q h => by cases h), hproc5, rfl⟩

/-- With three processes of one priority each gets its turn. -/
theorem round_robin_three : ∃ s s' : St 3 Unit Unit Unit Unit,
    Inv s ∧ Turns .none () Finset.univ ![10, 10, 10] s [0, 2, 1] s' ∧
      List.count (2 : Fin 3) [0, 2, 1] = 1 := by
  have h := Turns.start (K := .none) (steady_three 10 rfl)
  obtain ⟨s1, h1, hproc1, hpc1⟩ := turn (r := 1) (p := 1) h rfl rfl rfl
  obtain ⟨s2, h2, hproc2, hpc2⟩ := turn (r := 2) (p := 2) h1 hproc1 hpc1 rfl
  have h3 := (h2.step (.release hpc2 (.scheduler 3 le_rfl)) (steady_three 10 hproc2) nofun).step
    (.acquire rfl rfl .scheduler) (steady_three 10 hproc2) nofun
  obtain ⟨s3, h3, -⟩ := turn (r := 0) (p := 0) h3 hproc2 rfl rfl
  have hi := (reach_three (.inl rfl)).inv
  exact ⟨_, s3, hi, h3, round_robin hi h3 (by decide) List.infix_rfl (by decide) (by decide)⟩

/-- Init and its second child have the better priority, but the outer loop stops at the first child
between them, and init is dispatched again. -/
theorem round_robin_fails : ∃ s s' : St 3 Unit Unit Unit Unit,
    Reachable .none () s ∧ Turns .none () Finset.univ ![10, 20, 10] s [0, 0] s' ∧
      (bestOf Finset.univ ![10, 20, 10]).card = 2 ∧ (2 : Fin 3) ∈ bestOf Finset.univ ![10, 20, 10] ∧
      List.count (2 : Fin 3) [0, 0] = 0 := by
  have h := Turns.start (K := .none) (steady_three 20 rfl)
  obtain ⟨s1, h1, hproc1, hpc1⟩ := turn (r := 1) (p := 0) h rfl rfl rfl
  obtain ⟨s2, h2, -⟩ := turn (r := 1) (p := 0) h1 hproc1 hpc1 rfl
  exact ⟨_, s2, reach_three (.inr rfl), h2, by decide, by decide, rfl⟩

end Xv6.Ptable
