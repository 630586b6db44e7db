import Mathlib.Data.List.Basic

/-!
# Interrupts and threads

`pushcli`, `popcli` and `sched`, instruction by instruction, on any number of processors and kernel
threads. `ncli` and `intena` belong to the processor, but what they say belongs to the code that
runs on it: `sched` hands one level over to the scheduler and gets it back on another processor
perhaps, and takes `intena` along. `acquire` and `release` are `pushcli` and `popcli` here, since
nothing else in them has to do with interrupts.

An interrupt comes on a processor that has them enabled, between any two instructions, also in the
middle of `pushcli`. The code that it stops goes on when the handler returns, on the processor on
which the handler is then.
-/

namespace Xv6.Intr

open Function (update update_of_ne update_self)

/-- `struct cpu`, and the interrupt flag in `eflags`. -/
structure Cpu where
  ncli : Int
  intena : Bool
  FL_IF : Bool

def popcli (x : Cpu) : Except String Cpu :=
  if x.FL_IF then .error "popcli - interruptible"
  else
    let x := { x with ncli := x.ncli - 1 }
    if x.ncli < 0 then .error "popcli"
    else if x.ncli = 0 ∧ x.intena then .ok { x with FL_IF := true }
    else .ok x

/-- The end of `pushcli`, for the value that it has read from `eflags`. -/
def record (x : Cpu) (eflags : Bool) : Cpu :=
  { x with intena := if x.ncli = 0 then eflags else x.intena, ncli := x.ncli + 1 }

/-- The checks of `sched` that look at the processor. -/
def schedCheck (x : Cpu) : Except String Unit :=
  if x.ncli ≠ 1 then .error "sched locks"
  else if x.FL_IF then .error "sched interruptible"
  else .ok ()

/-- Where code is: outside of the functions here; in `pushcli`, before and after `cli`; in `sched`,
behind `swtch`, with the `intena` that it has saved. -/
inductive Place where
  | run
  | push (eflags : Bool)
  | off (eflags : Bool)
  | swtch (intena : Bool)
deriving DecidableEq

/-- Code that an interrupt may stop, or has stopped. `held` has an entry for each `pushcli` that has
not been matched yet, the latest first: whether interrupts were enabled when it was executed, or
`none` if it was executed by the scheduler for a thread that starts. -/
structure Frame where
  place : Place
  held : List (Option Bool)

/-- A thread: the code that runs, and the code below it that interrupts have stopped. -/
structure Thread where
  top : Frame
  below : List Frame

/-- A thread in `forkret`, which holds `ptable.lock` from the scheduler. -/
def forkret : Thread := ⟨⟨.run, [none]⟩, []⟩

/-- `proc c` is the thread that runs on `c`; without one it is the scheduler of `c`. `on t` is the
processor that runs thread `t`. -/
structure St (κ τ : Type) where
  cpu : κ → Cpu
  proc : κ → Option τ
  scheduler : κ → Thread
  thread : τ → Thread
  on : τ → Option κ

section Steps

variable {κ τ : Type} [DecidableEq κ] [DecidableEq τ]

namespace St

variable (s : St κ τ)

/-- What runs on processor `c`. -/
def cur (c : κ) : Thread :=
  match s.proc c with
  | some t => s.thread t
  | none => s.scheduler c

/-- The code that runs on processor `c` goes on as `k`, and leaves the processor as `x`. -/
def setCur (c : κ) (x : Cpu) (k : Thread) : St κ τ :=
  match s.proc c with
  | some t => { s with cpu := update s.cpu c x, thread := update s.thread t k }
  | none => { s with cpu := update s.cpu c x, scheduler := update s.scheduler c k }

end St

inductive Local : Cpu → Thread → Cpu → Thread → Prop
  -- `pushcli`
  | readeflags {x held below} :
    Local x ⟨⟨.run, held⟩, below⟩ x ⟨⟨.push x.FL_IF, held⟩, below⟩
  | cli {x eflags held below} :
    Local x ⟨⟨.push eflags, held⟩, below⟩ { x with FL_IF := false } ⟨⟨.off eflags, held⟩, below⟩
  | record {x eflags held below} :
    Local x ⟨⟨.off eflags, held⟩, below⟩ (record x eflags) ⟨⟨.run, some eflags :: held⟩, below⟩
  | popcli {x y h held below} : popcli x = .ok y →
    Local x ⟨⟨.run, h :: held⟩, below⟩ y ⟨⟨.run, held⟩, below⟩
  -- an interrupt and the return from it
  | interrupt {x top below} : x.FL_IF = true →
    Local x ⟨top, below⟩ { x with FL_IF := false } ⟨⟨.run, []⟩, top :: below⟩
  | iret {x top below} :
    Local x ⟨⟨.run, []⟩, top :: below⟩ { x with FL_IF := true } ⟨top, below⟩
  -- the end of `sched`
  | restore {x intena held below} :
    Local x ⟨⟨.swtch intena, held⟩, below⟩ { x with intena := intena } ⟨⟨.run, held⟩, below⟩

/-- The steps: those of the code on a processor; the scheduler enables interrupts at the top of its
loop, and a thread does when it returns to user space; the scheduler switches to a thread, a thread
calls `sched`, both with one level held; and a thread that is on no processor is replaced by a new
one. -/
inductive Step (s : St κ τ) : St κ τ → Prop
  | code (c : κ) (x : Cpu) (k : Thread) (h : Local (s.cpu c) (s.cur c) x k) :
    Step s (s.setCur c x k)
  | sti (c : κ) (h : s.cur c = ⟨⟨.run, []⟩, []⟩) :
    Step s (s.setCur c { s.cpu c with FL_IF := true } (s.cur c))
  | swtch (c : κ) (t : τ) (l : Option Bool) (hc : s.proc c = none)
    (hs : s.scheduler c = ⟨⟨.run, [l]⟩, []⟩) (ht : s.on t = none) :
    Step s { s with
      proc := update s.proc c (some t)
      on := update s.on t (some c) }
  | sched (c : κ) (t : τ) (l : Option Bool) (below : List Frame) (hc : s.proc c = some t)
    (ht : s.thread t = ⟨⟨.run, [l]⟩, below⟩) :
    Step s { s with
      proc := update s.proc c none
      on := update s.on t none
      thread := update s.thread t ⟨⟨.swtch (s.cpu c).intena, [l]⟩, below⟩ }
  | fork (t : τ) (ht : s.on t = none) :
    Step s { s with thread := update s.thread t forkret }

/-- All processors are about to enter `scheduler`, with interrupts disabled. -/
def start : St κ τ where
  cpu _ := ⟨0, false, false⟩
  proc _ := none
  scheduler _ := ⟨⟨.run, []⟩, []⟩
  thread _ := forkret
  on _ := none

inductive Reachable : St κ τ → Prop
  | start : Reachable start
  | step {s s' : St κ τ} (h : Reachable s) (hs : Step s s') : Reachable s'

/-! ## The invariant -/

def Stopped (f : Frame) : Prop := f.held = [] ∧ (f.place = .run ∨ ∃ eflags, f.place = .push eflags)

/-- The outermost level was taken with interrupts enabled or not as `intena` says. -/
def Agrees (held : List (Option Bool)) (intena : Bool) : Prop :=
  ∀ b, held.getLast? = some (some b) → intena = b

/-- The code of a thread on no processor: behind `swtch`, or in `forkret`, with one level held. -/
structure Parked (k : Thread) : Prop where
  below : ∀ f ∈ k.below, Stopped f
  one : ∃ l, k.top.held = [l]
  place : (∃ intena, k.top.place = .swtch intena ∧ Agrees k.top.held intena) ∨
    k.top.place = .run ∧ k.top.held = [none]

structure Runs (x : Cpu) (k : Thread) : Prop where
  ncli : x.ncli = k.top.held.length
  below : ∀ f ∈ k.below, Stopped f
  off : x.FL_IF = true → Stopped k.top
  swtch : ∀ intena, k.top.place = .swtch intena → Parked k

/-- For a thread, `intena` is right too, unless it is still to be restored. -/
def Owns (x : Cpu) (k : Thread) : Prop :=
  (∃ intena, k.top.place = .swtch intena) ∨ Agrees k.top.held x.intena

structure Inv (s : St κ τ) : Prop where
  on : ∀ c t, s.proc c = some t → s.on t = some c
  runs : ∀ c, Runs (s.cpu c) (s.cur c)
  owns : ∀ c t, s.proc c = some t → Owns (s.cpu c) (s.thread t)
  parked : ∀ t, s.on t = none → Parked (s.thread t)
  scheduler : ∀ c t, s.proc c = some t → ∃ l, s.scheduler c = ⟨⟨.run, [l]⟩, []⟩

/-! ### `popcli` -/

theorem popcli_spec {x y : Cpu} (h : popcli x = .ok y) :
    x.FL_IF = false ∧ y.ncli = x.ncli - 1 ∧ 0 ≤ y.ncli ∧ y.intena = x.intena ∧
    (y.FL_IF = true ↔ y.ncli = 0 ∧ x.intena = true) := by
  unfold popcli at h
  cases hf : x.FL_IF with
  | true =>
    rw [hf] at h
    cases h
  | false =>
    rw [hf, if_neg Bool.false_ne_true] at h
    dsimp only at h
    by_cases hn : x.ncli - 1 < 0
    · rw [if_pos hn] at h
      cases h
    · rw [if_neg hn] at h
      by_cases hi : x.ncli - 1 = 0 ∧ x.intena = true
      · rw [if_pos hi] at h
        cases h
        exact ⟨rfl, rfl, by dsimp only; omega, rfl, fun _ => hi, fun _ => rfl⟩
      · rw [if_neg hi] at h
        cases h
        exact ⟨rfl, rfl, by dsimp only; omega, rfl, nofun, fun h1 => absurd h1 hi⟩

theorem popcli_ok {x : Cpu} (hf : x.FL_IF = false) (hn : 0 < x.ncli) : ∃ y, popcli x = .ok y := by
  unfold popcli
  rw [hf, if_neg Bool.false_ne_true]
  dsimp only
  rw [if_neg (by omega)]
  split
  · exact ⟨_, rfl⟩
  · exact ⟨_, rfl⟩

/-! ### The code on a processor -/

variable {x y : Cpu} {k k' : Thread} {held : List (Option Bool)} {below : List Frame}
  {eflags intena : Bool}

theorem Stopped.ne_off (h : Stopped ⟨.off eflags, held⟩) : False := by
  rcases h.2 with h | ⟨e, h⟩ <;> cases h

theorem Stopped.ne_swtch (h : Stopped ⟨.swtch intena, held⟩) : False := by
  rcases h.2 with h | ⟨e, h⟩ <;> cases h

theorem Runs.local (h : Runs x k) (hs : Local x k y k') : Runs y k' := by
  cases hs with
  | readeflags => exact ⟨h.ncli, h.below, fun hf => ⟨(h.off hf).1, .inr ⟨_, rfl⟩⟩, nofun⟩
  | cli => exact ⟨h.ncli, h.below, nofun, nofun⟩
  | record =>
    refine ⟨?_, h.below, fun hf => (h.off hf).ne_off.elim, nofun⟩
    change x.ncli + 1 = _
    rw [h.ncli]
    exact (Int.natCast_succ _).symm
  | @popcli _ l held _ hp =>
    obtain ⟨-, h1, -, -, h2⟩ := popcli_spec hp
    have hn : y.ncli = held.length := by
      have h3 : x.ncli = (l :: held).length := h.ncli
      rw [List.length_cons] at h3
      omega
    refine ⟨hn, h.below, fun hf => ⟨?_, .inl rfl⟩, nofun⟩
    rw [(h2.1 hf).1] at hn
    exact List.length_eq_zero_iff.1 (show held.length = 0 by omega)
  | interrupt hf =>
    have hst := h.off hf
    refine ⟨?_, fun f hm => ?_, nofun, nofun⟩
    · have h1 := h.ncli
      rw [hst.1] at h1
      exact h1
    · rcases List.mem_cons.1 hm with rfl | hm
      · exact hst
      · exact h.below f hm
  | @iret top below =>
    have hst := h.below top List.mem_cons_self
    refine ⟨?_, fun f hm => h.below f (List.mem_cons_of_mem _ hm), fun _ => hst, fun i hi => ?_⟩
    · rw [show (⟨top, below⟩ : Thread).top.held = [] from hst.1]
      exact h.ncli
    · obtain ⟨place, held⟩ := top
      cases hi
      exact hst.ne_swtch.elim
  | restore => exact ⟨h.ncli, h.below, fun hf => (h.off hf).ne_swtch.elim, nofun⟩

theorem agrees_nil : Agrees [] intena := nofun

theorem agrees_cons {l : Option Bool} (hne : held ≠ []) :
    Agrees (l :: held) intena ↔ Agrees held intena := by
  unfold Agrees
  rw [List.getLast?_cons_of_ne_nil hne]

theorem Owns.local (h : Owns x k) (hr : Runs x k) (hs : Local x k y k') : Owns y k' := by
  cases hs with
  | readeflags | cli => exact .inr (h.resolve_left nofun)
  | @record e held _ =>
    right
    have ha : Agrees held x.intena := h.resolve_left nofun
    change Agrees (some e :: held) (if x.ncli = 0 then e else x.intena)
    have hn : x.ncli = held.length := hr.ncli
    by_cases h0 : held = []
    · rw [h0] at hn
      rw [if_pos (show x.ncli = 0 from hn), h0]
      intro b hb
      exact Option.some.inj (Option.some.inj hb)
    · have h1 : ¬ x.ncli = 0 := fun h2 => h0 (List.length_eq_zero_iff.1 (by omega))
      rw [if_neg h1, agrees_cons h0]
      exact ha
  | @popcli _ l held _ hp =>
    right
    have ha : Agrees (l :: held) x.intena := h.resolve_left nofun
    change Agrees held y.intena
    rw [(popcli_spec hp).2.2.2.1]
    by_cases h0 : held = []
    · rw [h0]
      exact agrees_nil
    · exact (agrees_cons h0).1 ha
  | interrupt => exact .inr agrees_nil
  | @iret top _ =>
    right
    change Agrees top.held x.intena
    rw [(hr.below top List.mem_cons_self).1]
    exact agrees_nil
  | restore =>
    rcases (hr.swtch _ rfl).place with ⟨i, hi, ha⟩ | ⟨hi, -⟩
    · cases hi
      exact .inr ha
    · cases hi

/-! ### The system -/

section System

variable {s s' : St κ τ} {c c' : κ} {t : τ}

section
omit [DecidableEq κ] [DecidableEq τ]

theorem cur_some (h : s.proc c = some t) : s.cur c = s.thread t := by
  unfold St.cur
  rw [h]

theorem cur_none (h : s.proc c = none) : s.cur c = s.scheduler c := by
  unfold St.cur
  rw [h]

end

theorem setCur_spec (h : Inv s) (c : κ) (x : Cpu) (k : Thread) :
    (s.setCur c x k).proc = s.proc ∧ (s.setCur c x k).on = s.on ∧
    (s.setCur c x k).cpu = update s.cpu c x ∧ (s.setCur c x k).cur c = k ∧
    (∀ c', c' ≠ c → (s.setCur c x k).cur c' = s.cur c') ∧
    (∀ t, s.on t = none → (s.setCur c x k).thread t = s.thread t) ∧
    ∀ c' t, s.proc c' = some t → (s.setCur c x k).scheduler c' = s.scheduler c' := by
  unfold St.setCur
  cases hc : s.proc c with
  | some t =>
    have ht := h.on c t hc
    refine ⟨rfl, rfl, rfl, ?_, fun c' hcc => ?_, fun t' ht' => ?_, fun _ _ _ => rfl⟩
    · simp [St.cur, hc]
    · unfold St.cur
      cases hc' : s.proc c' with
      | some t' =>
        -- the thread is on `c` only
        have hne : t' ≠ t := by
          rintro rfl
          exact hcc (Option.some.inj ((h.on c' t' hc').symm.trans ht))
        simp [hne]
      | none => rfl
    · refine update_of_ne ?_ ..
      rintro rfl
      rw [ht] at ht'
      cases ht'
  | none =>
    refine ⟨rfl, rfl, rfl, ?_, fun c' hcc => ?_, fun _ _ => rfl, fun c' t' hc' => ?_⟩
    · simp [St.cur, hc]
    · unfold St.cur
      cases s.proc c' <;> simp [hcc]
    · refine update_of_ne ?_ ..
      rintro rfl
      rw [hc] at hc'
      cases hc'

namespace Inv

theorem setCur (h : Inv s) (hr : Runs x k) (ho : ∀ t, s.proc c = some t → Owns x k) :
    Inv (s.setCur c x k) := by
  obtain ⟨hproc, hon, hcpu, hcur, hcur', hthread, hsched⟩ := setCur_spec h c x k
  generalize s.setCur c x k = s' at hproc hon hcpu hcur hcur' hthread hsched ⊢
  refine ⟨fun c' t hc' => ?_, fun c' => ?_, fun c' t hc' => ?_, fun t ht => ?_, fun c' t hc' => ?_⟩
  · rw [hproc] at hc'
    rw [hon]
    exact h.on c' t hc'
  · rw [hcpu]
    by_cases hcc : c' = c
    · rw [hcc, update_self, hcur]
      exact hr
    · rw [update_of_ne hcc, hcur' c' hcc]
      exact h.runs c'
  · rw [← cur_some hc', hcpu]
    rw [hproc] at hc'
    by_cases hcc : c' = c
    · rw [hcc, update_self, hcur]
      exact ho t (hcc ▸ hc')
    · rw [update_of_ne hcc, hcur' c' hcc, cur_some hc']
      exact h.owns c' t hc'
  · rw [hon] at ht
    rw [hthread t ht]
    exact h.parked t ht
  · rw [hproc] at hc'
    rw [hsched c' t hc']
    exact h.scheduler c' t hc'

theorem swtch (h : Inv s) {l : Option Bool} (hc : s.proc c = none)
    (hs : s.scheduler c = ⟨⟨.run, [l]⟩, []⟩) (ht : s.on t = none) :
    Inv { s with
      proc := update s.proc c (some t)
      on := update s.on t (some c) } := by
  have hpk := h.parked t ht
  obtain ⟨l', hl'⟩ := hpk.one
  have hrc := h.runs c
  rw [cur_none hc, hs] at hrc
  generalize hs' : ({ s with proc := _, on := _ } : St κ τ) = s'
  have hproc : s'.proc = update s.proc c (some t) := by rw [← hs']
  have hon : s'.on = update s.on t (some c) := by rw [← hs']
  have hcpu : s'.cpu = s.cpu := by rw [← hs']
  have hthread : s'.thread = s.thread := by rw [← hs']
  have hsched : s'.scheduler = s.scheduler := by rw [← hs']
  have hne : ∀ c' t', s.proc c' = some t' → t' ≠ t := by
    rintro c' t' hc' rfl
    rw [h.on c' t' hc'] at ht
    cases ht
  have hproc' : ∀ c', c' ≠ c → s'.proc c' = s.proc c' := fun c' hcc => by
    rw [hproc, update_of_ne hcc]
  have hself : s'.proc c = some t := by rw [hproc, update_self]
  have hcur' : ∀ c', c' ≠ c → s'.cur c' = s.cur c' := fun c' hcc => by
    unfold St.cur
    rw [hproc' c' hcc, hthread, hsched]
  refine ⟨fun c' t' hc' => ?_, fun c' => ?_, fun c' t' hc' => ?_, fun t' ht' => ?_,
    fun c' t' hc' => ?_⟩
  · rw [hon]
    by_cases hcc : c' = c
    · rw [hcc, hself] at hc'
      obtain rfl := Option.some.inj hc'
      rw [update_self, hcc]
    · rw [hproc' c' hcc] at hc'
      rw [update_of_ne (hne c' t' hc')]
      exact h.on c' t' hc'
  · rw [hcpu]
    by_cases hcc : c' = c
    · rw [hcc, cur_some hself, hthread]
      refine ⟨?_, hpk.below, fun hf => ?_, fun _ _ => hpk⟩
      · rw [hrc.ncli, hl']
        rfl
      · exact absurd (hrc.off hf).1 nofun
    · rw [hcur' c' hcc]
      exact h.runs c'
  · rw [hcpu, hthread]
    by_cases hcc : c' = c
    · rw [hcc, hself] at hc'
      obtain rfl := Option.some.inj hc'
      rcases hpk.place with ⟨i, hi, -⟩ | ⟨-, hn⟩
      · exact .inl ⟨i, hi⟩
      · right
        rw [hn]
        intro b hb
        cases hb
    · rw [hproc' c' hcc] at hc'
      exact h.owns c' t' hc'
  · rw [hon] at ht'
    rw [hthread]
    by_cases htt : t' = t
    · rw [htt, update_self] at ht'
      cases ht'
    · rw [update_of_ne htt] at ht'
      exact h.parked t' ht'
  · rw [hsched]
    by_cases hcc : c' = c
    · rw [hcc]
      exact ⟨l, hs⟩
    · rw [hproc' c' hcc] at hc'
      exact h.scheduler c' t' hc'

theorem sched (h : Inv s) {l : Option Bool} (hc : s.proc c = some t)
    (ht : s.thread t = ⟨⟨.run, [l]⟩, below⟩) :
    Inv { s with
      proc := update s.proc c none
      on := update s.on t none
      thread := update s.thread t ⟨⟨.swtch (s.cpu c).intena, [l]⟩, below⟩ } := by
  have hrc := h.runs c
  rw [cur_some hc, ht] at hrc
  have hoc := h.owns c t hc
  rw [ht] at hoc
  obtain ⟨l', hl'⟩ := h.scheduler c t hc
  generalize hs' : ({ s with proc := _, on := _, thread := _ } : St κ τ) = s'
  have hproc : s'.proc = update s.proc c none := by rw [← hs']
  have hon : s'.on = update s.on t none := by rw [← hs']
  have hcpu : s'.cpu = s.cpu := by rw [← hs']
  have hthread : s'.thread = update s.thread t ⟨⟨.swtch (s.cpu c).intena, [l]⟩, below⟩ := by
    rw [← hs']
  have hsched : s'.scheduler = s.scheduler := by rw [← hs']
  have hproc' : ∀ c', c' ≠ c → s'.proc c' = s.proc c' := fun c' hcc => by
    rw [hproc, update_of_ne hcc]
  have hself : s'.proc c = none := by rw [hproc, update_self]
  have hold : ∀ c' t', s'.proc c' = some t' → c' ≠ c ∧ s.proc c' = some t' := by
    intro c' t' hc'
    have hcc : c' ≠ c := by
      rintro rfl
      rw [hself] at hc'
      cases hc'
    exact ⟨hcc, (hproc' c' hcc).symm.trans hc'⟩
  have hne : ∀ c' t', c' ≠ c → s.proc c' = some t' → t' ≠ t := by
    rintro c' t' hcc hc' rfl
    exact hcc (Option.some.inj ((h.on c' t' hc').symm.trans (h.on c t' hc)))
  refine ⟨fun c' t' hc' => ?_, fun c' => ?_, fun c' t' hc' => ?_, fun t' ht' => ?_,
    fun c' t' hc' => ?_⟩
  · obtain ⟨hcc, hc'⟩ := hold c' t' hc'
    rw [hon, update_of_ne (hne c' t' hcc hc')]
    exact h.on c' t' hc'
  · rw [hcpu]
    by_cases hcc : c' = c
    · rw [hcc, cur_none hself, hsched, hl']
      refine ⟨hrc.ncli, nofun, fun hf => ?_, nofun⟩
      exact absurd (hrc.off hf).1 nofun
    · have hr := h.runs c'
      cases hc' : s.proc c' with
      | some t' =>
        rw [cur_some ((hproc' c' hcc).trans hc'), hthread, update_of_ne (hne c' t' hcc hc')]
        rwa [cur_some hc'] at hr
      | none =>
        rw [cur_none ((hproc' c' hcc).trans hc'), hsched]
        rwa [cur_none hc'] at hr
  · obtain ⟨hcc, hc'⟩ := hold c' t' hc'
    rw [hcpu, hthread, update_of_ne (hne c' t' hcc hc')]
    exact h.owns c' t' hc'
  · rw [hthread]
    by_cases htt : t' = t
    · rw [htt, update_self]
      exact ⟨hrc.below, ⟨l, rfl⟩, .inl ⟨_, rfl, hoc.resolve_left nofun⟩⟩
    · rw [hon, update_of_ne htt] at ht'
      rw [update_of_ne htt]
      exact h.parked t' ht'
  · obtain ⟨hcc, hc'⟩ := hold c' t' hc'
    rw [hsched]
    exact h.scheduler c' t' hc'

omit [DecidableEq κ] in
theorem fork (h : Inv s) (ht : s.on t = none) :
    Inv { s with thread := update s.thread t forkret } := by
  have hne : ∀ c t', s.proc c = some t' → update s.thread t forkret t' = s.thread t' := by
    intro c t' hc
    refine update_of_ne ?_ ..
    rintro rfl
    rw [h.on c t' hc] at ht
    cases ht
  refine ⟨h.on, fun c => ?_, fun c t' hc => ?_, fun t' ht' => ?_, h.scheduler⟩
  · have hr := h.runs c
    unfold St.cur at hr ⊢
    dsimp only
    cases hc : s.proc c with
    | some t' =>
      rw [hc] at hr
      dsimp only at hr ⊢
      rw [hne c t' hc]
      exact hr
    | none =>
      rw [hc] at hr
      exact hr
  · dsimp only
    rw [hne c t' hc]
    exact h.owns c t' hc
  · dsimp only
    by_cases htt : t' = t
    · subst htt
      rw [update_self]
      exact ⟨nofun, ⟨none, rfl⟩, .inr ⟨rfl, rfl⟩⟩
    · rw [update_of_ne htt]
      exact h.parked t' ht'

theorem step (h : Inv s) (hs : Step s s') : Inv s' := by
  cases hs with
  | code c x k hl =>
    refine h.setCur ((h.runs c).local hl) fun t hc => ?_
    have ho := h.owns c t hc
    rw [← cur_some hc] at ho
    exact ho.local (h.runs c) hl
  | sti c hk =>
    have hr := h.runs c
    rw [hk] at hr ⊢
    refine h.setCur ⟨hr.ncli, nofun, fun _ => ⟨rfl, .inl rfl⟩, nofun⟩ fun t _ => .inr agrees_nil
  | swtch c t l hc hs ht => exact h.swtch hc hs ht
  | sched c t l below hc ht => exact h.sched hc ht
  | fork t ht => exact h.fork ht

end Inv

omit [DecidableEq κ] [DecidableEq τ] in
theorem inv_start : Inv (start : St κ τ) :=
  ⟨nofun, fun _ => ⟨rfl, nofun, nofun, nofun⟩, nofun,
    fun _ _ => ⟨nofun, ⟨none, rfl⟩, .inr ⟨rfl, rfl⟩⟩, nofun⟩

theorem Reachable.inv (h : Reachable s) : Inv s := by
  induction h with
  | start => exact inv_start
  | step _ hs ih => exact ih.step hs

/-- In every run, with any number of processors and threads: interrupts are disabled on a processor
whose `ncli` is positive; where a level is held, `popcli` does not panic, and where exactly one is
held, neither does `sched`; and when a thread is about to release its outermost level, on whatever
processor it is by then, `popcli` enables interrupts exactly if they were enabled when the thread
took this level. -/
theorem interrupts_follow_thread (h : Reachable s) :
    (∀ c, 0 < (s.cpu c).ncli → (s.cpu c).FL_IF = false) ∧
    (∀ c, (s.cur c).top.held ≠ [] → ∃ x, popcli (s.cpu c) = .ok x) ∧
    (∀ c l, (s.cur c).top.held = [l] → schedCheck (s.cpu c) = .ok ()) ∧
    ∀ c t b, s.proc c = some t → (s.thread t).top = ⟨.run, [some b]⟩ →
      ∃ x, popcli (s.cpu c) = .ok x ∧ x.ncli = 0 ∧ (x.FL_IF = true ↔ b = true) := by
  have hi := h.inv
  have hlen : ∀ c, (s.cpu c).ncli = (s.cur c).top.held.length := fun c => (hi.runs c).ncli
  have hoff : ∀ c, 0 < (s.cpu c).ncli → (s.cpu c).FL_IF = false := by
    intro c hc
    cases hf : (s.cpu c).FL_IF with
    | false => rfl
    | true =>
      have h1 := hlen c
      rw [((hi.runs c).off hf).1] at h1
      exact absurd hc (by rw [h1]; decide)
  have hpos : ∀ c, (s.cur c).top.held ≠ [] → 0 < (s.cpu c).ncli := by
    intro c hc
    rw [hlen c]
    exact Int.natCast_pos.2 (List.length_pos_iff.2 hc)
  have hpop : ∀ c, (s.cur c).top.held ≠ [] → ∃ x, popcli (s.cpu c) = .ok x := fun c hc =>
    popcli_ok (hoff c (hpos c hc)) (hpos c hc)
  refine ⟨hoff, hpop, fun c l hl => ?_, fun c t b hc ht => ?_⟩
  · have h1 : (s.cpu c).ncli = 1 := by
      rw [hlen c, hl]
      rfl
    unfold schedCheck
    rw [if_neg (not_not.2 h1), hoff c (by omega)]
    rfl
  · have hcur : (s.cur c).top = ⟨.run, [some b]⟩ := by rw [cur_some hc, ht]
    obtain ⟨x, hx⟩ := hpop c (by rw [hcur]; nofun)
    obtain ⟨-, h1, -, -, h2⟩ := popcli_spec hx
    have h3 : x.ncli = 0 := by
      rw [h1, hlen c, hcur]
      rfl
    have ho := hi.owns c t hc
    unfold Owns at ho
    rw [ht] at ho
    have h4 : (s.cpu c).intena = b := (ho.resolve_left nofun) b rfl
    refine ⟨x, hx, h3, ?_⟩
    rw [h2, h4]
    exact and_iff_right h3

end System

end Steps

theorem reach_migrated : ∃ s : St (Fin 2) Unit, Reachable s ∧ s.proc 1 = some () ∧
    (s.thread ()).top = ⟨.run, [some true]⟩ := by
  -- the scheduler of processor 0 takes `ptable.lock` and switches to the thread in `forkret`
  have h1 := (((Reachable.start (κ := Fin 2) (τ := Unit)).step (.sti 0 rfl)).step
    (.code 0 _ _ .readeflags)).step (.code 0 _ _ .cli)
  have h2 := (h1.step (.code 0 _ _ .record)).step (.swtch 0 () (some true) rfl rfl rfl)
  have h3 := (((h2.step (.code 0 _ _ (.popcli rfl))).step (.code 0 _ _ .readeflags)).step
    (.code 0 _ _ .cli)).step (.code 0 _ _ .record)
  have h4 := h3.step (.sched 0 () (some true) [] rfl rfl)
  have h5 := (((h4.step (.sti 1 rfl)).step (.code 1 _ _ .readeflags)).step (.code 1 _ _ .cli)).step
    (.code 1 _ _ .record)
  have h6 := (h5.step (.swtch 1 () (some true) rfl rfl rfl)).step (.code 1 _ _ .restore)
  exact ⟨_, h6, rfl, rfl⟩

/-- There `popcli` enables interrupts. -/
theorem interrupts_follow_thread_migrated : ∃ s : St (Fin 2) Unit, Reachable s ∧
    s.proc 1 = some () ∧ ∃ x, popcli (s.cpu 1) = .ok x ∧ x.FL_IF = true := by
  obtain ⟨s, h, h1, h2⟩ := reach_migrated
  obtain ⟨x, hx, -, hf⟩ := (interrupts_follow_thread h).2.2.2 1 () true h1 h2
  exact ⟨s, h, h1, x, hx, hf.2 rfl⟩

end Xv6.Intr
