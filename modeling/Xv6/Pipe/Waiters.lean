import Xv6.Pipe.Stream

/-!
# Nobody waits for a pipe in vain

The conditions on which `piperead` and `pipewrite` sleep, and the wakeups that are owed. Every path
of the code signals what it has changed but one: a `pipewrite` that finds the pipe full and its
process killed returns without waking up the readers of the bytes that it has stored.
-/

namespace Xv6.Pipes

open Ptable Lib

variable {N : Nat} {κ : Type} {g g' : Pipe N} {p q : Fin N}

/-- What processes wait for on a channel; a process that sleeps on it has a descriptor for the other
end, so that this is open. -/
def cond : Ch → Pipe N → Prop
  | .nread, g => g.created = false ∨ g.readopen = true ∧ (¬ g.isEmpty ∨ g.writeopen = false)
  | .nwrite, g => g.created = false ∨ g.writeopen = true ∧ (¬ g.isFull ∨ g.readopen = false)

def owes : Place → Ch → Prop
  | .write _ _ _ unsent, .nread => unsent = true
  | .copy .., .nwrite => True
  | .closed true, .nread => True
  | .closed false, .nwrite => True
  | _, _ => False

/-- A `pipewrite` that gives up has signalled the bytes that it has stored, or nobody is left to
read them. -/
def GivesUpSignalled (_ : Fin N) (_ : Bool) (l : Place) (g : Pipe N) (a : Act Ch (Pipe N) Place) :
    Prop :=
  ∀ buf i before, l = .write buf i before true → a = .release → g.readopen = false

def signalled : Client N Ch (Pipe N) Place := pipeClient.limit GivesUpSignalled

theorem signalled_outline :
    Outline (signalled : Client N Ch (Pipe N) Place) Good At Waits noPipe where
  init := pipe_outline.init
  enter := pipe_outline.enter
  set ha := pipe_outline.set ha.1
  wakeup ha := pipe_outline.wakeup ha.1
  sleep ha := pipe_outline.sleep ha.1
  relock := pipe_outline.relock
  outside := pipe_outline.outside

theorem signalled_discipline :
    Discipline ((signalled : Client N Ch (Pipe N) Place).limit fun p _ l g _ => Good g ∧ At p l g)
      cond owes where
  set := by
    rintro p killed l g g' l' ⟨⟨ha, -⟩, hg, hl⟩ ch hc hn
    have hcr := hl.created hg
    cases ha with
    | store hi hf =>
      cases ch with
      | nread => exact rfl
      | nwrite =>
        have hw : g.writeopen = true := ((hg.ends true).refs _ hl.1).1
        rcases hn with hn | hn
        · exact absurd (.inr ⟨hw, .inl hf⟩) hn
        · exact hn.elim
    | startCopy =>
      cases ch with
      | nread =>
        rcases hn with hn | hn
        · exact absurd hc hn
        · exact hn.elim
      | nwrite => trivial
    | take hi he =>
      cases ch with
      | nread =>
        have hr : g.readopen = true := ((hg.ends false).refs _ hl).1
        rcases hn with hn | hn
        · exact absurd (.inr ⟨hr, .inl he⟩) hn
        · exact hn.elim
      | nwrite => trivial
    | @shut _ w =>
      cases ch <;> cases w
      · rcases hc with hc | ⟨hc, -⟩
        · rw [show g.created = _ from hc] at hcr
          cases hcr
        · cases hc
      · trivial
      · trivial
      · rcases hc with hc | ⟨hc, -⟩
        · rw [show g.created = _ from hc] at hcr
          cases hcr
        · cases hc
    | both hr hw =>
      rcases hn with hn | hn
      · refine absurd ?_ hn
        cases ch <;> exact hc
      · cases ch <;> exact hn.elim
  wakeup := by
    rintro p killed l g ch l' ⟨⟨ha, -⟩, hg, hl⟩ ch' hne ho
    cases ha with
    | wakeReaders | finish =>
      cases ch'
      · exact absurd rfl hne
      · exact ho.elim
    | stop =>
      cases ch'
      · exact ho.elim
      · exact absurd rfl hne
    | @closed _ w =>
      cases ch' <;> cases w
      · exact ho.elim
      · exact absurd rfl hne
      · exact absurd rfl hne
      · exact ho.elim
  sleep := by
    rintro p killed l g ch l' ⟨⟨ha, -⟩, hg, hl⟩
    have hcr := hl.created hg
    cases ha with
    | sleepFull =>
      obtain ⟨-, -, -, -, hf, hr⟩ := hl
      refine ⟨?_, fun ch' _ ho => by cases ch' <;> exact ho⟩
      rintro (hc | ⟨-, hc | hc⟩)
      · rw [hc] at hcr
        cases hcr
      · exact hc hf
      · rw [hc] at hr
        cases hr
    | sleepEmpty he hw =>
      refine ⟨?_, fun ch' _ ho => by cases ch' <;> exact ho⟩
      rintro (hc | ⟨-, hc | hc⟩)
      · rw [hc] at hcr
        cases hcr
      · exact hc he
      · rw [hc] at hw
        cases hw
  release := by
    rintro p killed l g ⟨⟨ha, hok⟩, hg, hl⟩ ch hc ho
    have hcr := hl.created hg
    cases ha with
    | giveUp hi hf hk =>
      cases ch with
      | nread =>
        have hr := hok _ _ _ (by rw [show _ = true from ho]) rfl
        rcases hc with hc | ⟨hc, -⟩
        · rw [hc] at hcr
          cases hcr
        · rw [hr] at hc
          cases hc
      | nwrite => exact ho
    | written | interrupted | readDone | one | last => cases ch <;> exact ho
  outside := by
    intro p g g' ho ch hc
    cases ho with
    | create data hn => cases ch <;> exact .inl hn
    | share | drop | kfree => cases ch <;> exact hc

/-- A process is in `piperead` or `pipewrite`. -/
def InCall (s : St N κ Ch (Pipe N) Place) (q : Fin N) : Prop :=
  ∃ l, Place.inCall l = true ∧
    ((∃ c, (s.cpu c).proc = some q ∧
      ((s.cpu c).pc.holding = some l ∨ (s.cpu c).pc.waiting = some l)) ∨
      (s.proc q).waits ∧
        ((s.proc q).context.holding = some l ∨ (s.proc q).context.waiting = some l))

theorem open_of_inCall {l : Place} (hg : Good g) (h : At q l g) (hl : l.inCall = true) :
    g.readopen = true ∨ g.writeopen = true := by
  cases l with
  | write | full | written => exact .inr ((hg.ends true).refs q h.1).1
  | read | copy | readDone => exact .inl ((hg.ends false).refs q h).1
  | close | closed | check | last => cases hl

variable [DecidableEq κ]

theorem page_freed {s s' : St N κ Ch (Pipe N) Place} {c : κ} (h : Reachable pipeClient noPipe s)
    (hs : Step pipeClient c s s') (hp : s.g.page = true) (hp' : s'.g.page = false) :
    s.g.readopen = false ∧ s.g.writeopen = false ∧ ∀ q, ¬ InCall s q := by
  have ho := h.outlined pipe_outline
  have hkeep : ∀ {b : Bool}, s.g.page = b → b = false → False := fun h1 h2 => by
    rw [hp] at h1
    rw [← h1] at h2
    cases h2
  have hclosed : s.g.readopen = false ∧ s.g.writeopen = false := by
    cases hs with
    | set _ _ hact => cases hact <;> exact (hkeep rfl hp').elim
    | outside _ _ hout =>
      cases hout with
      | kfree hf => exact ⟨(ho.data.ends false).freeing _ hf, (ho.data.ends true).freeing _ hf⟩
      | create => cases hp'
      | share | drop => exact (hkeep rfl hp').elim
    | _ => exact (hkeep rfl hp').elim
  refine ⟨hclosed.1, hclosed.2, ?_⟩
  rintro q ⟨l, hl, hq⟩
  have hat : At q l s.g := by
    rcases hq with ⟨c, hc, hq | hq⟩ | ⟨hw, hq | hq⟩
    · exact (ho.here c q hc).holding l hq
    · exact waits_at ((ho.here c q hc).waiting l hq)
    · exact (ho.away q hw).holding l hq
    · exact waits_at ((ho.away q hw).waiting l hq)
  rcases open_of_inCall ho.data hat hl with hr | hr
  · rw [hclosed.1] at hr
    cases hr
  · rw [hclosed.2] at hr
    cases hr

section
omit [DecidableEq κ]

theorem reader_asleep {s : St N κ Ch (Pipe N) Place} (ho : Outlined signalled Good At Waits s)
    (hst : (s.proc p).state = .SLEEPING) (hchan : (s.proc p).chan = some (.client .nread)) :
    s.g.created = true ∧ s.g.readopen = true := by
  obtain ⟨l, hctx, _, _, _, _, ha, -⟩ := ho.asleep p _ hst hchan
  have hw : Waits p l s.g := (ho.away p (.inr hst)).waiting l (by rw [hctx]; rfl)
  cases ha with
  | sleepEmpty => exact ⟨(waits_at hw).created ho.data, ((ho.data.ends false).refs p hw).1⟩

theorem writer_asleep {s : St N κ Ch (Pipe N) Place} (ho : Outlined signalled Good At Waits s)
    (hst : (s.proc p).state = .SLEEPING) (hchan : (s.proc p).chan = some (.client .nwrite)) :
    s.g.created = true ∧ s.g.writeopen = true := by
  obtain ⟨l, hctx, _, _, _, _, ha, -⟩ := ho.asleep p _ hst hchan
  have hw : Waits p l s.g := (ho.away p (.inr hst)).waiting l (by rw [hctx]; rfl)
  cases ha with
  | sleepFull => exact ⟨(waits_at hw).created ho.data, ((ho.data.ends true).refs p hw.1).1⟩

end

/-- In every run in which a `pipewrite` gives up only if it has signalled the bytes that it has
stored or the read end is closed, for any number of readers and writers: while both locks are free,
a process sleeps on `&p->nread` only if the pipe is empty and open for writing, and on `&p->nwrite`
only if it is full and open for reading; and a step that frees the page finds both ends closed and
no process in `piperead` or `pipewrite`. -/
theorem pipe_waiters {s : St N κ Ch (Pipe N) Place} (h : Reachable signalled noPipe s) :
    (s.ptlock = none → s.lk = none → ∀ p, (s.proc p).state = .SLEEPING →
      ((s.proc p).chan = some (.client .nread) →
        s.g.ring.nread = s.g.ring.nwrite ∧ s.g.writeopen = true) ∧
      ((s.proc p).chan = some (.client .nwrite) →
        s.g.ring.nwrite = s.g.ring.nread + BitVec.ofNat 32 PIPESIZE ∧ s.g.readopen = true)) ∧
    ∀ c s', Step pipeClient c s s' → s.g.page = true → s'.g.page = false →
      s.g.readopen = false ∧ s.g.writeopen = false ∧ ∀ q, ¬ InCall s q := by
  have ho := h.outlined signalled_outline
  refine ⟨fun hl hlk p hst => ⟨fun hchan => ?_, fun hchan => ?_⟩,
    fun c s' hs => page_freed h.of_limit hs⟩
  · obtain ⟨hcr, hr⟩ := reader_asleep ho hst hchan
    have hno := (no_lost_wakeup signalled_discipline (h.limit signalled_outline)).1 hl hlk p _
      hst hchan
    refine ⟨?_, ?_⟩
    · by_contra he
      exact hno (.inr ⟨hr, .inl he⟩)
    · by_contra hw
      exact hno (.inr ⟨hr, .inr (Bool.eq_false_iff.2 hw)⟩)
  · obtain ⟨hcr, hw⟩ := writer_asleep ho hst hchan
    have hno := (no_lost_wakeup signalled_discipline (h.limit signalled_outline)).1 hl hlk p _
      hst hchan
    refine ⟨?_, ?_⟩
    · by_contra he
      exact hno (.inr ⟨hw, .inl he⟩)
    · by_contra hr
      exact hno (.inr ⟨hw, .inr (Bool.eq_false_iff.2 hr)⟩)

/-! ## Runs -/

theorem reader_first : ∃ s : St 2 (Fin 2) Ch (Pipe 2) Place, Reachable signalled noPipe s ∧
    s.ptlock = none ∧ s.lk = none ∧ s.g = ((noPipe.create 0 fun _ => 0).share true 1).share
      false 1 ∧
    s.cpu 1 = ⟨some 1, .code .user⟩ ∧ (s.proc 1).killed = true ∧
    (s.proc 0).state = .SLEEPING ∧ (s.proc 0).chan = some (.client .nread) := by
  obtain ⟨⟨ptlock, lk, g, proc, cpu, _, _, _, _⟩, h, hl, hlk, hg, h0, h1, hpid0, hk0,
    hpid1, hst1⟩ :=
    reach_two (signalled : Client 2 Ch (Pipe 2) Place) (g := noPipe)
      (.create (fun _ => 0) rfl) (.share true 1 (Nat.succ_pos 0)) (.share false 1 (Nat.succ_pos 0))
  dsimp only at hl hlk hg h0 h1 hpid0 hk0 hpid1 hst1
  subst hl hlk hg
  have hp : (cpu 0).proc = some 0 := by rw [h0]
  have hc : (cpu 0).pc = .code .user := by rw [h0]
  have hkill : killTable proc 2 = Function.update proc 1 { proc 1 with
      killed := true
      state := if (proc 1).state = .SLEEPING then .RUNNABLE else (proc 1).state } := by
    have hfind : ((List.finRange 2).find? fun p => (proc p).pid = 2) = some 1 := by
      simp [List.finRange, hpid0, hpid1]
    unfold killTable
    rw [hfind]
  have hk1 : (killTable proc 2 1).killed = true := by rw [hkill]; rfl
  have hst1' : (killTable proc 2 1).state = .RUNNING := by
    rw [hkill]
    change (if (proc 1).state = .SLEEPING then State.RUNNABLE else (proc 1).state) = .RUNNING
    rw [hst1]
    rfl
  have hk0' : (killTable proc 2 0).killed = false := by rw [hkill]; exact hk0
  have hact : signalled.act (0 : Fin 2) (killTable proc 2 0).killed (.read 1)
      (((noPipe.create 0 fun _ => 0).share true 1).share false 1) (.sleep .nread (.read 1)) := by
    rw [hk0']
    exact ⟨.sleepEmpty rfl rfl rfl, nofun⟩
  have h₁ := ((h.on 0 (.acquire rfl hc (.kill 2))).on 0 (.kill rfl)).on 0
    (.release rfl (.code .user))
  have h2 := h₁.on 0 (.enter (p := 0) hp rfl rfl (.read 1 (Nat.succ_pos 0)))
  have h3 := h2.on 0 (.acquire rfl rfl (.clientSleep 0 (Place.read 1) Ch.nread (Place.read 1) hp
    hact))
  have h4 := ((h3.on 0 (.sleepRelease rfl)).on 0 (.sleep (p := 0) hp rfl)).on 0
    (.back (p := 0) rfl)
  have hrun1 : (killTable proc 2 1).state ≠ .RUNNABLE := by
    rw [hst1']
    decide
  have h5 := (h4.on 0 (.skip (p := 1) rfl hrun1)).on 0
    (.release (k := .loop 2) rfl (.scheduler 2 (Nat.le_refl 2)))
  exact ⟨_, h5, rfl, rfl, rfl, h1, hk1, rfl, rfl⟩

/-- The reader sleeps, and the pipe is empty. -/
theorem pipe_waiters_reader : ∃ s : St 2 (Fin 2) Ch (Pipe 2) Place, Reachable signalled noPipe s ∧
    (s.proc 0).state = .SLEEPING ∧ s.g.ring.nread = s.g.ring.nwrite := by
  obtain ⟨s, h, hl, hlk, -, -, -, hst, hchan⟩ := reader_first
  exact ⟨s, h, hst, (((pipe_waiters h).1 hl hlk 0 hst).1 hchan).1⟩

/-- The child stores `PIPESIZE` bytes, finds the pipe full and itself killed, and returns: the
reader sleeps on, with a full pipe. -/
theorem reader_stranded : ∃ s : St 2 (Fin 2) Ch (Pipe 2) Place, Reachable pipeClient noPipe s ∧
    s.ptlock = none ∧ s.lk = none ∧ (s.proc 0).state = .SLEEPING ∧
    (s.proc 0).chan = some (.client .nread) ∧ s.g.ring.nread ≠ s.g.ring.nwrite := by
  obtain ⟨s, h, hl, hlk, hg, h1, hk, hst, hchan⟩ := reader_first
  have hzero : s.g.ring.count = 0 := by
    rw [hg]
    exact Fifo.count_eq_zero.2 rfl
  obtain ⟨buf, hbuf⟩ : ∃ buf : List Byte, buf.length = 513 :=
    ⟨List.replicate 513 7, List.length_replicate⟩
  have henter := h.of_limit.on 1 (.enter (p := 1) (by rw [h1]) (by rw [h1]) hlk
    (.write buf (by rw [hg]; exact Nat.succ_pos 0)))
  obtain ⟨g', unsent, hr, hcount⟩ := stores (c := 1) (p := 1) henter
    (by simp [St.goto, h1]) rfl 512 (by omega)
    (by change s.g.ring.count + 512 ≤ _; rw [hzero]; decide)
  have hcount' : g'.ring.count = PIPESIZE :=
    hcount.trans (by change s.g.ring.count + 512 = _; rw [hzero]; rfl)
  have hact : PipeAct (1 : Fin 2) (s.proc 1).killed
      (.write buf 512 (s.g.bytesOf 1).length unsent) g' .release :=
    .giveUp (by omega) (isFull_iff.2 hcount') (.inr hk)
  refine ⟨_, hr.on 1 (.leave (p := 1) ?_ ?_ hact), hl, rfl, hst, hchan, fun he => ?_⟩
  · simp [St.goto, h1]
  · simp [St.goto]
  · have := Fifo.count_eq_zero.2 (show g'.ring.nread = g'.ring.nwrite from he)
    rw [hcount'] at this
    cases this

end Xv6.Pipes
