import Xv6.Pipe.Model

/-!
# A pipe is a stream of bytes

The outline of the code of a pipe: what the counters and the descriptors say, and what is true at
each place. From it follows that the bytes come out in the order in which they went in.
-/

namespace Xv6.Pipes

open Function (update update_of_ne update_self)

open Ptable Lib

variable {N : Nat} {κ : Type} {g g' : Pipe N} {p q : Fin N}

/-! ## The ends -/

/-- What the descriptors of an end say: while there are some, the end is open and nobody is about to
close it; an end that is about to be closed is open; and an open end is one of a pipe that has its
page. -/
structure EndOk (g : Pipe N) (w : Bool) : Prop where
  refs : ∀ q, 0 < g.refs w q → g.isOpen w = true ∧ g.closing w = none
  closing : ∀ q, g.closing w = some q → g.isOpen w = true
  page : g.isOpen w = true → g.created = true ∧ g.page = true
  freeing : ∀ q, g.freeing = some q → g.isOpen w = false

structure Good (g : Pipe N) : Prop where
  ends : ∀ w, EndOk g w
  fresh : g.created = false → g.stored = [] ∧ g.delivered = [] ∧ g.freeing = none
  count : g.ring.count ≤ PIPESIZE
  stream : g.delivered ++ g.ring.contents = g.stored.map Prod.snd

/-- The descriptor that a process has while it is in `pipewrite` or `piperead`, and what it has
stored so far. -/
def At (p : Fin N) : Place → Pipe N → Prop
  | .write buf i before _, g => 0 < g.refs true p ∧ i ≤ buf.length ∧
    before ≤ (g.bytesOf p).length ∧ (g.bytesOf p).drop before = buf.take i
  | .full buf i before, g => 0 < g.refs true p ∧ i ≤ buf.length ∧
    before ≤ (g.bytesOf p).length ∧ (g.bytesOf p).drop before = buf.take i ∧
    g.isFull ∧ g.readopen = true
  | .written buf before, g => 0 < g.refs true p ∧ (g.bytesOf p).drop before = buf
  | .read _, g | .copy .., g | .readDone, g => 0 < g.refs false p
  | .close w, g => g.closing w = some p
  | .closed _, g | .check, g | .last, g => g.created = true

def Waits (p : Fin N) (l : Place) (g : Pipe N) : Prop :=
  match l with
  | .write .. | .read _ => At p l g
  | _ => False

variable {l : Place}

theorem waits_at (h : Waits p l g) : At p l g := by
  cases l <;> first | exact h | exact h.elim

/-! ## Steps -/

theorem isOpen_shut (g : Pipe N) (w w' : Bool) :
    (g.shut w).isOpen w' = if w' = w then false else g.isOpen w' := by
  cases w <;> cases w' <;> rfl

theorem pipesize_dvd : PIPESIZE ∣ 2 ^ 32 := by decide

theorem pipesize_lt : PIPESIZE < 2 ^ 32 := by decide

theorem isFull_iff : g.isFull ↔ g.ring.count = PIPESIZE := (Fifo.count_eq_iff pipesize_lt).symm

theorem isEmpty_iff : g.isEmpty ↔ g.ring.count = 0 := Fifo.count_eq_zero.symm

theorem bytesOf_store (g : Pipe N) (p q : Fin N) (b : Byte) :
    (g.store p b).bytesOf q = if q = p then g.bytesOf q ++ [b] else g.bytesOf q := by
  unfold Pipe.bytesOf Pipe.store
  rw [List.filter_append, List.map_append]
  by_cases hq : q = p
  · simp [hq]
  · simp [hq, Ne.symm hq]

namespace Good

theorem store (h : Good g) (hf : ¬ g.isFull) (hc : g.created = true) (p : Fin N) (b : Byte) :
    Good (g.store p b) := by
  have hlt : g.ring.count < PIPESIZE := lt_of_le_of_ne h.count fun he => hf (isFull_iff.2 he)
  refine ⟨fun w => ⟨(h.ends w).1, (h.ends w).2, (h.ends w).3, (h.ends w).4⟩, fun hn => ?_, ?_, ?_⟩
  · rw [show (g.store p b).created = g.created from rfl, hc] at hn
    cases hn
  · exact (Fifo.count_push pipesize_lt hlt b).trans_le hlt
  · change g.delivered ++ (g.ring.push b).contents = _
    rw [Fifo.contents_push pipesize_dvd pipesize_lt hlt, ← List.append_assoc, h.stream]
    simp [Pipe.store]

theorem take (h : Good g) (he : ¬ g.isEmpty) (hc : g.created = true) : Good g.take := by
  have hpos : 0 < g.ring.count := Nat.pos_of_ne_zero fun h0 => he (isEmpty_iff.2 h0)
  refine ⟨fun w => ⟨(h.ends w).1, (h.ends w).2, (h.ends w).3, (h.ends w).4⟩, fun hn => ?_, ?_, ?_⟩
  · rw [show g.take.created = g.created from rfl, hc] at hn
    cases hn
  · have := Fifo.count_pop hpos
    have := h.count
    change g.ring.pop.count ≤ _
    omega
  · have := h.stream
    rw [Fifo.contents_pop hpos] at this
    change (g.delivered ++ [g.ring.front]) ++ g.ring.pop.contents = g.stored.map Prod.snd
    rw [← this]
    simp

variable {w : Bool}

theorem shut (h : Good g) (hc : g.closing w = some p) : Good (g.shut w) := by
  refine ⟨fun w' => ⟨fun q hq => ?_, fun q hq => ?_, fun ho => ?_, fun q hq => ?_⟩,
    h.fresh, h.count, h.stream⟩
  · obtain ⟨h1, h2⟩ := (h.ends w').refs q hq
    by_cases hw : w' = w
    · subst hw
      rw [hc] at h2
      cases h2
    · rw [isOpen_shut, if_neg hw]
      refine ⟨h1, ?_⟩
      change update g.closing w none w' = none
      rw [update_of_ne hw, h2]
  · change update g.closing w none w' = some q at hq
    by_cases hw : w' = w
    · rw [hw, update_self] at hq
      cases hq
    · rw [update_of_ne hw] at hq
      rw [isOpen_shut, if_neg hw]
      exact (h.ends w').closing q hq
  · rw [isOpen_shut] at ho
    split at ho
    · cases ho
    · exact (h.ends w').page ho
  · rw [isOpen_shut]
    split
    · rfl
    · exact (h.ends w').freeing q hq

theorem both (h : Good g) (hr : g.readopen = false) (hw : g.writeopen = false)
    (hc : g.created = true) (p : Fin N) : Good { g with freeing := some p } := by
  refine ⟨fun w => ⟨(h.ends w).1, (h.ends w).2, (h.ends w).3, fun q _ => ?_⟩, fun hn => ?_, h.count,
    h.stream⟩
  · cases w
    · exact hr
    · exact hw
  · rw [show g.created = _ from hn] at hc
    cases hc

theorem create (h : Good g) (hc : g.created = false) (p : Fin N) (data : Fin PIPESIZE → Byte) :
    Good (g.create p data) := by
  obtain ⟨h1, h2, h3⟩ := h.fresh hc
  have hno : ∀ w, g.closing w = none := by
    intro w
    cases hq : g.closing w with
    | none => rfl
    | some q =>
      have := ((h.ends w).page ((h.ends w).closing q hq)).1
      rw [hc] at this
      cases this
  have hopen : ∀ w, (g.create p data).isOpen w = true := by
    intro w
    cases w <;> rfl
  refine ⟨fun w => ⟨fun q _ => ⟨hopen w, hno w⟩, fun q _ => hopen w, fun _ => ⟨rfl, rfl⟩,
    fun q hq => ?_⟩, nofun, ?_, ?_⟩
  · rw [show g.freeing = some q from hq] at h3
    cases h3
  · have : (g.create p data).ring.count = 0 := Fifo.count_eq_zero.2 rfl
    omega
  · change g.delivered ++ Fifo.contents ⟨data, 0, 0⟩ = g.stored.map Prod.snd
    rw [h1, h2, Fifo.contents, Fifo.count_eq_zero.2 rfl]
    rfl

theorem share (h : Good g) (hp : 0 < g.refs w p) (q : Fin N) : Good (g.share w q) := by
  refine ⟨fun w' => ⟨fun r hr => ?_, (h.ends w').2, (h.ends w').3, (h.ends w').4⟩, h.fresh, h.count,
    h.stream⟩
  by_cases hw : w' = w
  · subst hw
    exact (h.ends w').refs p hp
  · change 0 < update g.refs w _ w' r at hr
    rw [update_of_ne hw] at hr
    exact (h.ends w').refs r hr

theorem drop (h : Good g) (hp : 0 < g.refs w p) : Good (g.drop w p) := by
  obtain ⟨h1, h2⟩ := (h.ends w).refs p hp
  have hopen : ∀ w', (g.drop w p).isOpen w' = g.isOpen w' := fun _ => rfl
  have hrefs : ∀ w' q, 0 < (g.drop w p).refs w' q → 0 < g.refs w' q := by
    intro w' q hq
    change 0 < update g.refs w _ w' q at hq
    by_cases hw : w' = w
    · subst hw
      rw [update_self] at hq
      by_cases hqp : q = p
      · rwa [hqp]
      · rwa [update_of_ne hqp] at hq
    · rwa [update_of_ne hw] at hq
  have hclosing : ∀ w', (g.drop w p).closing w' = g.closing w' ∨
      w' = w ∧ (g.drop w p).closing w' = some p ∧ ∀ q, (g.drop w p).refs w q = 0 := by
    intro w'
    unfold Pipe.drop
    dsimp only
    split
    · next hz =>
      by_cases hw : w' = w
      · subst hw
        rw [update_self, update_self]
        exact .inr ⟨rfl, rfl, hz⟩
      · rw [update_of_ne hw]
        exact .inl rfl
    · exact .inl rfl
  refine ⟨fun w' => ⟨fun q hq => ?_, fun q hq => ?_, (h.ends w').page, (h.ends w').freeing⟩,
    h.fresh, h.count, h.stream⟩
  · obtain ⟨h3, h4⟩ := (h.ends w').refs q (hrefs w' q hq)
    refine ⟨h3, ?_⟩
    rcases hclosing w' with h5 | ⟨rfl, -, h5⟩
    · rw [h5, h4]
    · rw [h5 q] at hq
      cases hq
  · rw [hopen]
    rcases hclosing w' with h5 | ⟨rfl, -, -⟩
    · exact (h.ends w').closing q (h5 ▸ hq)
    · exact h1

theorem kfree (h : Good g) (hf : g.freeing = some p) :
    Good { g with page := false, freeing := none } := by
  refine ⟨fun w => ⟨(h.ends w).1, (h.ends w).2, fun ho => ?_, nofun⟩, fun hn => ?_, h.count,
    h.stream⟩
  · have := (h.ends w).freeing p hf
    rw [show g.isOpen w = true from ho] at this
    cases this
  · obtain ⟨h1, h2, -⟩ := h.fresh hn
    exact ⟨h1, h2, rfl⟩

theorem created_of_refs (h : Good g) (hp : 0 < g.refs w p) : g.created = true :=
  ((h.ends w).page ((h.ends w).refs p hp).1).1

end Good

theorem good_noPipe : Good (noPipe : Pipe N) := by
  have hopen : ∀ w, (noPipe : Pipe N).isOpen w = false := by
    intro w
    cases w <;> rfl
  refine ⟨fun w => ⟨fun q hq => absurd hq (Nat.lt_irrefl 0), nofun, fun ho => ?_, nofun⟩,
    fun _ => ⟨rfl, rfl, rfl⟩, ?_, ?_⟩
  · rw [hopen] at ho
    cases ho
  · have : (noPipe : Pipe N).ring.count = 0 := Fifo.count_eq_zero.2 rfl
    omega
  · change [] ++ Fifo.contents (noPipe : Pipe N).ring = []
    rw [Fifo.contents, Fifo.count_eq_zero.2 rfl]
    rfl

/-! ## The outline -/

theorem At.frame (h : At q l g) (hrefs : ∀ w, 0 < g.refs w q → 0 < g'.refs w q)
    (hbytes : g'.bytesOf q = g.bytesOf q) (hfull : g.isFull → g'.isFull)
    (hread : g.readopen = true → g'.readopen = true)
    (hclosing : ∀ w, g.closing w = some q → g'.closing w = some q)
    (hcreated : g.created = true → g'.created = true) : At q l g' := by
  cases l with
  | write buf i before unsent =>
    obtain ⟨h1, h2⟩ := h
    refine ⟨hrefs _ h1, ?_⟩
    rwa [hbytes]
  | full buf i before =>
    obtain ⟨h1, h2, h3, h4, h5, h6⟩ := h
    refine ⟨hrefs _ h1, h2, ?_⟩
    rw [hbytes]
    exact ⟨h3, h4, hfull h5, hread h6⟩
  | written buf before =>
    obtain ⟨h1, h2⟩ := h
    refine ⟨hrefs _ h1, ?_⟩
    rwa [hbytes]
  | read | copy | readDone => exact hrefs _ h
  | close w => exact hclosing w h
  | closed | check | last => exact hcreated h

theorem At.created (h : At q l g) (hg : Good g) : g.created = true := by
  cases l with
  | write | full | written => exact hg.created_of_refs h.1
  | read | copy | readDone => exact hg.created_of_refs h
  | close w => exact ((hg.ends w).page ((hg.ends w).closing q h)).1
  | closed | check | last => exact h

theorem Waits.frame (h : Waits q l g) (hrefs : g'.refs = g.refs)
    (hbytes : g'.bytesOf q = g.bytesOf q) :
    Waits q l g' := by
  cases l with
  | write buf i before unsent =>
    obtain ⟨h1, h2⟩ := h
    refine ⟨by rwa [hrefs], ?_⟩
    rwa [hbytes]
  | read n =>
    have h1 : 0 < g.refs false q := h
    rwa [← hrefs] at h1
  | _ => exact h.elim

variable {buf : List Byte} {before : Nat}

theorem at_store {i : Nat} {unsent : Bool} (hi : i < buf.length)
    (h : At p (.write buf i before unsent) g) :
    At p (.write buf (i + 1) before true) (g.store p buf[i]) := by
  obtain ⟨h1, h2, h3, h4⟩ := h
  refine ⟨h1, hi, ?_, ?_⟩
  · rw [bytesOf_store, if_pos rfl, List.length_append]
    omega
  · rw [bytesOf_store, if_pos rfl, List.drop_append_of_le_length h3, h4]
    exact List.take_append_getElem hi

theorem pipe_outline : Outline (pipeClient : Client N Ch (Pipe N) Place) Good At Waits noPipe where
  init := good_noPipe
  enter := by
    intro p g l he hg
    cases he with
    | write buf hp => exact ⟨hp, Nat.zero_le _, le_refl _, by simp⟩
    | read n hp => exact hp
    | close w hc => exact hc
  set := by
    intro p killed l g g' l' ha hg hl
    cases ha with
    | store hi hf =>
      refine ⟨hg.store hf (hg.created_of_refs hl.1) p _, at_store hi hl, fun q l2 hq h => ?_⟩
      refine h.frame rfl ?_
      rw [bytesOf_store, if_neg hq]
    | startCopy => exact ⟨hg, hl, fun q l2 _ h => h⟩
    | take hi he =>
      exact ⟨hg.take he (hg.created_of_refs hl), hl, fun q l2 _ h => h.frame rfl rfl⟩
    | shut => exact ⟨hg.shut hl, hl.created hg, fun q l2 _ h => h.frame rfl rfl⟩
    | both hr hw => exact ⟨hg.both hr hw hl p, hl, fun q l2 _ h => h.frame rfl rfl⟩
  wakeup := by
    intro p killed l g ch l' ha hg hl
    cases ha with
    | wakeReaders hi hf hr hk =>
      obtain ⟨h1, h2, h3, h4⟩ := hl
      exact ⟨h1, h2, h3, h4, hf, hr⟩
    | finish hi =>
      obtain ⟨h1, h2, h3, h4⟩ := hl
      refine ⟨h1, ?_⟩
      rw [h4, List.take_of_length_le (Nat.not_lt.1 hi)]
    | stop => exact hl
    | closed => exact hl
  sleep := by
    intro p killed l g ch l' ha hg hl
    cases ha with
    | sleepFull =>
      obtain ⟨h1, h2, h3, h4, -⟩ := hl
      exact ⟨h1, h2, h3, h4⟩
    | sleepEmpty => exact hl
  relock := fun _ h => waits_at h
  outside := by
    intro p g g' ho hg
    have hkeep : ∀ {g' : Pipe N}, (∀ q l, q ≠ p → At q l g → At q l g') →
        ∀ q l, q ≠ p → (At q l g → At q l g') ∧ (Waits q l g → Waits q l g') := by
      intro g' h q l hq
      refine ⟨h q l hq, fun hw => ?_⟩
      cases l with
      | write buf i before unsent => exact h q (.write buf i before unsent) hq hw
      | read n => exact h q (.read n) hq hw
      | _ => exact hw.elim
    cases ho with
    | create data hc =>
      refine ⟨hg.create hc p data, hkeep fun q l hq hl => ?_⟩
      rw [hl.created hg] at hc
      cases hc
    | share w q hp =>
      refine ⟨hg.share hp q,
        hkeep fun r l hr hl => hl.frame (fun w' h => ?_) rfl id id (fun _ => id) id⟩
      change 0 < update g.refs w _ w' r
      by_cases hw : w' = w
      · subst hw
        rw [update_self]
        by_cases hrq : r = q
        · rw [hrq, update_self]
          exact Nat.succ_pos _
        · rwa [update_of_ne hrq]
      · rwa [update_of_ne hw]
    | drop w hp =>
      refine ⟨hg.drop hp,
        hkeep fun r l hr hl => hl.frame (fun w' h => ?_) rfl id id (fun w' h => ?_) id⟩
      · change 0 < update g.refs w _ w' r
        by_cases hw : w' = w
        · subst hw
          rwa [update_self, update_of_ne hr]
        · rwa [update_of_ne hw]
      · have hw : w' ≠ w := by
          rintro rfl
          rw [((hg.ends w').refs p hp).2] at h
          cases h
        unfold Pipe.drop
        dsimp only
        split
        · rwa [update_of_ne hw]
        · exact h
    | kfree hf =>
      exact ⟨hg.kfree hf,
        hkeep fun q l hq hl => hl.frame (fun _ => id) rfl id id (fun _ => id) id⟩

/-! ## The stream -/

variable [DecidableEq κ]

/-- A pipe is a stream of bytes, for any number of readers and writers: the counters, as 32-bit
words, are at most `PIPESIZE` apart; what has been delivered, followed by what is in the ring, is
what has been stored, in this order; and a `pipewrite` that is about to return `n` has stored the
`n` bytes of its buffer, in order, since it was called. -/
theorem pipe_stream {s : St N κ Ch (Pipe N) Place} (h : Reachable pipeClient noPipe s) :
    (s.g.ring.nwrite - s.g.ring.nread).toNat ≤ PIPESIZE ∧
    s.g.delivered ++ s.g.ring.contents = s.g.stored.map Prod.snd ∧
    ∀ c p buf before, (s.cpu c).proc = some p → (s.cpu c).pc =
      .code (.inside (.written buf before)) →
      (s.g.bytesOf p).drop before = buf := by
  have ho := h.outlined pipe_outline
  refine ⟨ho.data.count, ho.data.stream, fun c p buf before hp hpc => ?_⟩
  exact ((ho.here c p hp).holding (.written buf before) (by rw [hpc]; rfl)).2

/-! ## Runs -/

omit [DecidableEq κ] in
theorem goto_goto [DecidableEq κ] {χ σ L : Type} (s : St N κ χ σ L) (c : κ) (k k' : Pc N χ L) :
    (s.goto c k).goto c k' = s.goto c k' := by
  simp [St.goto]

theorem stores {s : St N κ Ch (Pipe N) Place} {c : κ} (h : Reachable pipeClient noPipe s)
    (hp : (s.cpu c).proc = some p) (hc : (s.cpu c).pc = .code (.inside (.write buf 0 before false)))
    (n : Nat) (hn : n ≤ buf.length) (hroom : s.g.ring.count + n ≤ PIPESIZE) :
    ∃ g' unsent, Reachable pipeClient noPipe
        { s.goto c (.code (.inside (.write buf n before unsent))) with g := g' } ∧
      g'.ring.count = s.g.ring.count + n := by
  induction n with
  | zero =>
    refine ⟨s.g, false, ?_, rfl⟩
    have hs : s.goto c (.code (.inside (.write buf 0 before false))) = s := by
      rw [← hc]
      simp [St.goto]
    rw [hs]
    exact h
  | succ n ih =>
    obtain ⟨g', unsent, hr, hcount⟩ := ih (by omega) (by omega)
    have hlt : g'.ring.count < PIPESIZE := by omega
    have hact : PipeAct p (s.proc p).killed (.write buf n before unsent) g'
        (.set (g'.store p buf[n]) (.write buf (n + 1) before true)) :=
      .store hn fun hf => absurd (isFull_iff.1 hf) (Nat.ne_of_lt hlt)
    have hcount' : (g'.store p buf[n]).ring.count = s.g.ring.count + (n + 1) := by
      have := Fifo.count_push pipesize_lt hlt buf[n]
      change (g'.ring.push buf[n]).count = _
      omega
    refine ⟨g'.store p buf[n], true, ?_, hcount'⟩
    have hstep := hr.step (c := c) (Step.set (K := pipeClient) (p := p) (g := g'.store p buf[n])
      (l := .write buf n before unsent) ?_ ?_ hact)
    · have he := goto_goto s c (.code (.inside (.write buf n before unsent)))
        (.code (.inside (.write buf (n + 1) before true)))
      rw [← he]
      exact hstep
    · simpa [St.goto] using hp
    · simp [St.goto]

/-- Init writes a byte into the pipe, and its child takes it. -/
theorem pipe_stream_byte : ∃ s : St 2 (Fin 2) Ch (Pipe 2) Place, Reachable pipeClient noPipe s ∧
    s.g.stored = [(0, 7)] ∧ s.g.delivered = [7] ∧
    s.g.delivered ++ s.g.ring.contents = s.g.stored.map Prod.snd := by
  obtain ⟨⟨ptlock, lk, g, proc, cpu, _, _, _, _⟩, h, hl, hlk, hg, h0, h1, -⟩ :=
    reach_two pipeClient (g := (noPipe : Pipe 2))
    (.create (fun _ => 0) rfl) (.share true 1 (Nat.succ_pos 0)) (.share false 1 (Nat.succ_pos 0))
  dsimp only at hl hlk hg h0 h1
  subst hl hlk hg
  have hp0 : (cpu 0).proc = some 0 := by rw [h0]
  have hc0 : (cpu 0).pc = .code .user := by rw [h0]
  have hp1 : (cpu 1).proc = some 1 := by rw [h1]
  have hc1 : (cpu 1).pc = .code .user := by rw [h1]
  have hfull : ¬ (0 : BitVec 32) = 0 + BitVec.ofNat 32 PIPESIZE := by decide
  have hempty : ¬ (0 : BitVec 32) = 0 + 1 := by decide
  have h2 := (h.on 0 (.enter (p := 0) hp0 hc0 rfl (.write [7] (Nat.succ_pos 0)))).on 0
    (.set (p := 0) hp0 rfl (.store Nat.one_pos hfull))
  have h3 := ((h2.on 0 (.acquire rfl rfl (.clientWakeup 0 (Place.write [7] 1 0 true) Ch.nread
    (Place.written [7] 0) hp0 (PipeAct.finish (Nat.lt_irrefl 1))))).on 0 (.wakeup rfl)).on 0
    (.release rfl (.code _))
  have h4 := (h3.on 0 (.leave (p := 0) hp0 rfl .written)).on 1
    (.enter (p := 1) hp1 hc1 rfl (.read 1 (Nat.succ_pos 0)))
  have h5 := (h4.on 1 (.set (p := 1) hp1 rfl (.startCopy fun h => hempty h.1))).on 1
    (.set (p := 1) hp1 rfl (.take Nat.one_pos hempty))
  exact ⟨_, h5, rfl, rfl, (pipe_stream h5).2.1⟩

end Xv6.Pipes
