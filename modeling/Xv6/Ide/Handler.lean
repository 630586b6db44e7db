import Xv6.Ide.Invariant

/-!
# Steps of the device and of the interrupt handler

The device completes the command that it was given, and raises its interrupt. The handler takes the
request off the queue, and when it has set the flags of the buffer `memide.c` has served it as well.
-/

namespace Xv6.Ide

open Lib
open Function (update update_of_ne update_self)

variable {π β δ : Type} [DecidableEq β] {m0 m : Mem β δ} {l l' : List β}
  {s s' : St π β δ} {p q : π} {b : β}

variable {d : Dev δ} {dk : Nat → δ}

theorem Good.handler (h : Good m0 l m s) {c : IPc β} {k : Option (Ctx π)} {i : Bool}
    (hcur : c.cur = s.ipc.cur) (hlk : c.crit = true → k = some .intr)
    (hno : k = s.idelock ∨ ∀ p, (s.pc p).crit = false) (hwake : ∀ b, s.ipc ≠ .wake b)
    (hflags : ∀ b, s.ipc ≠ .flags b)
    (hdev : DevOk m { s with ipc := c, idelock := k, dev := d, irq := i, disk := dk }) :
    Good m0 l m { s with ipc := c, idelock := k, dev := d, irq := i, disk := dk } := by
  have hpend : c.cur ++ l = s.pending l := by rw [hcur, St.pending]
  refine ⟨hlk, h.chain, ?_, ?_, fun q => ?_, fun b hb => ?_, h.replay, h.requests,
    fun b _ => h.bufs b (hflags b), hdev⟩
  · show (c.cur ++ l).Nodup
    rw [hpend]
    exact h.nodup
  · show s.queued = s.served ++ (c.cur ++ l)
    rw [hpend]
    exact h.hist
  · refine (h.pcs q).frame rfl (fun _ _ => rfl) (fun hc => ⟨?_, rfl, rfl⟩) (fun b _ => ?_)
      (fun _ _ => ⟨rfl, id⟩) fun b _ hw => absurd hw (hwake b)
    · rcases hno with hno | hno
      · exact hno
      · rw [hno q] at hc
        cases hc
    · show b ∈ c.cur ++ l ↔ _
      rw [hpend]
  · have hb' : b ∈ c.cur ++ l := hb
    rw [hpend] at hb'
    exact h.todo b hb'

variable {n : Nat} {o : Option δ}

omit [DecidableEq β] in
theorem Completed.not_running (h : Completed dk s b) : s.dev ≠ .running n o := by
  intro hd
  cases hb : (s.buf b).dirty with
  | true =>
    rw [(h.written hb).1] at hd
    cases hd
  | false =>
    rw [(h.fetched hb).1] at hd
    cases hd

theorem Good.running (h : Good m0 l m s) (hd : s.dev = .running n o) :
    ∃ b, s.idequeue = some b ∧ Running m.disk s b ∧ (s.ipc = .idle ∨ s.ipc = .rel) := by
  have hquiet : ¬ Quiet m.disk s := fun hq => by
    rw [hq.dev] at hd
    cases hd
  have hworks : Works m.disk s → ∃ b, s.idequeue = some b ∧ Running m.disk s b := by
    unfold Works
    cases hq : s.idequeue with
    | none => exact fun h => absurd h hquiet
    | some b =>
      rintro (⟨h, -⟩ | h | ⟨h, -⟩)
      · exact absurd h hquiet
      · exact ⟨b, rfl, h⟩
      · exact absurd hd h.not_running
  have hdev := h.dev
  unfold DevOk at hdev
  cases hi : s.ipc with
  | idle =>
    simp only [hi] at hdev
    obtain ⟨b, hb, hr⟩ := hworks hdev
    exact ⟨b, hb, hr, .inl rfl⟩
  | rel =>
    simp only [hi] at hdev
    obtain ⟨b, hb, hr⟩ := hworks hdev
    exact ⟨b, hb, hr, .inr rfl⟩
  | acq =>
    simp only [hi] at hdev
    obtain ⟨b, -, hc, -⟩ := hdev
    exact absurd hd hc.not_running
  | take =>
    simp only [hi] at hdev
    obtain ⟨b, -, hc, -⟩ := hdev
    exact absurd hd hc.not_running
  | read b =>
    simp only [hi] at hdev
    exact absurd hd hdev.1.not_running
  | flags b =>
    simp only [hi] at hdev
    rw [hdev.1] at hd
    cases hd
  | wake b =>
    simp only [hi] at hdev
    exact absurd hdev hquiet
  | next =>
    simp only [hi] at hdev
    exact absurd hdev hquiet

theorem idestart_eq {x : Buf δ} (h : idestart x = .ok (.running n o)) :
    n = x.blockno ∧ o = if x.dirty then some x.data else none := by
  unfold idestart at h
  split at h
  · cases h
  · cases h
    exact ⟨rfl, rfl⟩

section

variable (h : Good m0 l m s)

include h

theorem Good.complete (hrun : ∃ n o, s.dev = .running n o)
    (hc : ∀ b, Running m.disk s b → Completed m.disk { s with dev := d, irq := true, disk := dk }
      b) :
    Good m0 l m { s with dev := d, irq := true, disk := dk } := by
  obtain ⟨n, o, hd⟩ := hrun
  obtain ⟨b, hb, hr, hi⟩ := h.running hd
  refine h.handler (c := s.ipc) (k := s.idelock) rfl h.lockI (.inl rfl) (fun b' hw => ?_)
    (fun b' hf => ?_) ?_
  · rw [hw] at hi
    rcases hi with hi | hi <;> cases hi
  · rw [hf] at hi
    rcases hi with hi | hi <;> cases hi
  · refine DevOk.of_works hi ((works_iff (b := b) ?_).2 (.inr (.inr ⟨hc b hr, rfl⟩)))
    exact hb

variable {v : δ}

theorem Good.write (hd : s.dev = .running n (some v)) :
    Good m0 l m { s with disk := update s.disk n v, dev := .idle, irq := true } := by
  refine h.complete ⟨n, some v, hd⟩ fun b hr => ?_
  have hcmd := hr.dev
  rw [hd] at hcmd
  obtain ⟨rfl, hv⟩ := idestart_eq hcmd
  refine ⟨hr.started, fun hdirty => ⟨rfl, ?_⟩, fun hdirty => ?_⟩
  · rw [if_pos hdirty] at hv
    cases hv
    rw [hr.disk]
  · have hf : (s.buf b).dirty = false := hdirty
    rw [hf] at hv
    cases hv

theorem Good.fetch (hd : s.dev = .running n none) :
    Good m0 l m { s with dev := .ready (s.disk n), irq := true } := by
  refine h.complete ⟨n, none, hd⟩ fun b hr => ?_
  have hcmd := hr.dev
  rw [hd] at hcmd
  obtain ⟨rfl, hv⟩ := idestart_eq hcmd
  refine ⟨hr.started, fun hdirty => ?_, fun hdirty => ⟨?_, hr.disk⟩⟩
  · have hf : (s.buf b).dirty = true := hdirty
    rw [hf] at hv
    cases hv
  · rw [hr.disk]

theorem Good.intr (hi : s.ipc = .idle) (hirq : s.irq = true) :
    Good m0 l m { s with ipc := .acq, irq := false } := by
  have hdev : Works m.disk s := by
    have := h.dev
    unfold DevOk at this
    rwa [hi] at this
  have hquiet : ¬ Quiet m.disk s := fun hq => by
    rw [hq.irq] at hirq
    cases hirq
  obtain ⟨b, hb, hc⟩ : ∃ b, s.idequeue = some b ∧ Completed m.disk s b := by
    cases hq : s.idequeue with
    | none => exact absurd ((works_iff_quiet hq).1 hdev) hquiet
    | some b =>
      rcases (works_iff hq).1 hdev with ⟨hdev, -⟩ | hdev | ⟨hdev, -⟩
      · exact absurd hdev hquiet
      · rw [hdev.irq] at hirq
        cases hirq
      · exact ⟨b, rfl, hdev⟩
  refine h.handler (c := .acq) (k := s.idelock) (by rw [hi]; rfl) nofun (.inl rfl)
    (by rw [hi]; exact nofun) (by rw [hi]; exact nofun) ?_
  exact ⟨b, hb, hc.congr rfl rfl rfl hc.started, rfl⟩

theorem Good.iacquire (hi : s.ipc = .acq) (hl : s.idelock = none) :
    Good m0 l m { s with ipc := .take, idelock := some .intr } := by
  have hdev := h.dev
  simp only [DevOk, hi] at hdev
  obtain ⟨b, hb, hc, hirq⟩ := hdev
  refine h.handler (c := .take) (k := some .intr) (by rw [hi]; rfl) (fun _ => rfl)
    (.inr fun p => h.not_crit (by rw [hl]; exact nofun)) (by rw [hi]; exact nofun)
    (by rw [hi]; exact nofun) ?_
  exact ⟨b, hb, hc.congr rfl rfl rfl hc.started, hirq⟩

theorem Good.no_crit (hi : s.ipc.crit = true) (p : π) : (s.pc p).crit = false :=
  h.not_crit (by rw [h.lockI hi]; exact nofun)

theorem Good.take (hi : s.ipc = .take) (hq : s.idequeue = some b) :
    Good m0 l.tail m { s with ipc := .read b, idequeue := s.qnext b } := by
  have hlk := h.lockI (by rw [hi]; rfl)
  have hdev := h.dev
  simp only [DevOk, hi] at hdev
  obtain ⟨b', hb', hc, hirq⟩ := hdev
  rw [hq] at hb'
  cases hb'
  obtain ⟨t, rfl⟩ : ∃ t, l = b :: t := by
    cases l with
    | nil =>
      have := h.chain.head
      rw [hq] at this
      cases this
    | cons a t =>
      have := h.chain.1
      rw [hq] at this
      cases this
      exact ⟨t, rfl⟩
  have hpend : s.pending (b :: t) = [b] ++ t := by simp [St.pending, hi, IPc.cur]
  refine ⟨fun _ => hlk, h.chain.2, ?_, ?_, fun q => ?_, fun b' hb' => ?_, h.replay, h.requests,
    fun b' _ => h.bufs b' (by simp [hi]), ?_⟩
  · have := h.nodup
    rw [hpend] at this
    exact this
  · have := h.hist
    rw [hpend] at this
    exact this
  · refine (h.pcs q).frame rfl (fun _ _ => rfl) (fun hcr => ?_) (fun b' _ => ?_)
      (fun _ _ => ⟨rfl, id⟩) fun b' _ hw => ?_
    · rw [h.no_crit (by rw [hi]; rfl) q] at hcr
      cases hcr
    · rw [hpend]
      exact Iff.rfl
    · rw [hi] at hw
      cases hw
  · refine h.todo b' ?_
    rw [hpend]
    exact hb'
  · exact ⟨hc.congr rfl rfl rfl hc.started, hirq⟩

theorem Good.skip (hi : s.ipc = .read b) (hd : (s.buf b).dirty = true) :
    Good m0 l m { s with ipc := .flags b } := by
  have hdev := h.dev
  simp only [DevOk, hi] at hdev
  obtain ⟨hc, hirq⟩ := hdev
  have hlk := h.lockI (by rw [hi]; rfl)
  refine h.handler (c := .flags b) (k := s.idelock) (by rw [hi]; rfl) (fun _ => hlk) (.inl rfl)
    (by rw [hi]; exact nofun) (by rw [hi]; exact nofun) ?_
  refine ⟨(hc.written hd).1, hirq, fun _ => ⟨?_, (hc.written hd).2⟩, fun hf => ?_⟩
  · exact (h.bufs b (by rw [hi]; exact nofun)).symm
  · have hf' : (s.buf b).dirty = false := hf
    rw [hd] at hf'
    cases hf'

theorem Good.insl (hi : s.ipc = .read b) (hd : (s.buf b).dirty = false)
    (hv : ∀ w, s.dev = .ready w → v = w) :
    Good m0 l m { s.setBuf b { s.buf b with data := v } with ipc := .flags b, dev := .idle } := by
  have hdev := h.dev
  simp only [DevOk, hi] at hdev
  obtain ⟨hc, hirq⟩ := hdev
  obtain ⟨hready, hdisk⟩ := hc.fetched hd
  have hlk := h.lockI (by rw [hi]; rfl)
  have hbuf : ∀ b', (update s.buf b { s.buf b with data := v } b').done = (s.buf b').done ∧
      (Todo (s.buf b') → Todo (update s.buf b { s.buf b with data := v } b')) := by
    intro b'
    by_cases hb : b' = b
    · subst hb
      rw [update_self]
      exact ⟨rfl, fun ht => ⟨ht.notDone, ht.dev, ht.blockno⟩⟩
    · rw [update_of_ne hb]
      exact ⟨rfl, id⟩
  have hpend : s.pending l = [b] ++ l := by rw [St.pending, hi]; rfl
  refine ⟨fun _ => hlk, h.chain, ?_, ?_, fun q => ?_, fun b' hb' => ?_, h.replay, h.requests,
    fun b' hb' => ?_, rfl, hirq, fun hf => ?_, fun _ => ?_⟩
  · have := h.nodup
    rw [hpend] at this
    exact this
  · have := h.hist
    rw [hpend] at this
    exact this
  · refine (h.pcs q).frame rfl (fun _ _ => rfl) (fun _ => ⟨rfl, rfl, rfl⟩) (fun b' _ => ?_)
      (fun b' _ => hbuf b') fun b' _ hw => ?_
    · rw [hpend]
      exact Iff.rfl
    · rw [hi] at hw
      cases hw
  · obtain ⟨ht, hw⟩ := h.todo b' (by rw [hpend]; exact hb')
    exact ⟨(hbuf b').2 ht, hw⟩
  · have hne : b' ≠ b := fun hbb => hb' (by rw [hbb])
    exact (update_of_ne hne _ _).trans (h.bufs b' (by rw [hi]; exact nofun))
  · have hf' : (update s.buf b { s.buf b with data := v } b).dirty = true := hf
    rw [update_self] at hf'
    rw [show (s.buf b).dirty = true from hf'] at hd
    cases hd
  · show m.buf b = { update s.buf b { s.buf b with data := v } b with
        data := (m.buf b).data } ∧ s.disk = m.disk ∧
      (update s.buf b { s.buf b with data := v } b).data =
        m.disk (update s.buf b { s.buf b with data := v } b).blockno
    rw [update_self, ← h.bufs b (by rw [hi]; exact nofun)]
    exact ⟨rfl, hdisk, hv _ hready⟩

theorem Good.serve (hi : s.ipc = .flags b) :
    ∃ m', Memide.iderw FSSIZE true b m = .ok m' ∧ m'.disk = s.disk ∧
      m'.buf = update m.buf b { s.buf b with valid := true, dirty := false } := by
  have hdev := h.dev
  simp only [DevOk, hi] at hdev
  obtain ⟨-, -, hdirty, hclean⟩ := hdev
  obtain ⟨ht, -⟩ := h.todo b (by simp [St.pending, hi, IPc.cur])
  unfold Memide.iderw
  cases hd : (s.buf b).dirty with
  | true =>
    obtain ⟨hm, hdisk⟩ := hdirty hd
    rw [hm]
    dsimp only
    rw [if_neg (by decide), if_neg (by rw [ht.notDone]; decide), if_neg (not_not.2 ht.dev),
      if_neg (not_le.2 ht.blockno), if_pos hd]
    exact ⟨_, rfl, hdisk.symm, rfl⟩
  | false =>
    obtain ⟨hm, hdisk, hdata⟩ := hclean hd
    have hdone : (m.buf b).done = false := by
      rw [hm]
      exact ht.notDone
    have hmdev : (m.buf b).dev = 1 := by
      rw [hm]
      exact ht.dev
    have hmblk : (m.buf b).blockno = (s.buf b).blockno := by rw [hm]
    have hmd : (m.buf b).dirty = false := by
      rw [hm]
      exact hd
    dsimp only
    rw [if_neg (by decide), if_neg (by rw [hdone]; decide), if_neg (not_not.2 hmdev),
      if_neg (by rw [hmblk]; exact not_le.2 ht.blockno), if_neg (by rw [hmd]; decide)]
    refine ⟨_, rfl, hdisk.symm, ?_⟩
    dsimp only
    rw [hmblk, ← hdata, hm, ← hd]

theorem Good.flags (hi : s.ipc = .flags b) :
    ∃ m', Good m0 l m' { s.setBuf b { s.buf b with valid := true, dirty := false } with
      ipc := .wake b, served := s.served ++ [b], log := s.log ++ [.rw b] } := by
  obtain ⟨m', hserve, hdisk, hbufs⟩ := h.serve hi
  have hdev := h.dev
  simp only [DevOk, hi] at hdev
  have hlk := h.lockI (by rw [hi]; rfl)
  have hpend : s.pending l = b :: l := by rw [St.pending, hi]; rfl
  obtain ⟨hbl, hnd⟩ := List.nodup_cons.1 (hpend ▸ h.nodup)
  have hb : b ∈ s.pending l := hpend ▸ List.mem_cons_self
  have hbuf : ∀ b', b' ≠ b → update s.buf b { s.buf b with valid := true, dirty := false } b'
      = s.buf b' := fun b' hb' => update_of_ne hb' _ _
  refine ⟨m', fun _ => hlk, h.chain, hnd, ?_, fun q => ?_, fun b' hb' => ?_, ?_, ?_, fun b' _ => ?_,
    hdev.1, hdev.2.1, hdisk.symm⟩
  · show s.queued = (s.served ++ [b]) ++ ([] ++ l)
    rw [h.hist, hpend, List.append_assoc]
    rfl
  · have hq := h.pcs q
    have hncrit := h.no_crit (by rw [hi]; rfl) q
    by_cases hqb : (s.pc q).buf = some b
    · -- the process that waits for this request
      unfold PcOk at hq ⊢
      simp only [St.setBuf]
      cases hc : s.pc q with
      | out => trivial
      | enter b' =>
        rw [hc] at hqb
        cases hqb
        simp only [hc] at hq
        exact absurd hb hq.2.1
      | asleep b' =>
        rw [hc] at hqb
        cases hqb
        simp only [hc] at hq
        refine ⟨hq.1, .inr ⟨rfl, ?_⟩⟩
        rw [update_self]
        rfl
      | woken b' =>
        rw [hc] at hqb
        cases hqb
        simp only [hc] at hq
        refine ⟨hq.1, .inr ?_⟩
        rw [update_self]
        rfl
      | _ =>
        rw [hc] at hncrit
        cases hncrit
    · refine hq.frame rfl (fun _ _ => rfl) (fun hc => ?_) (fun b' hb' => ?_) (fun b' hb' => ?_)
        fun b' _ hw => ?_
      · rw [hncrit] at hc
        cases hc
      · have hne : b' ≠ b := fun hbb => hqb (hbb ▸ hb')
        show b' ∈ [] ++ l ↔ _
        rw [hpend, List.mem_cons, or_iff_right hne]
        exact Iff.rfl
      · have hne : b' ≠ b := fun hbb => hqb (hbb ▸ hb')
        show (update s.buf b _ b').done = _ ∧ (_ → Todo (update s.buf b _ b'))
        rw [hbuf b' hne]
        exact ⟨rfl, id⟩
      · rw [hi] at hw
        cases hw
  · have hb'' : b' ∈ l := hb'
    obtain ⟨ht, hw⟩ := h.todo b' (hpend ▸ List.mem_cons_of_mem b hb'')
    refine ⟨?_, hw⟩
    show Todo (update s.buf b _ b')
    rwa [hbuf b' fun hbb => hbl (hbb ▸ hb'')]
  · show (s.log ++ [Event.rw b]).foldlM Memide.act m0 = _
    rw [List.foldlM_append, h.replay]
    exact (bind_pure _).trans hserve
  · show (s.log ++ [Event.rw b]).filterMap Event.request = s.served ++ [b]
    rw [List.filterMap_append, h.requests]
    rfl
  · show update s.buf b _ b' = m'.buf b'
    rw [hbufs]
    by_cases hbb : b' = b
    · rw [hbb, update_self, update_self]
    · rw [update_of_ne hbb, update_of_ne hbb]
      refine h.bufs b' ?_
      rw [hi]
      intro hc
      cases hc
      exact hbb rfl

theorem Good.wakeup (hi : s.ipc = .wake b) : Good m0 l m { s.wakeup b with ipc := .next } := by
  have hdev := h.dev
  simp only [DevOk, hi] at hdev
  have hlk := h.lockI (by rw [hi]; rfl)
  have hpend : s.pending l = l := by rw [St.pending, hi]; rfl
  have hpc : ∀ q, s.pc q ≠ .asleep b → (s.wakeup b).pc q = s.pc q := by
    intro q hq
    unfold St.wakeup
    cases hc : s.pc q <;> simp only [hc]
    exact if_neg fun hbb => hq (by rw [hc, hbb])
  have hpc' : ∀ q, s.pc q = .asleep b → (s.wakeup b).pc q = .woken b := by
    intro q hq
    unfold St.wakeup
    simp only [hq, if_true]
  refine ⟨fun _ => hlk, h.chain, ?_, ?_, fun q => ?_, fun b' hb' => ?_, h.replay, h.requests,
    fun b' _ => h.bufs b' (by rw [hi]; exact nofun), hdev.dev, hdev.irq, hdev.disk⟩
  · exact hpend ▸ h.nodup
  · show s.queued = s.served ++ l
    rw [h.hist, hpend]
  · by_cases hq : s.pc q = .asleep b
    · have hok := h.pcs q
      unfold PcOk at hok ⊢
      simp only [hq] at hok
      rw [show ({ s.wakeup b with ipc := .next } : St π β δ).pc q = .woken b from hpc' q hq]
      refine ⟨hok.1, hok.2.imp (fun hin => ?_) And.right⟩
      rw [hpend] at hin
      exact hin
    · refine (h.pcs q).frame (hpc q hq) (fun _ _ => rfl) (fun _ => ⟨rfl, rfl, rfl⟩) (fun b' _ => ?_)
        (fun _ _ => ⟨rfl, id⟩) fun b' hb' hw => ?_
      · rw [hpend]
        exact Iff.rfl
      · rw [hi] at hw
        cases hw
        exact absurd hb' hq
  · obtain ⟨ht, q, hw⟩ := h.todo b' (by rw [hpend]; exact hb')
    refine ⟨ht, q, ?_⟩
    show ((s.wakeup b).pc q).waits b'
    by_cases hq : s.pc q = .asleep b
    · rw [hq] at hw
      cases hw.buf
      rw [hpc' q hq]
      exact .inr (.inr (.inr rfl))
    · rw [hpc q hq]
      exact hw

theorem Good.next (hi : s.ipc = .next) (hq : s.idequeue = some b)
    (hd : idestart (s.buf b) = .ok d) :
    Good m0 l m { s with ipc := .rel, dev := d } := by
  have hdev := h.dev
  simp only [DevOk, hi] at hdev
  have hlk := h.lockI (by rw [hi]; rfl)
  have hcrit := h.no_crit (by rw [hi]; rfl)
  have hrun : Running m.disk { s with ipc := .rel, dev := d } b := by
    refine ⟨fun p hs => ?_, hd, hdev.irq, hdev.disk⟩
    have := hcrit p
    rw [show s.pc p = .start b from hs] at this
    cases this
  refine h.handler (c := .rel) (k := s.idelock) (by rw [hi]; rfl) (fun _ => hlk) (.inl rfl)
    (by rw [hi]; exact nofun) (by rw [hi]; exact nofun) (DevOk.of_works (.inr rfl) ?_)
  refine (works_iff ?_).2 (.inr (.inl hrun))
  exact hq

theorem Good.noNext (hi : s.ipc = .next) (hq : s.idequeue = none) :
    Good m0 l m { s with ipc := .rel } := by
  have hdev := h.dev
  simp only [DevOk, hi] at hdev
  have hlk := h.lockI (by rw [hi]; rfl)
  refine h.handler (c := .rel) (k := s.idelock) (by rw [hi]; rfl) (fun _ => hlk) (.inl rfl)
    (by rw [hi]; exact nofun) (by rw [hi]; exact nofun) ?_
  refine DevOk.of_works (.inr rfl) ((works_iff_quiet ?_).2 ⟨hdev.dev, hdev.irq, hdev.disk⟩)
  exact hq

theorem Good.irelease (hi : s.ipc = .rel) :
    Good m0 l m { s with ipc := .idle, idelock := none } := by
  have hworks : Works m.disk s := by
    have := h.dev
    unfold DevOk at this
    rwa [hi] at this
  refine h.handler (c := .idle) (k := none) (by rw [hi]; rfl) nofun
    (.inr (h.no_crit (by rw [hi]; rfl))) (by rw [hi]; exact nofun) (by rw [hi]; exact nofun) ?_
  exact DevOk.of_works (.inl rfl) (hworks.congr rfl rfl rfl rfl (fun _ _ => rfl) fun _ _ => Iff.rfl)

end

end Xv6.Ide
