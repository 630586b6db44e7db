import Xv6.Ide.Model

/-!
# What holds in every state of the driver

The requests that the driver has completed are a prefix of those that were queued, and the rest is
what is linked in the queue, with the request that the interrupt handler has taken off in front. The
device works on the head of the queue. When a request is completed, `memide.c` serves the same
request at once: then the buffers that no request is pending for agree, and so does the disk when
there is no request at all.
-/

namespace Xv6.Ide

open Lib

variable {π β δ : Type}

/-! ## The invariant -/

/-- The buffer of a process in `iderw`. -/
def Pc.buf : Pc β → Option β
  | .out => none
  | .enter b | .walk b _ | .start b | .test b | .asleep b | .woken b | .fin b => some b

/-- The process holds `idelock`. -/
def Pc.crit : Pc β → Bool
  | .walk _ _ | .start _ | .test _ | .fin _ => true
  | _ => false

/-- The process waits for its request on `b`. -/
def Pc.waits (c : Pc β) (b : β) : Prop := c = .start b ∨ c = .test b ∨ c = .asleep b ∨ c = .woken b

/-- The handler holds `idelock`. -/
def IPc.crit : IPc β → Bool
  | .idle | .acq => false
  | _ => true

/-- The request that the handler has taken off the queue and not completed. -/
def IPc.cur : IPc β → List β
  | .read b | .flags b => [b]
  | _ => []

structure Todo (x : Buf δ) : Prop where
  notDone : x.done = false
  dev : x.dev = 1
  blockno : x.blockno < FSSIZE

/-- The pending requests, if the queue is `l`. -/
def St.pending (s : St π β δ) (l : List β) : List β := s.ipc.cur ++ l

def PcOk (s : St π β δ) (l : List β) (p : π) : Prop :=
  match s.pc p with
  | .out => True
  | .enter b => s.holder b = some p ∧ b ∉ s.pending l ∧ Todo (s.buf b)
  | .walk b pp => s.holder b = some p ∧ s.idelock = some (.proc p) ∧ b ∉ s.pending l ∧
      Todo (s.buf b) ∧ s.qnext b = none ∧ ∃ l1 l2, l = l1 ++ l2 ∧ pp = l1.getLast?
  | .start b => s.holder b = some p ∧ s.idelock = some (.proc p) ∧ b ∈ l
  | .test b => s.holder b = some p ∧ s.idelock = some (.proc p) ∧
      (b ∈ s.pending l ∨ (s.buf b).done = true)
  | .asleep b => s.holder b = some p ∧ (b ∈ s.pending l ∨ s.ipc = .wake b ∧ (s.buf b).done = true)
  | .woken b => s.holder b = some p ∧ (b ∈ s.pending l ∨ (s.buf b).done = true)
  | .fin b => s.holder b = some p ∧ s.idelock = some (.proc p) ∧ b ∉ s.pending l ∧
      (s.buf b).done = true

/-- The device has nothing to do, and its disk is `dk`, that of `memide.c`. -/
structure Quiet (dk : Nat → δ) (s : St π β δ) : Prop where
  dev : s.dev = .idle
  irq : s.irq = false
  disk : s.disk = dk

/-- The device works on the request for `b`. -/
structure Running (dk : Nat → δ) (s : St π β δ) (b : β) : Prop where
  started : ∀ p, s.pc p ≠ .start b
  dev : idestart (s.buf b) = .ok s.dev
  irq : s.irq = false
  disk : s.disk = dk

/-- The device is ready with the request for `b`. -/
structure Completed (dk : Nat → δ) (s : St π β δ) (b : β) : Prop where
  started : ∀ p, s.pc p ≠ .start b
  written : (s.buf b).dirty = true → s.dev = .idle ∧
    s.disk = Function.update dk (s.buf b).blockno (s.buf b).data
  fetched : (s.buf b).dirty = false → s.dev = .ready (dk (s.buf b).blockno) ∧ s.disk = dk

/-- The device works on the head of the queue, if it has been told to. -/
def Works (dk : Nat → δ) (s : St π β δ) : Prop :=
  match s.idequeue with
  | none => Quiet dk s
  | some b => (Quiet dk s ∧ ∃ p, s.pc p = .start b) ∨ Running dk s b ∨
      (Completed dk s b ∧ s.irq = true)

def DevOk (m : Mem β δ) (s : St π β δ) : Prop :=
  match s.ipc with
  | .idle | .rel => Works m.disk s
  | .acq | .take => ∃ b, s.idequeue = some b ∧ Completed m.disk s b ∧ s.irq = false
  | .read b => Completed m.disk s b ∧ s.irq = false
  | .flags b => s.dev = .idle ∧ s.irq = false ∧
      ((s.buf b).dirty = true → m.buf b = s.buf b ∧
        s.disk = Function.update m.disk (s.buf b).blockno (s.buf b).data) ∧
      ((s.buf b).dirty = false → m.buf b = { s.buf b with data := (m.buf b).data } ∧
        s.disk = m.disk ∧ (s.buf b).data = m.disk (s.buf b).blockno)
  | .wake _ | .next => Quiet m.disk s

def St.active (s : St π β δ) (b : β) : Prop := s.idequeue = some b ∨ b ∈ s.ipc.cur

variable [DecidableEq β]

/-- The invariant, with the queue `l` and the state `m` that `memide.c` would have. -/
structure Good (m0 : Mem β δ) (l : List β) (m : Mem β δ) (s : St π β δ) : Prop where
  lockI : s.ipc.crit = true → s.idelock = some .intr
  chain : Chain s.qnext s.idequeue l
  nodup : (s.pending l).Nodup
  hist : s.queued = s.served ++ s.pending l
  pcs : ∀ p, PcOk s l p
  todo : ∀ b ∈ s.pending l, Todo (s.buf b) ∧ ∃ p, (s.pc p).waits b
  replay : s.log.foldlM Memide.act m0 = .ok m
  requests : s.log.filterMap Event.request = s.served
  bufs : ∀ b, s.ipc ≠ .flags b → s.buf b = m.buf b
  dev : DevOk m s

variable {m0 m : Mem β δ} {l l' : List β} {s s' : St π β δ} {p q : π} {b : β}

/-! ## Frames -/

section
omit [DecidableEq β]

theorem PcOk.frame (h : PcOk s l p) (hpc : s'.pc p = s.pc p)
    (hh : ∀ b, (s.pc p).buf = some b → s'.holder b = s.holder b)
    (hl : (s.pc p).crit = true → s'.idelock = s.idelock ∧ s'.qnext = s.qnext ∧ l' = l)
    (hQ : ∀ b, (s.pc p).buf = some b → (b ∈ s'.pending l' ↔ b ∈ s.pending l))
    (hb : ∀ b, (s.pc p).buf = some b →
      (s'.buf b).done = (s.buf b).done ∧ (Todo (s.buf b) → Todo (s'.buf b)))
    (hw : ∀ b, s.pc p = .asleep b → s.ipc = .wake b → s'.ipc = .wake b) : PcOk s' l' p := by
  unfold PcOk at h ⊢
  rw [hpc]
  cases hc : s.pc p with
  | out => trivial
  | enter b =>
    simp only [hc] at h
    simp only [hc, Pc.buf, Option.some.injEq, forall_eq'] at hh hQ hb
    dsimp only
    rw [hh, hQ]
    exact ⟨h.1, h.2.1, hb.2 h.2.2⟩
  | walk b pp =>
    simp only [hc] at h
    simp only [hc, Pc.buf, Option.some.injEq, forall_eq'] at hh hQ hb
    obtain ⟨h1, h2, rfl⟩ := hl (by rw [hc]; rfl)
    dsimp only
    rw [hh, hQ, h1, h2]
    exact ⟨h.1, h.2.1, h.2.2.1, hb.2 h.2.2.2.1, h.2.2.2.2⟩
  | start b =>
    simp only [hc] at h
    simp only [hc, Pc.buf, Option.some.injEq, forall_eq'] at hh
    obtain ⟨h1, h2, rfl⟩ := hl (by rw [hc]; rfl)
    dsimp only
    rw [hh, h1]
    exact h
  | test b =>
    simp only [hc] at h
    simp only [hc, Pc.buf, Option.some.injEq, forall_eq'] at hh hQ hb
    obtain ⟨h1, h2, rfl⟩ := hl (by rw [hc]; rfl)
    dsimp only
    rw [hh, hQ, hb.1, h1]
    exact h
  | asleep b =>
    simp only [hc] at h
    simp only [hc, Pc.buf, Option.some.injEq, forall_eq'] at hh hQ hb
    dsimp only
    rw [hh, hQ, hb.1]
    exact ⟨h.1, h.2.imp_right fun h => ⟨hw b hc h.1, h.2⟩⟩
  | woken b =>
    simp only [hc] at h
    simp only [hc, Pc.buf, Option.some.injEq, forall_eq'] at hh hQ hb
    dsimp only
    rw [hh, hQ, hb.1]
    exact h
  | fin b =>
    simp only [hc] at h
    simp only [hc, Pc.buf, Option.some.injEq, forall_eq'] at hh hQ hb
    obtain ⟨h1, h2, rfl⟩ := hl (by rw [hc]; rfl)
    dsimp only
    rw [hh, hQ, hb.1, h1]
    exact h

theorem PcOk.holder (h : PcOk s l p) (hb : (s.pc p).buf = some b) : s.holder b = some p := by
  unfold PcOk at h
  cases hc : s.pc p <;> rw [hc] at hb <;> simp only [hc] at h <;> cases hb <;> exact h.1

theorem PcOk.lock (h : PcOk s l p) (hb : (s.pc p).crit = true) : s.idelock = some (.proc p) := by
  unfold PcOk at h
  cases hc : s.pc p <;> rw [hc] at hb <;> simp only [hc] at h <;> cases hb <;> exact h.2.1

theorem Pc.waits.buf {c : Pc β} (h : c.waits b) : c.buf = some b := by
  rcases h with rfl | rfl | rfl | rfl <;> rfl

end

namespace Good

variable (h : Good m0 l m s)
include h

theorem not_crit (hl : s.idelock ≠ some (.proc p)) : (s.pc p).crit = false := by
  cases hc : (s.pc p).crit with
  | false => rfl
  | true => exact absurd ((h.pcs p).lock hc) hl

theorem not_icrit (hl : s.idelock ≠ some .intr) : s.ipc.crit = false := by
  cases hc : s.ipc.crit with
  | false => rfl
  | true => exact absurd (h.lockI hc) hl

theorem not_pending (hb : s.holder b = some p) (hp : (s.pc p).buf ≠ some b) :
    b ∉ s.pending l := by
  intro hin
  obtain ⟨-, q, hq⟩ := h.todo b hin
  have := (h.pcs q).holder hq.buf
  rw [hb] at this
  cases this
  exact hp hq.buf

theorem holder_ne (hb : s.holder b = some p) (hq : q ≠ p) : (s.pc q).buf ≠ some b := by
  intro hc
  have := (h.pcs q).holder hc
  rw [hb] at this
  cases this
  exact hq rfl

end Good

variable {dk : Nat → δ}

section
omit [DecidableEq β]

theorem Completed.congr (h : Completed dk s b) (hb : s'.buf b = s.buf b) (hdev : s'.dev = s.dev)
    (hdisk : s'.disk = s.disk) (hst : ∀ p, s'.pc p ≠ .start b) : Completed dk s' b := by
  refine ⟨hst, ?_, ?_⟩
  · rw [hb, hdev, hdisk]
    exact h.written
  · rw [hb, hdev, hdisk]
    exact h.fetched

theorem Quiet.congr (h : Quiet dk s) (hdev : s'.dev = s.dev) (hirq : s'.irq = s.irq)
    (hdisk : s'.disk = s.disk) : Quiet dk s' :=
  ⟨hdev ▸ h.dev, hirq ▸ h.irq, hdisk ▸ h.disk⟩

theorem Works.congr (h : Works dk s) (hq : s'.idequeue = s.idequeue) (hdev : s'.dev = s.dev)
    (hirq : s'.irq = s.irq) (hdisk : s'.disk = s.disk)
    (hbuf : ∀ b, s.idequeue = some b → s'.buf b = s.buf b)
    (hstart : ∀ b, s.idequeue = some b → ((∃ p, s'.pc p = .start b) ↔ ∃ p, s.pc p = .start b)) :
    Works dk s' := by
  unfold Works at h ⊢
  rw [hq]
  cases hh : s.idequeue with
  | none =>
    rw [hh] at h
    exact Quiet.congr h hdev hirq hdisk
  | some b =>
    rw [hh] at h
    have hst : (∀ p, s.pc p ≠ .start b) → ∀ p, s'.pc p ≠ .start b := by
      intro hno p hp
      obtain ⟨q, hq⟩ := (hstart b hh).1 ⟨p, hp⟩
      exact hno q hq
    rcases h with ⟨hqu, hp⟩ | hr | ⟨hc, hi⟩
    · exact .inl ⟨hqu.congr hdev hirq hdisk, (hstart b hh).2 hp⟩
    · refine .inr (.inl ⟨hst hr.started, ?_, hirq ▸ hr.irq, hdisk ▸ hr.disk⟩)
      rw [hbuf b hh, hdev]
      exact hr.dev
    · exact .inr (.inr ⟨hc.congr (hbuf b hh) hdev hdisk (hst hc.started), hirq ▸ hi⟩)

theorem DevOk.congr (h : DevOk m s) (hipc : s'.ipc = s.ipc) (hq : s'.idequeue = s.idequeue)
    (hdev : s'.dev = s.dev) (hirq : s'.irq = s.irq) (hdisk : s'.disk = s.disk)
    (hbuf : ∀ b, s.active b → s'.buf b = s.buf b)
    (hstart : ∀ p b, s'.pc p = .start b → s.active b → ∃ q, s.pc q = .start b)
    (hhead : ∀ p b, s.idequeue = some b → s.pc p = .start b → ∃ q, s'.pc q = .start b) :
    DevOk m s' := by
  have hquiet : Quiet m.disk s → Quiet m.disk s' := fun h => h.congr hdev hirq hdisk
  have hcomp : ∀ b, s.active b → Completed m.disk s b → Completed m.disk s' b := by
    intro b hb hc
    refine hc.congr (hbuf b hb) hdev hdisk fun p hp => ?_
    obtain ⟨q, hq⟩ := hstart p b hp hb
    exact hc.started q hq
  have hworks : Works m.disk s → Works m.disk s' := fun h =>
    h.congr hq hdev hirq hdisk (fun b hb => hbuf b (.inl hb)) fun b hb =>
      ⟨fun ⟨p, hp⟩ => hstart p b hp (.inl hb), fun ⟨p, hp⟩ => hhead p b hb hp⟩
  unfold DevOk at h ⊢
  rw [hipc]
  cases hc : s.ipc with
  | idle =>
    simp only [hc] at h
    exact hworks h
  | rel =>
    simp only [hc] at h
    exact hworks h
  | acq =>
    simp only [hc] at h
    obtain ⟨b, hb, hcm, hi⟩ := h
    exact ⟨b, hq.trans hb, hcomp b (.inl hb) hcm, hirq ▸ hi⟩
  | take =>
    simp only [hc] at h
    obtain ⟨b, hb, hcm, hi⟩ := h
    exact ⟨b, hq.trans hb, hcomp b (.inl hb) hcm, hirq ▸ hi⟩
  | read b =>
    simp only [hc] at h
    exact ⟨hcomp b (.inr (by simp [hc, IPc.cur])) h.1, hirq ▸ h.2⟩
  | flags b =>
    simp only [hc] at h
    simpa only [hdev, hirq, hdisk, hbuf b (.inr (by simp [hc, IPc.cur]))] using h
  | wake b =>
    simp only [hc] at h
    exact hquiet h
  | next =>
    simp only [hc] at h
    exact hquiet h

theorem works_iff (hq : s.idequeue = some b) : Works dk s ↔
    (Quiet dk s ∧ ∃ p, s.pc p = .start b) ∨ Running dk s b ∨ (Completed dk s b ∧ s.irq = true) := by
  unfold Works
  rw [hq]

theorem works_iff_quiet (hq : s.idequeue = none) : Works dk s ↔ Quiet dk s := by
  unfold Works
  rw [hq]

theorem DevOk.of_works (hi : s.ipc = .idle ∨ s.ipc = .rel) (h : Works m.disk s) : DevOk m s := by
  unfold DevOk
  rcases hi with hi | hi <;> rw [hi] <;> exact h

end

theorem Good.pending_of_active (h : Good m0 l m s) (hb : s.active b) : b ∈ s.pending l := by
  rcases hb with hb | hb
  · rw [h.chain.head] at hb
    exact List.mem_append_right _ (List.mem_of_head? hb)
  · exact List.mem_append_left _ hb

end Xv6.Ide
