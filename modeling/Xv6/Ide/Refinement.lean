import Xv6.Ide.Requests
import Xv6.Ide.Handler

/-!
# The driver refines the disk in memory

Every step of the machine keeps the invariant, and so does every run.
-/

namespace Xv6.Ide

open Lib

variable {π β δ : Type} [DecidableEq π] [DecidableEq β] {m0 m : Mem β δ} {l l' : List β}
  {s s' : St π β δ} {p q : π} {b : β}

theorem Good.step (h : Good m0 l m s) (hs : Step s s') : ∃ l' m', Good m0 l' m' s' := by
  cases hs with
  | acquiresleep p b hp hb =>
    refine ⟨l, m, h.lockBuf fun q _ hq => ?_⟩
    rw [hb] at hq
    cases hq
  | releasesleep p b hp hb =>
    refine ⟨l, m, h.lockBuf fun q hq hq' => ?_⟩
    rw [hb] at hq'
    cases hq'
    rw [hp] at hq
    cases hq
  | set p b x hp hb => exact ⟨l, _, h.set hp hb x⟩
  | call p b hp hb hc hdev hblk => exact ⟨l, m, h.call hp hb hc hdev hblk⟩
  | acquire p b hp hl => exact ⟨l, m, h.acquire hp hl⟩
  | walk p b y pp hp hy => exact ⟨l, m, h.walk hp hy⟩
  | link p b pp hp hend => exact ⟨_, m, h.link hp hend⟩
  | start p b d hp hq _ hd => exact ⟨l, m, h.start hp hq hd⟩
  | noStart p b hp hq => exact ⟨l, m, h.noStart hp hq⟩
  | testDone p b hp hd => exact ⟨l, m, h.testDone hp hd⟩
  | sleep p b hp hd => exact ⟨l, m, h.sleep hp hd⟩
  | kill p b hp => exact ⟨l, m, h.kill hp⟩
  | reacquire p b hp hl => exact ⟨l, m, h.reacquire hp hl⟩
  | release p b hp => exact ⟨l, m, h.release hp⟩
  | write n v hd => exact ⟨l, m, h.write hd⟩
  | fetch n hd => exact ⟨l, m, h.fetch hd⟩
  | intr hi hirq => exact ⟨l, m, h.intr hi hirq⟩
  | iacquire hi hl => exact ⟨l, m, h.iacquire hi hl⟩
  | empty hi hq =>
    -- an interrupt comes for the head of the queue
    have hdev := h.dev
    simp only [DevOk, hi, hq] at hdev
    obtain ⟨_, hb, -⟩ := hdev
    cases hb
  | take b hi hq => exact ⟨_, m, h.take hi hq⟩
  | skip b hi hd => exact ⟨l, m, h.skip hi hd⟩
  | insl b v hi hd hv => exact ⟨l, m, h.insl hi hd hv⟩
  | flags b hi => exact ⟨l, h.flags hi⟩
  | wakeup b hi => exact ⟨l, m, h.wakeup hi⟩
  | next b d hi hq _ hd => exact ⟨l, m, h.next hi hq hd⟩
  | noNext hi hq => exact ⟨l, m, h.noNext hi hq⟩
  | irelease hi => exact ⟨l, m, h.irelease hi⟩

omit [DecidableEq π] in
theorem Init.good (h : Init s) : Good ⟨s.disk, s.buf⟩ [] ⟨s.disk, s.buf⟩ s := by
  have hpend : s.pending [] = [] := by rw [St.pending, h.ipc]; rfl
  refine ⟨?_, h.idequeue, ?_, ?_, fun p => ?_, ?_, ?_, ?_, fun _ _ => rfl, ?_⟩
  · rw [h.ipc]
    exact fun hc => absurd hc Bool.false_ne_true
  · rw [hpend]
    exact List.nodup_nil
  · rw [hpend, h.queued, h.served]
    rfl
  · unfold PcOk
    rw [h.pc p]
    trivial
  · rw [hpend]
    exact List.forall_mem_nil _
  · rw [h.log]
    rfl
  · rw [h.log, h.served]
    rfl
  · exact DevOk.of_works (.inl h.ipc) ((works_iff_quiet h.idequeue).2 ⟨h.dev, h.irq, rfl⟩)

theorem Reach.good {s0 : St π β δ} (h0 : Init s0) (h : Reach s0 s) :
    ∃ l m, Good ⟨s0.disk, s0.buf⟩ l m s := by
  induction h with
  | init => exact ⟨_, _, h0.good⟩
  | step _ hs ih =>
    obtain ⟨l, m, hg⟩ := ih
    exact hg.step hs

section
omit [DecidableEq π]

theorem Good.disk_eq (h : Good m0 l m s) (hp : s.pending l = []) : s.disk = m.disk := by
  obtain ⟨hcur, rfl⟩ := List.append_eq_nil_iff.1 hp
  have hq : s.idequeue = none := h.chain
  have hdev := h.dev
  unfold DevOk at hdev
  cases hi : s.ipc with
  | idle =>
    simp only [hi] at hdev
    exact ((works_iff_quiet hq).1 hdev).disk
  | rel =>
    simp only [hi] at hdev
    exact ((works_iff_quiet hq).1 hdev).disk
  | acq =>
    simp only [hi, hq] at hdev
    obtain ⟨_, hb, -⟩ := hdev
    cases hb
  | take =>
    simp only [hi, hq] at hdev
    obtain ⟨_, hb, -⟩ := hdev
    cases hb
  | read b =>
    rw [hi] at hcur
    cases hcur
  | flags b =>
    rw [hi] at hcur
    cases hcur
  | wake b =>
    simp only [hi] at hdev
    exact hdev.disk
  | next =>
    simp only [hi] at hdev
    exact hdev.disk

theorem Good.progress (h : Good m0 l m s) (hp : s.pending l ≠ []) :
    s.ipc ≠ .idle ∨ s.irq = true ∨ (∃ n o, s.dev = .running n o) ∨ ∃ p b, s.pc p = .start b := by
  by_cases hi : s.ipc = .idle
  · refine .inr ?_
    have hworks : Works m.disk s := by
      have := h.dev
      unfold DevOk at this
      rwa [hi] at this
    cases hq : s.idequeue with
    | none =>
      have hl : l = [] := List.head?_eq_none_iff.1 (h.chain.head.symm.trans hq)
      refine absurd ?_ hp
      rw [St.pending, hi, hl]
      rfl
    | some b =>
      rcases (works_iff hq).1 hworks with ⟨-, p, hs⟩ | hw | ⟨-, hirq⟩
      · exact .inr (.inr ⟨p, b, hs⟩)
      · refine .inr (.inl ?_)
        have hd := hw.dev
        unfold idestart at hd
        split at hd
        · cases hd
        · exact ⟨_, _, (Except.ok.inj hd).symm⟩
      · exact .inl hirq
  · exact .inl hi

end

/-- In every state of every run, with `l` for the requests that are linked in the queue: the
requests that were queued are those that have been completed, in the same order, the one that the
handler is completing, and those in the queue; no buffer is among them twice; and while one is
pending it is worked on. If `memide.c` serves the completed requests at once and in this order, then
it does not panic, and what it leaves is what the driver leaves: in every buffer that has no request
pending, and on the disk if no request is pending. A process that is about to return from `iderw`
finds all requests for its buffer completed, with the flags set; a process that sleeps has a request
pending or is about to be woken; and `idestart` does not panic. -/
theorem ide_refines_memide {s0 : St π β δ} (h₀ : Init s0) (h : Reach s0 s) :
    ∃ l m, Chain s.qnext s.idequeue l ∧
      s.queued = s.served ++ (s.ipc.cur ++ l) ∧ (s.ipc.cur ++ l).Nodup ∧
      (s.ipc.cur ++ l ≠ [] → s.ipc ≠ .idle ∨ s.irq = true ∨ (∃ n o, s.dev = .running n o) ∨
        ∃ p b, s.pc p = .start b) ∧
      s.log.filterMap Event.request = s.served ∧
      s.log.foldlM Memide.act ⟨s0.disk, s0.buf⟩ = .ok m ∧
      (∀ b, b ∉ s.ipc.cur ++ l → s.buf b = m.buf b) ∧
      (s.ipc.cur ++ l = [] → s.disk = m.disk) ∧
      (∀ p b, s.pc p = .fin b → b ∉ s.ipc.cur ++ l ∧ s.served.count b = s.queued.count b ∧
        (s.buf b).valid = true ∧ (s.buf b).dirty = false) ∧
      (∀ p b, s.pc p = .asleep b → b ∈ s.ipc.cur ++ l ∨ s.ipc = .wake b) ∧
      ∀ b, s.idequeue = some b → ∃ d, idestart (s.buf b) = .ok d := by
  obtain ⟨l, m, hg⟩ := h.good h₀
  refine ⟨l, m, hg.chain, hg.hist, hg.nodup, hg.progress, hg.requests, hg.replay, fun b hb => ?_,
    hg.disk_eq, fun p b hp => ?_, fun p b hp => ?_, fun b hq => ?_⟩
  · refine hg.bufs b fun hi => hb ?_
    rw [hi]
    exact List.mem_append_left _ List.mem_cons_self
  · have hok := hg.pcs p
    simp only [PcOk, hp] at hok
    obtain ⟨-, -, hout, hd⟩ := hok
    refine ⟨hout, ?_, ?_⟩
    · rw [hg.hist, List.count_append, List.count_eq_zero_of_not_mem hout, Nat.add_zero]
    · simpa [Buf.done] using hd
  · have hok := hg.pcs p
    simp only [PcOk, hp] at hok
    exact hok.2.imp_right And.left
  · obtain ⟨ht, -⟩ := hg.todo b (hg.pending_of_active (.inl hq))
    exact ⟨_, if_neg (not_le.2 ht.blockno)⟩

/-- One process, one buffer for block 1, and a disk with `n` in block `n`. -/
def idleIde : St Unit Unit Nat where
  buf _ := ⟨false, false, 1, 1, 0⟩
  holder _ := none
  idelock := none
  idequeue := none
  qnext _ := none
  disk n := n
  dev := .idle
  irq := false
  pc _ := .out
  ipc := .idle
  queued := []
  served := []
  log := []

theorem init_idleIde : Init idleIde :=
  ⟨fun _ => rfl, rfl, rfl, rfl, rfl, rfl, rfl, rfl, rfl⟩

theorem reach_idleIde : ∃ s, Reach idleIde s ∧ s.pc () = .fin () ∧ s.served = [()] := by
  have h : Reach idleIde idleIde := .init
  have h := h.step (.acquiresleep () () rfl rfl)
  have h := h.step (.call () () rfl rfl rfl rfl (by decide))
  have h := h.step (.acquire () () rfl rfl)
  have h := h.step (.link () () none rfl rfl)
  have h := h.step (.start () () _ rfl rfl rfl rfl)
  have h := h.step (.sleep () () rfl rfl)
  have h := h.step (.fetch 1 rfl)
  have h := h.step (.intr rfl rfl)
  have h := h.step (.iacquire rfl rfl)
  have h := h.step (.take () rfl rfl)
  have h := h.step (.insl () 1 rfl rfl fun w hw => Dev.ready.inj hw)
  have h := h.step (.flags () rfl)
  have h := h.step (.wakeup () rfl)
  have h := h.step (.noNext rfl rfl)
  have h := h.step (.irelease rfl)
  have h := h.step (.reacquire () () rfl rfl)
  have h := h.step (.testDone () () rfl rfl)
  exact ⟨_, h, rfl, rfl⟩

theorem ide_refines_memide_read : Init idleIde ∧ ∃ s, Reach idleIde s ∧ s.pc () = .fin () ∧
    s.served = [()] ∧ (s.buf ()).valid = true ∧
    ∃ m, s.log.foldlM Memide.act ⟨idleIde.disk, idleIde.buf⟩ = .ok m ∧ s.buf () = m.buf () := by
  obtain ⟨s, hr, hp, hs⟩ := reach_idleIde
  obtain ⟨l, m, -, -, -, -, -, hlog, hbuf, -, hfin, -⟩ := ide_refines_memide init_idleIde hr
  obtain ⟨hb, -, hv, -⟩ := hfin () () hp
  exact ⟨init_idleIde, s, hr, hp, hs, hv, m, hlog, hbuf () hb⟩

end Xv6.Ide
