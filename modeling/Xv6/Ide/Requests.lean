import Xv6.Ide.Invariant

/-!
# Steps of processes

Processes lock buffers, set them and call `iderw`. Most steps change only where one process is, and
maybe the lock (`Good.control`); a request is queued when it is linked at the end of the list.
-/

namespace Xv6.Ide

open Lib
open Function (update update_of_ne update_self)

variable {π β δ : Type} [DecidableEq π] [DecidableEq β] {m0 m : Mem β δ} {l l' : List β}
  {s s' : St π β δ} {p q : π} {b : β}

section

variable (h : Good m0 l m s)

include h

theorem Good.control {c : Pc β} {k : Option (Ctx π)}
    (hlk : k = s.idelock ∨ s.idelock = none ∨ s.idelock = some (.proc p))
    (hnew : PcOk { s.setPc p c with idelock := k } l p) (hstart : ∀ b, c ≠ .start b)
    (hhead : ∀ b, s.pc p = .start b → s.idequeue ≠ some b)
    (hwait : ∀ b ∈ s.pending l, (s.pc p).waits b → c.waits b) :
    Good m0 l m { s.setPc p c with idelock := k } := by
  have hpc : ∀ q, q ≠ p → update s.pc p c q = s.pc q := fun q hq =>
    update_of_ne hq _ _
  refine ⟨fun hc => ?_, h.chain, h.nodup, h.hist, fun q => ?_, fun b hb => ?_, h.replay,
    h.requests, h.bufs, ?_⟩
  · have hi := h.lockI hc
    rcases hlk with hlk | hlk | hlk
    · exact hlk.trans hi
    · rw [hlk] at hi
      cases hi
    · rw [hlk] at hi
      cases hi
  · by_cases hq : q = p
    · rw [hq]
      exact hnew
    · refine (h.pcs q).frame (hpc q hq) (fun _ _ => rfl) (fun hc => ⟨?_, rfl, rfl⟩)
        (fun _ _ => Iff.rfl) (fun _ _ => ⟨rfl, id⟩) fun _ _ h => h
      have hql := (h.pcs q).lock hc
      rcases hlk with hlk | hlk | hlk
      · exact hlk
      · rw [hlk] at hql
        cases hql
      · rw [hlk] at hql
        cases hql
        exact absurd rfl hq
  · obtain ⟨ht, q, hq⟩ := h.todo b hb
    refine ⟨ht, q, ?_⟩
    show (update s.pc p c q).waits b
    by_cases hqp : q = p
    · rw [hqp, update_self]
      exact hwait b hb (hqp ▸ hq)
    · rw [hpc q hqp]
      exact hq
  · refine h.dev.congr rfl rfl rfl rfl rfl (fun _ _ => rfl) (fun q b hq _ => ?_) fun q b hl hq => ?_
    · have hq' : update s.pc p c q = .start b := hq
      by_cases hqp : q = p
      · rw [hqp, update_self] at hq'
        exact absurd hq' (hstart b)
      · rw [hpc q hqp] at hq'
        exact ⟨q, hq'⟩
    · by_cases hqp : q = p
      · rw [hqp] at hq
        exact absurd hl (hhead b hq)
      · exact ⟨q, by rw [← hq]; exact hpc q hqp⟩

theorem Good.move {c : Pc β} (hnew : PcOk (s.setPc p c) l p) (hstart : ∀ b, c ≠ .start b)
    (hhead : ∀ b, s.pc p = .start b → s.idequeue ≠ some b)
    (hwait : ∀ b ∈ s.pending l, (s.pc p).waits b → c.waits b) : Good m0 l m (s.setPc p c) :=
  h.control (k := s.idelock) (.inl rfl) hnew hstart hhead hwait

section
omit [DecidableEq π]

theorem Good.lockBuf {o : Option π} (hb : ∀ q, (s.pc q).buf = some b → s.holder b ≠ some q) :
    Good m0 l m { s with holder := update s.holder b o } := by
  refine ⟨h.lockI, h.chain, h.nodup, h.hist, fun q => ?_, h.todo, h.replay, h.requests, h.bufs,
    h.dev.congr rfl rfl rfl rfl rfl (fun _ _ => rfl) (fun q b hq _ => ⟨q, hq⟩)
      fun q b _ hq => ⟨q, hq⟩⟩
  refine (h.pcs q).frame rfl (fun b' hb' => ?_) (fun _ => ⟨rfl, rfl, rfl⟩) (fun _ _ => Iff.rfl)
    (fun _ _ => ⟨rfl, id⟩) fun _ _ h => h
  have hne : b' ≠ b := by
    rintro rfl
    exact hb q hb' ((h.pcs q).holder hb')
  exact update_of_ne hne _ _

theorem Good.set (hp : s.pc p = .out) (hb : s.holder b = some p) (x : Buf δ) :
    Good m0 l { m with buf := update m.buf b x }
      { s.setBuf b x with log := s.log ++ [.set b x] } := by
  have hout : b ∉ s.pending l := h.not_pending hb (by rw [hp]; exact nofun)
  have hne : ∀ b' ∈ s.pending l, b' ≠ b := fun b' hb' hbb => hout (hbb ▸ hb')
  have hbuf : ∀ b', b' ≠ b → update s.buf b x b' = s.buf b' := fun b' hb' =>
    update_of_ne hb' _ _
  have hown : ∀ q b', (s.pc q).buf = some b' → b' ≠ b := by
    rintro q b' hq rfl
    have := (h.pcs q).holder hq
    rw [hb] at this
    cases this
    rw [hp] at hq
    cases hq
  refine ⟨h.lockI, h.chain, h.nodup, h.hist, fun q => ?_, fun b' hb' => ?_, ?_, ?_,
    fun b' hb' => ?_, ?_⟩
  · refine (h.pcs q).frame rfl (fun _ _ => rfl) (fun _ => ⟨rfl, rfl, rfl⟩) (fun _ _ => Iff.rfl)
      (fun b' hq => ?_) fun _ _ h => h
    show (update s.buf b x b').done = _ ∧ (_ → Todo (update s.buf b x b'))
    rw [hbuf b' (hown q b' hq)]
    exact ⟨rfl, id⟩
  · obtain ⟨ht, hw⟩ := h.todo b' hb'
    refine ⟨?_, hw⟩
    show Todo (update s.buf b x b')
    rwa [hbuf b' (hne b' hb')]
  · show (s.log ++ [Event.set b x]).foldlM Memide.act m0 = _
    rw [List.foldlM_append, h.replay]
    rfl
  · show (s.log ++ [Event.set b x]).filterMap Event.request = s.served
    rw [List.filterMap_append, h.requests]
    exact List.append_nil _
  · show update s.buf b x b' = update m.buf b x b'
    by_cases hbb : b' = b
    · rw [hbb, update_self, update_self]
    · rw [update_of_ne hbb, update_of_ne hbb]
      exact h.bufs b' hb'
  · have hdev : DevOk m { s.setBuf b x with log := s.log ++ [.set b x] } := h.dev.congr rfl rfl rfl
      rfl rfl (fun b' hb' => hbuf b' (hne b' (h.pending_of_active hb'))) (fun q b hq _ => ⟨q, hq⟩)
      fun q b _ hq => ⟨q, hq⟩
    -- the buffer that the handler works on is not the one that is set
    unfold DevOk at hdev ⊢
    cases hi : s.ipc with
    | flags b' =>
      have hb' : b' ≠ b := hne b' (by simp [St.pending, hi, IPc.cur])
      simp only [St.setBuf, hi] at hdev ⊢
      simpa only [update_of_ne hb'] using hdev
    | _ =>
      simp only [St.setBuf, hi] at hdev ⊢
      exact hdev

end

theorem Good.call (hp : s.pc p = .out) (hb : s.holder b = some p)
    (hc : check true true (s.buf b) = none) (hdev : (s.buf b).dev = 1)
    (hblk : (s.buf b).blockno < FSSIZE) : Good m0 l m (s.setPc p (.enter b)) := by
  have hdone : (s.buf b).done = false := by
    unfold check at hc
    cases hd : (s.buf b).done with
    | false => rfl
    | true =>
      rw [hd] at hc
      cases hc
  refine h.move ?_ nofun (fun b' hs => ?_) fun b' _ hw => ?_
  · simp only [PcOk, St.setPc, update_self]
    exact ⟨hb, h.not_pending hb (by rw [hp]; exact nofun), hdone, hdev, hblk⟩
  · rw [hp] at hs
    cases hs
  · rw [hp] at hw
    cases hw.buf

theorem Good.acquire (hp : s.pc p = .enter b) (hl : s.idelock = none) :
    Good m0 l m { s.setPc p (.walk b none) with
      idelock := some (.proc p), qnext := update s.qnext b none } := by
  have hok := h.pcs p
  simp only [PcOk, hp] at hok
  obtain ⟨hh, hout, ht⟩ := hok
  have hchain : Chain (update s.qnext b none) s.idequeue l := by
    refine h.chain.congr fun x hx => update_of_ne ?_ _ _
    rintro rfl
    exact hout (List.mem_append_right _ hx)
  have h1 : Good m0 l m { s with qnext := update s.qnext b none } := by
    refine ⟨h.lockI, hchain, h.nodup, h.hist, fun q => ?_, h.todo, h.replay, h.requests, h.bufs,
      h.dev.congr rfl rfl rfl rfl rfl (fun _ _ => rfl) (fun q b hq _ => ⟨q, hq⟩)
        fun q b _ hq => ⟨q, hq⟩⟩
    refine (h.pcs q).frame rfl (fun _ _ => rfl) (fun hc => ?_) (fun _ _ => Iff.rfl)
      (fun _ _ => ⟨rfl, id⟩) fun _ _ h => h
    rw [h.not_crit (by rw [hl]; exact nofun)] at hc
    cases hc
  refine h1.control (p := p) (c := .walk b none) (k := some (.proc p)) (.inr (.inl hl)) ?_ nofun
    (fun b' hs => ?_) fun b' _ hw => ?_
  · simp only [PcOk, St.setPc, update_self]
    exact ⟨hh, trivial, hout, ht, trivial, [], l, rfl, rfl⟩
  · rw [show ({ s with qnext := update s.qnext b none } : St π β δ).pc p = .enter b from hp]
      at hs
    cases hs
  · have hw' : (s.pc p).waits b' := hw
    rw [hp] at hw'
    rcases hw' with hw' | hw' | hw' | hw' <;> cases hw'

theorem Good.walk {y : β} {pp : Option β} (hp : s.pc p = .walk b pp)
    (hy : Chain.deref s.qnext s.idequeue pp = some y) :
    Good m0 l m (s.setPc p (.walk b (some y))) := by
  have hok := h.pcs p
  simp only [PcOk, hp] at hok
  obtain ⟨hh, hlk, hout, ht, hnb, l1, l2, hl, hpp⟩ := hok
  refine h.move ?_ nofun (fun b' hs => ?_) fun b' _ hw => ?_
  · simp only [PcOk, St.setPc, update_self]
    refine ⟨hh, hlk, hout, ht, hnb, l1 ++ [y], l2.tail, ?_, by simp⟩
    have hd : l2.head? = some y := by
      have hc := h.chain
      rw [hl] at hc
      rw [← hc.deref_getLast, ← hpp]
      exact hy
    rw [hl, List.append_assoc, List.singleton_append]
    cases l2 with
    | nil => cases hd
    | cons z l2 =>
      cases hd
      rfl
  · rw [hp] at hs
    cases hs
  · rw [hp] at hw
    rcases hw with hw | hw | hw | hw <;> cases hw

theorem Good.append {pp hq : Option β} {nx : β → Option β} (hp : s.pc p = .walk b pp)
    (hchain : Chain nx hq (l ++ [b])) (hhead : hq = s.idequeue ∨ s.idequeue = none ∧ hq = some b) :
    Good m0 (l ++ [b]) m { s.setPc p (.start b) with
      idequeue := hq, qnext := nx, queued := s.queued ++ [b] } := by
  have hok := h.pcs p
  simp only [PcOk, hp] at hok
  obtain ⟨hh, hlk, hout, ht, -, -⟩ := hok
  have hicrit := h.not_icrit (by rw [hlk]; exact nofun)
  have hcrit : ∀ q, q ≠ p → (s.pc q).crit = false := fun q hq => h.not_crit fun hc => by
    rw [hlk] at hc
    cases hc
    exact hq rfl
  have hpc : ∀ q, q ≠ p → update s.pc p (.start b) q = s.pc q := fun q hq =>
    update_of_ne hq _ _
  have hpend : s.ipc.cur ++ (l ++ [b]) = s.pending l ++ [b] := (List.append_assoc ..).symm
  refine ⟨fun hc => ?_, hchain, ?_, ?_, fun q => ?_, fun b' hb' => ?_, h.replay, h.requests, h.bufs,
    ?_⟩
  · rw [show s.ipc.crit = true from hc] at hicrit
    cases hicrit
  · show (s.ipc.cur ++ (l ++ [b])).Nodup
    rw [hpend, List.nodup_append]
    refine ⟨h.nodup, List.nodup_singleton b, fun x hx y hy hxy => hout ?_⟩
    rw [← List.mem_singleton.1 hy, ← hxy]
    exact hx
  · show s.queued ++ [b] = s.served ++ (s.ipc.cur ++ (l ++ [b]))
    rw [hpend, h.hist, List.append_assoc]
  · by_cases hq : q = p
    · subst hq
      simp only [PcOk, St.setPc, update_self]
      exact ⟨hh, hlk, List.mem_append_right _ List.mem_cons_self⟩
    · refine (h.pcs q).frame (hpc q hq) (fun _ _ => rfl) (fun hc => ?_) (fun b' hb' => ?_)
        (fun _ _ => ⟨rfl, id⟩) fun _ _ h => h
      · rw [hcrit q hq] at hc
        cases hc
      · show b' ∈ s.ipc.cur ++ (l ++ [b]) ↔ _
        have hne : b' ≠ b := by
          rintro rfl
          exact h.holder_ne hh hq hb'
        rw [hpend, List.mem_append, List.mem_singleton, or_iff_left hne]
  · have hb1 : b' ∈ s.ipc.cur ++ (l ++ [b]) := hb'
    rw [hpend, List.mem_append, List.mem_singleton] at hb1
    rcases hb1 with hb1 | rfl
    · obtain ⟨ht', q, hq⟩ := h.todo b' hb1
      refine ⟨ht', q, ?_⟩
      have hqp : q ≠ p := by
        rintro rfl
        rw [hp] at hq
        rcases hq with hq | hq | hq | hq <;> cases hq
      show (update s.pc p (.start b) q).waits b'
      rw [hpc q hqp]
      exact hq
    · refine ⟨ht, p, .inl ?_⟩
      exact update_self ..
  · rcases hhead with hhead | ⟨hnone, hsome⟩
    · refine h.dev.congr rfl hhead rfl rfl rfl (fun _ _ => rfl) (fun q b' hq ha => ?_)
        fun q b' _ hq => ⟨q, ?_⟩
      · have hq' : update s.pc p (.start b) q = .start b' := hq
        by_cases hqp : q = p
        · rw [hqp, update_self] at hq'
          cases hq'
          exact absurd (h.pending_of_active ha) hout
        · rw [hpc q hqp] at hq'
          exact ⟨q, hq'⟩
      · have hqp : q ≠ p := by
          rintro rfl
          rw [hp] at hq
          cases hq
        exact (hpc q hqp).trans hq
    · -- the queue was empty, so the device is idle
      have hdev := h.dev
      unfold DevOk at hdev ⊢
      cases hi : s.ipc with
      | idle =>
        simp only [hi, Works, hnone] at hdev
        simp only [St.setPc, hi, Works, hsome]
        exact .inl ⟨⟨hdev.dev, hdev.irq, hdev.disk⟩, p, update_self ..⟩
      | acq =>
        simp only [hi, hnone] at hdev
        obtain ⟨_, hd, -⟩ := hdev
        cases hd
      | _ =>
        rw [hi] at hicrit
        cases hicrit

theorem Good.link {pp : Option β} (hp : s.pc p = .walk b pp)
    (hend : Chain.deref s.qnext s.idequeue pp = none) :
    Good m0 (l ++ [b]) m { (s.link pp b).setPc p (.start b) with queued := s.queued ++ [b] } := by
  have hok := h.pcs p
  simp only [PcOk, hp] at hok
  obtain ⟨-, -, hout, -, hnb, l1, l2, hl, hpp⟩ := hok
  have hlast : pp = l.getLast? := by
    have hc := h.chain
    rw [hl] at hc
    have hd := hc.deref_getLast
    rw [← hpp, hend] at hd
    rw [hpp, hl, List.head?_eq_none_iff.1 hd.symm, List.append_nil]
  cases pp with
  | none =>
    obtain rfl : l = [] := List.getLast?_eq_none_iff.1 hlast.symm
    exact h.append hp ⟨rfl, hnb⟩ (.inr ⟨h.chain, rfl⟩)
  | some x =>
    have hnd : l.Nodup := (List.nodup_append.1 h.nodup).2.1
    exact h.append hp (h.chain.snoc hnd (fun hin => hout (List.mem_append_right _ hin)) hnb
      hlast.symm) (.inl rfl)

theorem Good.start {d : Dev δ} (hp : s.pc p = .start b) (hq : s.idequeue = some b)
    (hd : idestart (s.buf b) = .ok d) : Good m0 l m { s.setPc p (.test b) with dev := d } := by
  have hok := h.pcs p
  simp only [PcOk, hp] at hok
  obtain ⟨hh, hlk, hbl⟩ := hok
  have hicrit := h.not_icrit (by rw [hlk]; exact nofun)
  have hcrit : ∀ q, q ≠ p → (s.pc q).crit = false := fun q hq => h.not_crit fun hc => by
    rw [hlk] at hc
    cases hc
    exact hq rfl
  have hpc : ∀ q, q ≠ p → update s.pc p (.test b) q = s.pc q := fun q hq =>
    update_of_ne hq _ _
  refine ⟨h.lockI, h.chain, h.nodup, h.hist, fun q => ?_, fun b' hb' => ?_, h.replay, h.requests,
    h.bufs, ?_⟩
  · by_cases hqp : q = p
    · subst hqp
      simp only [PcOk, St.setPc, update_self]
      exact ⟨hh, hlk, .inl (List.mem_append_right _ hbl)⟩
    · exact (h.pcs q).frame (hpc q hqp) (fun _ _ => rfl) (fun _ => ⟨rfl, rfl, rfl⟩)
        (fun _ _ => Iff.rfl) (fun _ _ => ⟨rfl, id⟩) fun _ _ h => h
  · obtain ⟨ht, q, hw⟩ := h.todo b' hb'
    refine ⟨ht, q, ?_⟩
    show (update s.pc p (.test b) q).waits b'
    by_cases hqp : q = p
    · rw [hqp, hp] at hw
      rw [hqp, update_self]
      cases hw.buf
      exact .inr (.inl rfl)
    · rw [hpc q hqp]
      exact hw
  · have hdev := h.dev
    unfold DevOk at hdev ⊢
    cases hi : s.ipc with
    | idle =>
      simp only [hi, Works, hq] at hdev
      simp only [St.setPc, hi, Works, hq]
      rcases hdev with ⟨hquiet, -⟩ | hr | ⟨hc, -⟩
      · refine .inr (.inl ⟨fun q hs => ?_, hd, hquiet.irq, hquiet.disk⟩)
        have hs' : update s.pc p (.test b) q = .start b := hs
        by_cases hqp : q = p
        · rw [hqp, update_self] at hs'
          cases hs'
        · rw [hpc q hqp] at hs'
          have := hcrit q hqp
          rw [hs'] at this
          cases this
      · exact absurd hp (hr.started p)
      · exact absurd hp (hc.started p)
    | acq =>
      simp only [hi] at hdev
      obtain ⟨b', hb', hc, -⟩ := hdev
      rw [hq] at hb'
      cases hb'
      exact absurd hp (hc.started p)
    | _ =>
      rw [hi] at hicrit
      cases hicrit

theorem Good.noStart (hp : s.pc p = .start b) (hq : s.idequeue ≠ some b) :
    Good m0 l m (s.setPc p (.test b)) := by
  have hok := h.pcs p
  simp only [PcOk, hp] at hok
  refine h.move ?_ nofun (fun b' hs => ?_) fun b' _ hw => ?_
  · simp only [PcOk, St.setPc, update_self]
    exact ⟨hok.1, hok.2.1, .inl (List.mem_append_right _ hok.2.2)⟩
  · rw [hp] at hs
    cases hs
    exact hq
  · rw [hp] at hw
    cases hw.buf
    exact .inr (.inl rfl)

theorem Good.testDone (hp : s.pc p = .test b) (hd : (s.buf b).done = true) :
    Good m0 l m (s.setPc p (.fin b)) := by
  have hok := h.pcs p
  simp only [PcOk, hp] at hok
  have hout : b ∉ s.pending l := fun hin => by
    rw [(h.todo b hin).1.notDone] at hd
    cases hd
  refine h.move ?_ nofun (fun b' hs => ?_) fun b' hb' hw => ?_
  · simp only [PcOk, St.setPc, update_self]
    exact ⟨hok.1, hok.2.1, hout, hd⟩
  · rw [hp] at hs
    cases hs
  · rw [hp] at hw
    cases hw.buf
    exact absurd hb' hout

theorem Good.sleep (hp : s.pc p = .test b) (hd : (s.buf b).done = false) :
    Good m0 l m { s.setPc p (.asleep b) with idelock := none } := by
  have hok := h.pcs p
  simp only [PcOk, hp] at hok
  obtain ⟨hh, hlk, hin⟩ := hok
  refine h.control (.inr (.inr hlk)) ?_ nofun (fun b' hs => ?_) fun b' _ hw => ?_
  · simp only [PcOk, St.setPc, update_self]
    refine ⟨hh, .inl (hin.resolve_right ?_)⟩
    rw [hd]
    exact nofun
  · rw [hp] at hs
    cases hs
  · rw [hp] at hw
    cases hw.buf
    exact .inr (.inr (.inl rfl))

theorem Good.kill (hp : s.pc p = .asleep b) : Good m0 l m (s.setPc p (.woken b)) := by
  have hok := h.pcs p
  simp only [PcOk, hp] at hok
  refine h.move ?_ nofun (fun b' hs => ?_) fun b' _ hw => ?_
  · simp only [PcOk, St.setPc, update_self]
    exact ⟨hok.1, hok.2.imp_right And.right⟩
  · rw [hp] at hs
    cases hs
  · rw [hp] at hw
    cases hw.buf
    exact .inr (.inr (.inr rfl))

theorem Good.reacquire (hp : s.pc p = .woken b) (hl : s.idelock = none) :
    Good m0 l m { s.setPc p (.test b) with idelock := some (.proc p) } := by
  have hok := h.pcs p
  simp only [PcOk, hp] at hok
  refine h.control (.inr (.inl hl)) ?_ nofun (fun b' hs => ?_) fun b' _ hw => ?_
  · simp only [PcOk, St.setPc, update_self]
    exact ⟨hok.1, trivial, hok.2⟩
  · rw [hp] at hs
    cases hs
  · rw [hp] at hw
    cases hw.buf
    exact .inr (.inl rfl)

theorem Good.release (hp : s.pc p = .fin b) :
    Good m0 l m { s.setPc p .out with idelock := none } := by
  have hok := h.pcs p
  simp only [PcOk, hp] at hok
  refine h.control (.inr (.inr hok.2.1)) ?_ nofun (fun b' hs => ?_) fun b' _ hw => ?_
  · simp only [PcOk, St.setPc, update_self]
  · rw [hp] at hs
    cases hs
  · rw [hp] at hw
    rcases hw with hw | hw | hw | hw <;> cases hw

end

end Xv6.Ide
