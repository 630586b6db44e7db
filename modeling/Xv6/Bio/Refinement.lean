import Xv6.Bio.Model
import Xv6.Lib.Counting
import Mathlib.Algebra.BigOperators.Group.Finset.Piecewise

/-!
# The buffer cache is a block store

The invariant of `bio.c` over all interleavings. `Refs` is about who refers to which buffer:
`refcnt` counts the holder of the lock, the processes waiting for it and those on the way out
of `brelse`, and only buffers that nobody refers to are recycled. `Contents` is about the data:
a block that is not dirty in the cache is up to date on disk, and a valid buffer that is not
being changed holds the contents last left in its block.
-/

namespace Xv6.Bio

open Lib
open Function (update update_of_ne update_self)

variable {π : Type}

/-! ## The invariant -/

/-- The phases in which a process has a reference but not the lock. -/
def Phase.Refers (i : BufId) : Phase → Prop
  | .waiting j _ => j = i
  | .releasing j => j = i
  | _ => False

instance (i : BufId) (ph : Phase) : Decidable (ph.Refers i) := by
  unfold Phase.Refers; split <;> infer_instance

def Phase.WaitsFor (i : BufId) : Phase → Prop
  | .waiting j _ => j = i
  | _ => False

instance (i : BufId) (ph : Phase) : Decidable (ph.WaitsFor i) := by
  unfold Phase.WaitsFor; split <;> infer_instance

/-- What a phase of process `p` says of the buffers. -/
def PhaseOk (buf : BufId → Buf π) (p : π) : Phase → Prop
  | .idle => True
  | .waiting i b => (buf i).blockno = b
  | .filling i b => (buf i).lock = some p ∧ (buf i).blockno = b
  | .editing i => (buf i).lock = some p
  | .writing i => (buf i).lock = some p ∧ (buf i).dirty = true
  | .releasing i => (buf i).lock ≠ some p

/-- The references of process `p` to a buffer with the lock `lock`. -/
def refsOf [DecidableEq π] (lock : Option π) (i : BufId) (p : π) (ph : Phase) : Nat :=
  (if lock = some p then 1 else 0) + if ph.Refers i then 1 else 0

structure Refs [Fintype π] [DecidableEq π] (buf : BufId → Buf π) (phase : π → Phase) : Prop where
  count : ∀ i, (buf i).refcnt = ∑ p, refsOf (buf i).lock i p (phase p)
  phases : ∀ p, PhaseOk buf p (phase p)
  uniq : ∀ i j, (buf i).dev = ROOTDEV → (buf j).dev = ROOTDEV →
    (buf i).blockno = (buf j).blockno → i = j
  dev : ∀ i, 0 < (buf i).refcnt ∨ (buf i).dirty = true → (buf i).dev = ROOTDEV
  held : ∀ i p, (buf i).lock = some p → (∀ b, phase p ≠ .filling i b) → (buf i).valid = true
  dirty : ∀ i, (buf i).dirty = true → (buf i).valid = true

structure Contents (d : Nat → Block) (buf : BufId → Buf π) (phase : π → Phase)
    (disk : Nat → Block) (h : List Ev) : Prop where
  disk : ∀ b, (∀ i, (buf i).dev = ROOTDEV → (buf i).blockno = b → (buf i).dirty = false) →
    disk b = lastLeft d h b
  data : ∀ i, (buf i).dev = ROOTDEV → (buf i).valid = true → (∀ p, phase p ≠ .editing i) →
    (buf i).data = lastLeft d h (buf i).blockno
  reads : ReadsLast d h

theorem Contents.read {d : Nat → Block} {buf : BufId → Buf π} {phase : π → Phase}
    {disk : Nat → Block} {h : List Ev} (hC : Contents d buf phase disk h) {b : Nat} {v : Block}
    (hv : v = lastLeft d h b) : Contents d buf phase disk (.read b v :: h) :=
  ⟨hC.disk, hC.data, hv, hC.reads⟩

structure Inv [Fintype π] [DecidableEq π] (d : Nat → Block) (s : BSt π) : Prop where
  ring : ∃ l, s.links.Ring l ∧ ∀ i, i ∈ l
  refs : Refs s.buf s.phase
  contents : Contents d s.buf s.phase s.disk s.hist

structure View where
  phase : Phase
  holds : BufId → Prop

def view (p : π) (s : BSt π) : View := ⟨s.phase p, fun i => (s.buf i).lock = some p⟩

def KeepsBlocks (s s' : BSt π) : Prop :=
  ∀ i, 0 < (s.buf i).refcnt ∨ (s.buf i).dirty = true →
    (s'.buf i).dev = (s.buf i).dev ∧ (s'.buf i).blockno = (s.buf i).blockno

def bioProto [Fintype π] [DecidableEq π] (d : Nat → Block) : Proto π (BSt π) Lab View where
  inv := Inv d
  guar := KeepsBlocks
  view := view
  lab _ l v :=
    match l with
    | .get _ => v.phase = .idle
    | .acquire i => ∃ b, v.phase = .waiting i b
    | .fill i => ∃ b, v.phase = .filling i b
    | .edit i => v.phase = .idle ∧ v.holds i
    | .pin i => v.phase = .editing i
    | .mark i => v.phase = .editing i
    | .write i => v.phase = .writing i
    | .release i => v.phase = .idle ∧ v.holds i
    | .giveBack i => v.phase = .releasing i
  cond _ _ _ := True
  panics _ m := m = "bget: no buffers" ∨ m = "incorrect blockno"
  faults := False
  idle _ v := v.phase = .idle

/-! ## Counting references -/

variable {b : Buf π}

section Refs

variable [Fintype π] [DecidableEq π] {buf : BufId → Buf π} {phase : π → Phase} {p : π} {i : BufId}

theorem Refs.pos_of_lock (h : Refs buf phase) (hl : (buf i).lock = some p) :
    0 < (buf i).refcnt := by
  have := le_sum (fun q => refsOf (buf i).lock i q (phase q)) p
  rw [h.count i]
  simp only [refsOf, hl, if_true] at this ⊢
  omega

theorem Refs.pos_of_refers (h : Refs buf phase) (hp : (phase p).Refers i) :
    0 < (buf i).refcnt := by
  have := le_sum (fun q => refsOf (buf i).lock i q (phase q)) p
  rw [h.count i]
  simp only [refsOf, hp, if_true] at this ⊢
  omega

theorem sum_refs_update {lock lock' : Option π} (hl : ∀ q, q ≠ p → (lock' = some q ↔ lock = some q))
    (ph : Phase) :
    (∑ q, refsOf lock' i q (update phase p ph q)) + refsOf lock i p (phase p) =
      (∑ q, refsOf lock i q (phase q)) + refsOf lock' i p ph := by
  have := sum_eq_off (f := fun q => refsOf lock' i q (update phase p ph q))
    (g := fun q => refsOf lock i q (phase q)) p (fun q hq => by
      simp only [refsOf, update_of_ne hq, hl q hq])
  simpa using this

def Phase.about : Phase → Option BufId
  | .idle => none
  | .waiting i _ | .filling i _ | .editing i | .writing i | .releasing i => some i

theorem Phase.about_of_refers {ph : Phase} (h : ph.Refers i) : ph.about = some i := by
  cases ph with
  | waiting j b => exact congrArg some h
  | releasing j => exact congrArg some h
  | _ => exact h.elim

/-- A step of process `p` that concerns buffer `i` only. -/
structure StepOn (buf : BufId → Buf π) (phase : π → Phase) (p : π) (i : BufId) (b : Buf π)
    (ph : Phase) : Prop where
  before : ∀ j, (phase p).about = some j → j = i
  after : ∀ j, ph.about = some j → j = i
  count : b.refcnt + refsOf (buf i).lock i p (phase p) = (buf i).refcnt + refsOf b.lock i p ph
  lock : ∀ q, q ≠ p → (b.lock = some q ↔ (buf i).lock = some q)
  own : PhaseOk (update buf i b) p ph
  blockno : b.blockno = (buf i).blockno ∨ (buf i).refcnt = 0
  dev : b.dev = ROOTDEV
  uniq : ∀ j, j ≠ i → (buf j).dev = ROOTDEV → (buf j).blockno ≠ b.blockno
  dirty : b.dirty = (buf i).dirty ∨ (buf i).lock = some p ∨ (buf i).refcnt = 0
  held : ∀ q, b.lock = some q → (∀ k, update phase p ph q ≠ .filling i k) →
    b.valid = true
  valid : b.dirty = true → b.valid = true

theorem StepOn.phaseOk {ph : Phase} {q : π} (hs : StepOn buf phase p i b ph) (h : Refs buf phase)
    (hq : q ≠ p) : PhaseOk (update buf i b) q (phase q) := by
  have hok := h.phases q
  have hblock : ∀ j, (0 < (buf j).refcnt) →
      (update buf i b j).blockno = (buf j).blockno := by
    intro j hj
    by_cases hji : j = i
    · subst hji
      rw [update_self]
      rcases hs.blockno with hb | hb
      · exact hb
      · omega
    · rw [update_of_ne hji]
  have hlock : ∀ j, (buf j).lock = some q → (update buf i b j).lock = some q := by
    intro j hj
    by_cases hji : j = i
    · subst hji
      rw [update_self]
      exact (hs.lock q hq).mpr hj
    · rwa [update_of_ne hji]
  cases hph : phase q with
  | idle => trivial
  | releasing j =>
    rw [hph] at hok
    by_cases hji : j = i
    · subst hji
      simpa [PhaseOk, hs.lock q hq] using hok
    · simpa [PhaseOk, update_of_ne hji] using hok
  | waiting j k =>
    rw [hph] at hok
    exact (hblock j (h.pos_of_refers (p := q) (by rw [hph]; rfl))).trans hok
  | filling j k =>
    rw [hph] at hok
    exact ⟨hlock j hok.1, (hblock j (h.pos_of_lock hok.1)).trans hok.2⟩
  | editing j =>
    rw [hph] at hok
    exact hlock j hok
  | writing j =>
    rw [hph] at hok
    refine ⟨hlock j hok.1, ?_⟩
    by_cases hji : j = i
    · subst hji
      rw [update_self]
      rcases hs.dirty with hd | hd | hd
      · exact hd.trans hok.2
      · rw [hok.1] at hd
        exact absurd (Option.some.inj hd) hq
      · have := h.pos_of_lock hok.1
        omega
    · rw [update_of_ne hji]
      exact hok.2

theorem Refs.step {ph : Phase} (h : Refs buf phase) (hs : StepOn buf phase p i b ph) :
    Refs (update buf i b) (update phase p ph) := by
  refine ⟨fun j => ?_, fun q => ?_, ?_, fun j hj => ?_, fun j q hl hf => ?_, fun j hj => ?_⟩
  · have hsum : (∑ q, refsOf (update buf i b j).lock j q (update phase p ph q)) +
        refsOf (buf j).lock j p (phase p) =
        (∑ q, refsOf (buf j).lock j q (phase q)) +
          refsOf (update buf i b j).lock j p ph := sum_refs_update ?_ ph
    · have hcount := h.count j
      by_cases hji : j = i
      · subst hji
        rw [update_self] at hsum ⊢
        have := hs.count
        omega
      · rw [update_of_ne hji] at hsum ⊢
        have h1 : ¬ (phase p).Refers j := fun hr => hji (hs.before j (Phase.about_of_refers hr))
        have h2 : ¬ ph.Refers j := fun hr => hji (hs.after j (Phase.about_of_refers hr))
        simp only [refsOf, h1, h2, if_false] at hsum hcount ⊢
        omega
    · intro q hq
      by_cases hji : j = i
      · subst hji
        rw [update_self]
        exact hs.lock q hq
      · rw [update_of_ne hji]
  · by_cases hq : q = p
    · subst hq
      rw [update_self]
      exact hs.own
    · rw [update_of_ne hq]
      exact hs.phaseOk h hq
  · intro j k hj hk hb
    by_cases hji : j = i <;> by_cases hki : k = i
    · rw [hji, hki]
    · subst hji
      rw [update_self, update_of_ne hki] at *
      exact absurd hb.symm (hs.uniq k hki hk)
    · subst hki
      rw [update_self, update_of_ne hji] at *
      exact absurd hb (hs.uniq j hji hj)
    · rw [update_of_ne hji] at hj hb
      rw [update_of_ne hki] at hk hb
      exact h.uniq j k hj hk hb
  · by_cases hji : j = i
    · subst hji
      rw [update_self]
      exact hs.dev
    · rw [update_of_ne hji] at hj ⊢
      exact h.dev j hj
  · by_cases hji : j = i
    · subst hji
      rw [update_self] at hl ⊢
      exact hs.held q hl hf
    · rw [update_of_ne hji] at hl ⊢
      refine h.held j q hl fun k hk => ?_
      by_cases hq : q = p
      · subst hq
        exact hji (hs.before j (by rw [hk]; rfl))
      · exact hf k (by rw [update_of_ne hq, hk])
  · by_cases hji : j = i
    · subst hji
      rw [update_self] at hj ⊢
      exact hs.valid hj
    · rw [update_of_ne hji] at hj ⊢
      exact h.dirty j hj

theorem Refs.uniq_ne (h : Refs buf phase) (hi : (buf i).dev = ROOTDEV) (j : BufId) (hj : j ≠ i)
    (hd : (buf j).dev = ROOTDEV) : (buf j).blockno ≠ (buf i).blockno :=
  fun hb => hj (h.uniq j i hd hi hb)

end Refs

/-! ## The contents -/

section Contents

variable [DecidableEq π] {d : Nat → Block} {buf : BufId → Buf π} {phase : π → Phase}
  {disk : Nat → Block} {h : List Ev} {p : π} {i : BufId} {ph : Phase}

theorem not_editing {j : BufId} (hp : ∀ k, phase p ≠ .editing k)
    (he : ∀ q, update phase p ph q ≠ .editing j) (q : π) : phase q ≠ .editing j := by
  by_cases hq : q = p
  · rw [hq]
    exact hp j
  · have := he q
    rwa [update_of_ne hq] at this

section

variable (hC : Contents d buf phase disk h)

include hC

/-- A buffer changes. What is to be shown is about that buffer only. -/
theorem Contents.set (hp : ∀ k, phase p ≠ .editing k)
    (hclean : (buf i).dev = ROOTDEV →
      (b.dev = ROOTDEV → b.blockno = (buf i).blockno → b.dirty = false) → (buf i).dirty = false)
    (hdata : b.dev = ROOTDEV → b.valid = true → (∀ q, update phase p ph q ≠ .editing i) →
      b.data = lastLeft d h b.blockno) :
    Contents d (update buf i b) (update phase p ph) disk h := by
  refine ⟨fun c hc => hC.disk c fun j hj hjc => ?_, fun j hj hv he => ?_, hC.reads⟩
  · have := hc j
    by_cases hji : j = i
    · subst hji
      rw [update_self, ← hjc] at this
      exact hclean hj this
    · rw [update_of_ne hji] at this
      exact this hj hjc
  · by_cases hji : j = i
    · subst hji
      rw [update_self] at hj hv ⊢
      exact hdata hj hv he
    · rw [update_of_ne hji] at hj hv ⊢
      exact hC.data j hj hv (not_editing hp he)

theorem Contents.same (hp : ∀ k, phase p ≠ .editing k) (hdev : b.dev = (buf i).dev)
    (hno : b.blockno = (buf i).blockno) (hvalid : b.valid = (buf i).valid)
    (hdirty : b.dirty = (buf i).dirty) (hdata : b.data = (buf i).data) :
    Contents d (update buf i b) (update phase p ph) disk h := by
  refine hC.set hp (fun hi hb => hdirty ▸ hb (hdev.trans hi) hno) fun hi hv he => ?_
  rw [hdata, hno]
  exact hC.data i (hdev ▸ hi) (hvalid ▸ hv) (not_editing hp he)

theorem Contents.recycle (hp : ∀ k, phase p ≠ .editing k) (hclean : (buf i).dirty = false)
    (hvalid : b.valid = false) : Contents d (update buf i b) (update phase p ph) disk h := by
  refine hC.set hp (fun _ _ => hclean) fun _ hv _ => ?_
  rw [hvalid] at hv
  cases hv

theorem Contents.fill (hp : ∀ k, phase p ≠ .editing k)
    (hno : b.blockno = (buf i).blockno) (hclean : (buf i).dirty = false)
    (huniq : ∀ j, (buf j).dev = ROOTDEV → (buf j).blockno = (buf i).blockno → j = i)
    (hdata : b.data = disk (buf i).blockno) :
    Contents d (update buf i b) (update phase p ph) disk h := by
  refine hC.set hp (fun _ _ => hclean) fun _ _ _ => ?_
  rw [hdata, hno]
  exact hC.disk _ fun k hk hki => huniq k hk hki ▸ hclean

theorem Contents.edit (v : Block) (hp : ∀ k, phase p ≠ .editing k) :
    Contents d (update buf i { buf i with data := v })
      (update phase p (.editing i)) disk h :=
  hC.set hp (fun hi hb => hb hi rfl) fun _ _ he => absurd (update_self ..) (he p)

theorem Contents.leave (hp : phase p = .editing i) (hi : (buf i).dev = ROOTDEV)
    (huniq : ∀ j, j ≠ i → (buf j).dev = ROOTDEV → (buf j).blockno ≠ (buf i).blockno) :
    Contents d (update buf i { buf i with dirty := true })
      (update phase p ph) disk (.left (buf i).blockno (buf i).data :: h) := by
  refine ⟨fun c hc => ?_, fun j hj hv he => ?_, hC.reads⟩
  · have hci : c ≠ (buf i).blockno := by
      rintro rfl
      have := hc i
      rw [update_self] at this
      cases this hi rfl
    rw [lastLeft, update_of_ne hci]
    refine hC.disk c fun j hj hjc => ?_
    by_cases hji : j = i
    · subst hji
      exact absurd hjc (Ne.symm hci)
    · have := hc j
      rw [update_of_ne hji] at this
      exact this hj hjc
  · by_cases hji : j = i
    · subst hji
      rw [update_self, lastLeft, update_self]
    · rw [update_of_ne hji] at hj hv ⊢
      rw [lastLeft, update_of_ne (huniq j hji hj)]
      refine hC.data j hj hv fun q hq => ?_
      by_cases hqp : q = p
      · rw [hqp, hp] at hq
        exact hji (Phase.editing.inj hq).symm
      · exact he q (by rw [update_of_ne hqp, hq])

theorem Contents.write (hp : ∀ k, phase p ≠ .editing k) (hi : (buf i).dev = ROOTDEV)
    (hvalid : (buf i).valid = true) (hedit : ∀ q, phase q ≠ .editing i) :
    Contents d (update buf i { buf i with valid := true, dirty := false })
      (update phase p ph) (update disk (buf i).blockno (buf i).data) h := by
  refine ⟨fun c hc => ?_, fun j hj hv he => ?_, hC.reads⟩
  · by_cases hci : c = (buf i).blockno
    · subst hci
      rw [update_self]
      exact hC.data i hi hvalid hedit
    · rw [update_of_ne hci]
      refine hC.disk c fun j hj hjc => ?_
      by_cases hji : j = i
      · subst hji
        exact absurd hjc (Ne.symm hci)
      · have := hc j
        rw [update_of_ne hji] at this
        exact this hj hjc
  · by_cases hji : j = i
    · subst hji
      rw [update_self] at hj hv ⊢
      exact hC.data j hj hvalid hedit
    · rw [update_of_ne hji] at hj hv ⊢
      exact hC.data j hj hv (not_editing hp he)

end

end Contents

/-! ## The calls keep the invariant -/

variable [Fintype π] [DecidableEq π] {d : Nat → Block} {p : π} {i : BufId} {s : BSt π}

theorem Inv.not_editing_of_lock (hs : Inv d s) (hl : (s.buf i).lock = some p)
    (hp : s.phase p ≠ .editing i) (q : π) : s.phase q ≠ .editing i := by
  intro hq
  have := hs.refs.phases q
  rw [hq] at this
  have hqp : q = p := Option.some.inj (this.symm.trans hl)
  exact hp (hqp ▸ hq)

theorem keeps_step {s' : BSt π} (hs : Inv d s) (b : Buf π) (ph : Phase)
    (hstep : StepOn s.buf s.phase p i b ph) (hbuf : s'.buf = update s.buf i b)
    (hphase : s'.phase = update s.phase p ph)
    (hring : ∃ l, s'.links.Ring l ∧ ∀ i, i ∈ l)
    (hC : Contents d (update s.buf i b) (update s.phase p ph) s'.disk s'.hist)
    (hblock : b.dev = (s.buf i).dev ∧ b.blockno = (s.buf i).blockno ∨
      (s.buf i).refcnt = 0 ∧ (s.buf i).dirty = false) :
    (bioProto d).Keeps p s s' := by
  refine ⟨⟨hring, ?_, ?_⟩, fun q hq => .inl ?_, fun j hj => ?_⟩
  · rw [hbuf, hphase]
    exact hs.refs.step hstep
  · rw [hbuf, hphase]
    exact hC
  · simp only [bioProto, view, hbuf, hphase, update_of_ne hq, View.mk.injEq, true_and]
    funext j
    by_cases hji : j = i
    · subst hji
      rw [update_self]
      exact propext (hstep.lock q hq)
    · rw [update_of_ne hji]
  · rw [hbuf]
    by_cases hji : j = i
    · subst hji
      rw [update_self]
      rcases hblock with h | ⟨h1, h2⟩
      · exact h
      · rw [h2] at hj
        simp [h1] at hj
    · rw [update_of_ne hji]
      exact ⟨rfl, rfl⟩

theorem find_next (hs : Inv d s) (found : BufId → Bool) :
    ∃ r, walk s.links.next found (NBUF + 1) (s.links.next none) = some r ∧
      (∀ i, r = some i → found i = true) ∧ (r = none → ∀ i, found i = false) := by
  obtain ⟨l, ⟨hseg, hnd⟩, hall⟩ := hs.ring
  have hlen : l.length ≤ NBUF := by simpa using hnd.length_le_card
  refine ⟨l.find? found, hseg.walk_eq (by omega), fun i hi => List.find?_some hi, fun hn i => ?_⟩
  have := List.find?_eq_none.mp hn i (hall i)
  simpa using this

theorem find_prev (hs : Inv d s) (found : BufId → Bool) :
    ∃ r, walk s.links.prev found (NBUF + 1) (s.links.prev none) = some r ∧
      (∀ i, r = some i → found i = true) ∧ (r = none → ∀ i, found i = false) := by
  obtain ⟨l, ⟨hseg, hnd⟩, hall⟩ := hs.ring
  have hlen : l.length ≤ NBUF := by simpa using hnd.length_le_card
  refine ⟨l.reverse.find? found, hseg.reverse.walk_eq (by simp; omega),
    fun i hi => List.find?_some hi, fun hn i => ?_⟩
  have := List.find?_eq_none.mp hn i (List.mem_reverse.2 (hall i))
  simpa using this

variable {v : View}

theorem wp_acquiresleep {b : Nat} (hv : v.phase = .waiting i b) :
    wp (bioProto (π := π) d) p (acquiresleep i b) (fun _ v => v.phase = .filling i b) v := by
  refine ⟨⟨b, hv⟩, fun s hs hview _ => ?_⟩
  have hp : s.phase p = .waiting i b := by rw [← hv, ← hview]; rfl
  have hno : (s.buf i).blockno = b := by
    have := hs.refs.phases p
    rwa [hp] at this
  have hpos := hs.refs.pos_of_refers (p := p) (i := i) (by rw [hp]; rfl)
  have hdev := hs.refs.dev i (Or.inl hpos)
  dsimp only
  cases hl : (s.buf i).lock with
  | some q => trivial
  | none =>
    refine ⟨keeps_step hs { s.buf i with lock := some p } (.filling i b) ?_ rfl rfl hs.ring
      (hs.contents.same (by simp [hp]) rfl rfl rfl rfl rfl) (Or.inl ⟨rfl, rfl⟩),
      by simp [bioProto, view, BSt.set]⟩
    exact
      { before := by simp [hp, Phase.about]
        after := by simp [Phase.about]
        count := by simp [refsOf, hl, hp, Phase.Refers]
        lock := fun q hq => by simp [hl, Ne.symm hq]
        own := ⟨by simp, by simpa using hno⟩
        blockno := Or.inl rfl
        dev := hdev
        uniq := hs.refs.uniq_ne hdev
        dirty := Or.inl rfl
        held := fun q hq hf => by
          obtain rfl := Option.some.inj hq
          exact absurd (update_self ..) (hf b)
        valid := hs.refs.dirty i }

theorem wp_bget {b : Nat} (hv : v.phase = .idle) :
    wp (bioProto (π := π) d) p (bget ROOTDEV b) (fun i v => v.phase = .filling i b) v := by
  refine ⟨hv, fun s hs hview _ => ?_⟩
  have hp : s.phase p = .idle := by rw [← hv, ← hview]; rfl
  have hnext : ∀ i c, (view p (s.set p i c (.waiting i b))).phase = .waiting i b := fun i c => by
    simp [view, BSt.set]
  obtain ⟨r, hr, hfound, hnone⟩ := find_next hs
    (fun i => (s.buf i).dev = ROOTDEV ∧ (s.buf i).blockno = b)
  unfold scan
  rw [hr]
  cases r with
  | some i =>
    obtain ⟨hdev, hno⟩ : (s.buf i).dev = ROOTDEV ∧ (s.buf i).blockno = b := by
      simpa using hfound i rfl
    refine ⟨keeps_step hs { s.buf i with refcnt := (s.buf i).refcnt + 1 } (.waiting i b) ?_ rfl rfl
      hs.ring (hs.contents.same (by simp [hp]) rfl rfl rfl rfl rfl) (Or.inl ⟨rfl, rfl⟩),
        wp_bind (wp_mono (wp_acquiresleep (hnext i _)) fun _ v h => h)⟩
    exact
      { before := by simp [hp, Phase.about]
        after := by simp [Phase.about]
        count := by simp [refsOf, hp, Phase.Refers]; omega
        lock := fun q hq => Iff.rfl
        own := by simpa [PhaseOk] using hno
        blockno := Or.inl rfl
        dev := hdev
        uniq := hs.refs.uniq_ne hdev
        dirty := Or.inl rfl
        held := fun q hq hf => hs.refs.held i q hq fun k hk => hf k (by
          rw [update_of_ne ?_, hk]
          rintro rfl
          rw [hp] at hk
          cases hk)
        valid := hs.refs.dirty i }
  | none =>
    obtain ⟨r, hr, hfound, -⟩ := find_prev hs
      (fun i => (s.buf i).refcnt = 0 ∧ (s.buf i).dirty = false)
    dsimp only
    rw [hr]
    cases r with
    | none => exact Or.inl rfl
    | some i =>
      obtain ⟨hzero, hclean⟩ : (s.buf i).refcnt = 0 ∧ (s.buf i).dirty = false := by
        simpa using hfound i rfl
      have hfree : (s.buf i).lock = none := by
        cases hl : (s.buf i).lock with
        | none => rfl
        | some q =>
          have := hs.refs.pos_of_lock hl
          omega
      refine ⟨keeps_step hs { s.buf i with
          dev := ROOTDEV, blockno := b, valid := false, dirty := false, refcnt := 1 } (.waiting i b)
        ?_ rfl rfl hs.ring (hs.contents.recycle (by simp [hp]) hclean rfl)
        (Or.inr ⟨hzero, hclean⟩), wp_bind (wp_mono (wp_acquiresleep (hnext i _)) fun _ v h => h)⟩
      exact
        { before := by simp [hp, Phase.about]
          after := by simp [Phase.about]
          count := by simp [refsOf, hp, hfree, hzero, Phase.Refers]
          lock := fun q hq => Iff.rfl
          own := by simp [PhaseOk]
          blockno := Or.inr hzero
          dev := rfl
          uniq := fun j hj hdev hno => by
            have := hnone rfl j
            simp [hdev, hno] at this
          dirty := Or.inl hclean.symm
          held := fun q hq => by simp [hfree] at hq
          valid := fun h => by cases h }

theorem stepOn_of_lock {ph : Phase} (hs : Inv d s) (hl : (s.buf i).lock = some p)
    (hbefore : ∀ j, (s.phase p).about = some j → j = i) (hafter : ph.about = some i ∨ ph = .idle)
    (hr : ¬ (s.phase p).Refers i) (hr' : ¬ ph.Refers i) (hcount : b.refcnt = (s.buf i).refcnt)
    (hlock : b.lock = (s.buf i).lock) (hdev : b.dev = (s.buf i).dev)
    (hno : b.blockno = (s.buf i).blockno) (hvalid : b.valid = true)
    (hown : PhaseOk (update s.buf i b) p ph) : StepOn s.buf s.phase p i b ph where
  before := hbefore
  after := fun j hj => by
    rcases hafter with h | rfl
    · exact Option.some.inj (hj.symm.trans h)
    · cases hj
  count := by simp only [refsOf, hlock, hcount, hr, hr']
  lock := fun q _ => by rw [hlock]
  own := hown
  blockno := Or.inl hno
  dev := hdev.trans (hs.refs.dev i (Or.inl (hs.refs.pos_of_lock hl)))
  uniq := fun j hj h => hno ▸ hs.refs.uniq_ne (hs.refs.dev i (Or.inl (hs.refs.pos_of_lock hl))) j
    hj h
  dirty := Or.inr (Or.inl hl)
  held := fun _ _ _ => hvalid
  valid := fun _ => hvalid

section
omit [Fintype π]

theorem iderw_read (hl : (s.buf i).lock ≠ none) (hv : ¬ (s.buf i).valid = true)
    (hd : (s.buf i).dirty = false) :
    iderw s p i = if FSSIZE ≤ (s.buf i).blockno then .panic "incorrect blockno"
      else .done () (s.set p i { s.buf i with
        valid := true, data := s.disk (s.buf i).blockno } .idle) := by
  simp [iderw, hl, hv, hd]

theorem iderw_write (hl : (s.buf i).lock ≠ none) (hd : (s.buf i).dirty = true) :
    iderw s p i = if FSSIZE ≤ (s.buf i).blockno then .panic "incorrect blockno"
      else .done () { s.set p i { s.buf i with valid := true, dirty := false } .idle with
        disk := update s.disk (s.buf i).blockno (s.buf i).data } := by
  simp [iderw, hl, hd]

end

theorem wp_bread {b : Nat} (hv : v.phase = .idle) :
    wp (bioProto (π := π) d) p (bread ROOTDEV b) (fun _ v => v.phase = .idle) v := by
  refine wp_bind (wp_mono (wp_bget hv) fun i v hv => ⟨⟨b, hv⟩, fun s hs hview _ => ?_⟩)
  have hp : s.phase p = .filling i b := by rw [← hv, ← hview]; rfl
  obtain ⟨hl, hno⟩ : (s.buf i).lock = some p ∧ (s.buf i).blockno = b := by
    have := hs.refs.phases p
    rwa [hp] at this
  have hdev := hs.refs.dev i (Or.inl (hs.refs.pos_of_lock hl))
  have hedit := hs.not_editing_of_lock hl (by simp [hp])
  have hstep : ∀ c, c.refcnt = (s.buf i).refcnt → c.lock = (s.buf i).lock →
      c.dev = (s.buf i).dev → c.blockno = (s.buf i).blockno → c.valid = true →
      StepOn s.buf s.phase p i c .idle := fun c h1 h2 h3 h4 h5 =>
    stepOn_of_lock hs hl (by simp [hp, Phase.about]) (Or.inr rfl) (by simp [hp, Phase.Refers])
      (by simp [Phase.Refers]) h1 h2 h3 h4 h5 trivial
  have hnext : ∀ c, (view p (s.set p i c .idle)).phase = .idle := fun c => by
    simp [view, BSt.set]
  dsimp only
  split
  · rename_i hvalid
    refine ⟨keeps_step hs (s.buf i) .idle (hstep _ rfl rfl rfl rfl hvalid) rfl rfl hs.ring ?_
      (Or.inl ⟨rfl, rfl⟩), hnext _⟩
    refine (hs.contents.same (by simp [hp]) rfl rfl rfl rfl rfl).read ?_
    rw [← hno]
    exact hs.contents.data i hdev hvalid hedit
  · rename_i hinvalid
    have hclean : (s.buf i).dirty = false := by
      by_contra hd
      exact hinvalid (hs.refs.dirty i (Bool.eq_true_of_not_eq_false hd))
    rw [iderw_read (by simp [hl]) hinvalid hclean]
    by_cases hbig : FSSIZE ≤ (s.buf i).blockno
    · rw [if_pos hbig]
      exact Or.inr rfl
    · rw [if_neg hbig]
      refine ⟨keeps_step hs { s.buf i with valid := true, data := s.disk (s.buf i).blockno } .idle
        (hstep _ rfl rfl rfl rfl rfl) rfl rfl hs.ring ?_ (Or.inl ⟨rfl, rfl⟩), hnext _⟩
      have huniq : ∀ j, (s.buf j).dev = ROOTDEV → (s.buf j).blockno = (s.buf i).blockno → j = i :=
        fun j hj hji => hs.refs.uniq j i hj hdev hji
      have hfill : Contents d (update s.buf i
          { s.buf i with valid := true, data := s.disk (s.buf i).blockno })
          (update s.phase p .idle) s.disk s.hist :=
        hs.contents.fill (by simp [hp]) rfl hclean huniq rfl
      refine Contents.read hfill ?_
      simp only [BSt.set, update_self]
      rw [← hno]
      exact hs.contents.disk _ fun j hj hji => huniq j hj hji ▸ hclean

theorem wp_edit {γ : Type} {c : Block} {g : Prog π (BSt π) Lab γ} {Q : γ → View → Prop}
    (hv : v.phase = .idle) (hh : v.holds i) (hg : ∀ v, v.phase = .editing i →
      wp (bioProto d) p g Q v) :
    wp (bioProto (π := π) d) p (edit i c >>= fun _ => g) Q v := by
  refine ⟨⟨hv, hh⟩, fun s hs hview _ => ?_⟩
  subst hview
  have hp : s.phase p = .idle := hv
  have hl : (s.buf i).lock = some p := hh
  have hvalid := hs.refs.held i p hl (by simp [hp])
  refine ⟨keeps_step hs { s.buf i with data := c } (.editing i)
    (stepOn_of_lock hs hl (by simp [hp, Phase.about]) (Or.inl rfl) (by simp [hp, Phase.Refers])
      (by simp [Phase.Refers]) rfl rfl rfl rfl hvalid ?_) rfl rfl hs.ring
    (hs.contents.edit c (by simp [hp])) (Or.inl ⟨rfl, rfl⟩), hg _ ?_⟩
  · simpa [PhaseOk] using hl
  · simp [bioProto, view, BSt.set]

theorem keeps_leave {ph : Phase} (hs : Inv d s) (hp : s.phase p = .editing i)
    (hph : ph = .idle ∨ ph = .writing i) :
    (bioProto d).Keeps p s ((s.set p i { s.buf i with dirty := true } ph).note
      (.left (s.buf i).blockno (s.buf i).data)) := by
  have hl : (s.buf i).lock = some p := by
    have := hs.refs.phases p
    rwa [hp] at this
  have hdev := hs.refs.dev i (Or.inl (hs.refs.pos_of_lock hl))
  have hvalid := hs.refs.held i p hl (by simp [hp])
  refine keeps_step hs { s.buf i with dirty := true } ph
    (stepOn_of_lock hs hl ?_ ?_ (by simp [hp, Phase.Refers]) ?_ rfl rfl rfl rfl hvalid ?_)
    rfl rfl hs.ring (hs.contents.leave hp hdev (hs.refs.uniq_ne hdev))
    (Or.inl ⟨rfl, rfl⟩)
  · simp [hp, Phase.about]
  · rcases hph with rfl | rfl
    · exact Or.inr rfl
    · exact Or.inl rfl
  · rcases hph with rfl | rfl <;> simp [Phase.Refers]
  · rcases hph with rfl | rfl
    · trivial
    · simpa [PhaseOk] using hl

theorem wp_logWrite (hv : v.phase = .editing i) :
    wp (bioProto (π := π) d) p (logWrite i) (fun _ v => v.phase = .idle) v := by
  refine ⟨hv, fun s hs hview _ => ⟨keeps_leave hs ?_ (Or.inl rfl), ?_⟩⟩
  · rw [← hv, ← hview]
    rfl
  · simp [bioProto, view, BSt.set, BSt.note]

theorem wp_bwrite (hv : v.phase = .editing i) :
    wp (bioProto (π := π) d) p (bwrite i) (fun _ v => v.phase = .idle) v := by
  refine ⟨hv, fun s hs hview _ => ?_⟩
  have hp : s.phase p = .editing i := by rw [← hv, ← hview]; rfl
  have hl : (s.buf i).lock = some p := by
    have := hs.refs.phases p
    rwa [hp] at this
  dsimp only
  rw [if_neg (by simp [hl])]
  refine ⟨keeps_leave hs hp (Or.inr rfl), ?_, fun s' hs' hview' _ => ?_⟩
  · simp [bioProto, view, BSt.set, BSt.note]
  have hp' : s'.phase p = .writing i := by
    have : s'.phase p = (view p s').phase := rfl
    rw [this, show view p s' = _ from hview']
    simp [bioProto, view, BSt.set, BSt.note]
  obtain ⟨hl', hdirty⟩ : (s'.buf i).lock = some p ∧ (s'.buf i).dirty = true := by
    have := hs'.refs.phases p
    rwa [hp'] at this
  have hdev := hs'.refs.dev i (Or.inr hdirty)
  dsimp only
  rw [iderw_write (by simp [hl']) hdirty]
  by_cases hbig : FSSIZE ≤ (s'.buf i).blockno
  · rw [if_pos hbig]
    exact Or.inr rfl
  · rw [if_neg hbig]
    refine ⟨keeps_step hs' { s'.buf i with valid := true, dirty := false } .idle
      (stepOn_of_lock hs' hl' (by simp [hp', Phase.about]) (Or.inr rfl)
      (by simp [hp', Phase.Refers]) (by simp [Phase.Refers]) rfl rfl rfl rfl rfl trivial) rfl rfl
      hs'.ring (hs'.contents.write (by simp [hp']) hdev (hs'.refs.dirty i hdirty)
        (hs'.not_editing_of_lock hl' (by simp [hp']))) (Or.inl ⟨rfl, rfl⟩), ?_⟩
    simp [bioProto, view, BSt.set]

theorem wp_brelse (hv : v.phase = .idle) (hh : v.holds i) :
    wp (bioProto (π := π) d) p (brelse i) (fun _ v => v.phase = .idle) v := by
  refine ⟨⟨hv, hh⟩, fun s hs hview _ => ?_⟩
  subst hview
  have hp : s.phase p = .idle := hv
  have hl : (s.buf i).lock = some p := hh
  have hdev := hs.refs.dev i (Or.inl (hs.refs.pos_of_lock hl))
  dsimp only
  rw [if_neg (by simp [hl])]
  refine ⟨keeps_step hs { s.buf i with lock := none } (.releasing i) ?_ rfl rfl hs.ring
    (hs.contents.same (by simp [hp]) rfl rfl rfl rfl rfl) (Or.inl ⟨rfl, rfl⟩), ?_,
      fun s' hs' hview' _ => ?_⟩
  · exact
      { before := by simp [hp, Phase.about]
        after := by simp [Phase.about]
        count := by simp [refsOf, hl, hp, Phase.Refers]
        lock := fun q hq => by simp [hl, Ne.symm hq]
        own := by simp [PhaseOk]
        blockno := Or.inl rfl
        dev := hdev
        uniq := hs.refs.uniq_ne hdev
        dirty := Or.inl rfl
        held := fun q hq => by cases hq
        valid := hs.refs.dirty i }
  · simp [bioProto, view, BSt.set]
  have hp' : s'.phase p = .releasing i := by
    have : s'.phase p = (view p s').phase := rfl
    rw [this, show view p s' = _ from hview']
    simp [bioProto, view, BSt.set]
  have hpos := hs'.refs.pos_of_refers (p := p) (i := i) (by rw [hp']; rfl)
  have hdev' := hs'.refs.dev i (Or.inl hpos)
  have hidle : ∀ k, s'.phase p ≠ .editing k := by simp [hp']
  have hstep : StepOn s'.buf s'.phase p i
      { s'.buf i with refcnt := (s'.buf i).refcnt - 1 } .idle :=
    { before := by simp [hp', Phase.about]
      after := by simp [Phase.about]
      count := by simp [refsOf, hp', Phase.Refers]; omega
      lock := fun q hq => Iff.rfl
      own := trivial
      blockno := Or.inl rfl
      dev := hdev'
      uniq := hs'.refs.uniq_ne hdev'
      dirty := Or.inl rfl
      held := fun q hq hf => hs'.refs.held i q hq fun k hk => hf k (by
        rw [update_of_ne ?_, hk]
        rintro rfl
        rw [hp'] at hk
        cases hk)
      valid := hs'.refs.dirty i }
  have hC : Contents d (update s'.buf i
      { s'.buf i with refcnt := (s'.buf i).refcnt - 1 }) (update s'.phase p .idle)
      s'.disk s'.hist := hs'.contents.same hidle rfl rfl rfl rfl rfl
  dsimp only
  split
  · -- the last reference is gone: the buffer moves to the front
    obtain ⟨l, hl, hall⟩ := hs'.ring
    refine ⟨keeps_step hs' _ _ hstep rfl rfl ⟨_, hl.moveToFront (hall i), fun j => ?_⟩ hC
      (Or.inl ⟨rfl, rfl⟩), by simp [bioProto, view, BSt.set]⟩
    by_cases hji : j = i
    · simp [hji]
    · exact List.mem_cons_of_mem _ ((List.mem_erase_of_ne hji).mpr (hall j))
  · exact ⟨keeps_step hs' _ _ hstep rfl rfl hs'.ring hC (Or.inl ⟨rfl, rfl⟩),
      by simp [bioProto, view, BSt.set]⟩

theorem bioProto_sound : (bioProto (π := π) d).Sound (bioSys π) where
  calls p s x hs hidle hx := by
    have hp : (view p s).phase = .idle := hidle
    rcases hx with ⟨b, rfl⟩ | ⟨i, hl, rfl | ⟨v, rfl | rfl⟩⟩
    · exact wp_bind (wp_mono (wp_bread hp) fun _ _ h => h)
    · exact wp_brelse hp hl
    · exact wp_edit hp hl fun v hv => wp_logWrite hv
    · exact wp_edit hp hl fun v hv => wp_bwrite hv
  env s s' _ h := h.elim

theorem ring_binit : ∃ l, binit.Ring l ∧ ∀ i, i ∈ l := by
  suffices h : ∀ (k : List BufId) (L : Links BufId) (l : List BufId), L.Ring l → (l ++ k).Nodup →
      (k.foldl Links.pushFront L).Ring (k.reverse ++ l) by
    refine ⟨_, h (List.finRange NBUF) .empty [] Links.ring_empty ?_, fun i => ?_⟩
    · simpa using List.nodup_finRange NBUF
    · simp
  intro k
  induction k with
  | nil => exact fun L l hL _ => hL
  | cons i k ih =>
    intro L l hL hnd
    have hi : i ∉ l := fun h => (List.nodup_append.mp hnd).2.2 i h i (List.mem_cons_self ..) rfl
    have := ih (L.pushFront i) (i :: l) (hL.pushFront hi) (List.perm_middle.nodup_iff.mp hnd)
    simpa using this

theorem inv_boot : Inv (π := π) d (boot d) where
  ring := ring_binit
  refs :=
    { count := fun i => by simp [boot, refsOf, Phase.Refers]
      phases := fun _ => trivial
      uniq := fun _ _ h => by simp [boot, ROOTDEV] at h
      dev := fun _ h => by simp [boot] at h
      held := fun _ _ h => by cases h
      dirty := fun _ h => by cases h }
  contents := ⟨fun _ _ => rfl, fun _ h => by simp [boot, ROOTDEV] at h, trivial⟩

/-! ## Every reachable state -/

/-- The processes that hold buffer `i`: from when they get its lock until they have given
their reference back. -/
def Holds (c : Config π (BSt π) Lab) (i : BufId) (p : π) : Prop :=
  (c.shared.buf i).lock = some p ∨ c.next p = some (.giveBack i)

instance (c : Config π (BSt π) Lab) (i : BufId) (p : π) : Decidable (Holds c i p) := by
  unfold Holds; infer_instance

/-- The processes that wait for the lock of buffer `i`. -/
def Waits (c : Config π (BSt π) Lab) (i : BufId) (p : π) : Prop := c.next p = some (.acquire i)

instance (c : Config π (BSt π) Lab) (i : BufId) (p : π) : Decidable (Waits c i p) := by
  unfold Waits; infer_instance

section Reachable

variable {c : Config π (BSt π) Lab}

theorem next_acquire_iff (hH : (bioProto d).Holds c) :
    c.next p = some (.acquire i) ↔ (c.shared.phase p).WaitsFor i := by
  refine ⟨fun hl => ?_, fun hw => ?_⟩
  · obtain ⟨b, hb⟩ := hH.lab_next hl
    rw [show c.shared.phase p = .waiting i b from hb]
    rfl
  · cases hn : c.next p with
    | none =>
      rw [show c.shared.phase p = .idle from hH.idle_next hn] at hw
      exact hw.elim
    | some l =>
      have := hH.lab_next hn
      cases hph : c.shared.phase p with
      | waiting j b =>
        rw [hph] at hw
        obtain rfl : j = i := hw
        cases l <;> simp [bioProto, view, hph] at this
        rw [this]
      | _ => rw [hph] at hw; exact hw.elim

theorem next_giveBack_iff (hH : (bioProto d).Holds c) :
    c.next p = some (.giveBack i) ↔ c.shared.phase p = .releasing i := by
  refine ⟨fun hl => hH.lab_next hl, fun hb => ?_⟩
  cases hn : c.next p with
  | none => exact absurd (hH.idle_next hn) (by simp [bioProto, view, hb])
  | some l =>
    have := hH.lab_next hn
    cases l <;> simp [bioProto, view, hb] at this
    rw [this]

theorem refsOf_eq (hH : (bioProto d).Holds c) (i : BufId) (p : π) :
    refsOf (c.shared.buf i).lock i p (c.shared.phase p) =
      (if Holds c i p then 1 else 0) + (if Waits c i p then 1 else 0) := by
  have hok := hH.1.refs.phases p
  simp only [Holds, Waits, next_acquire_iff hH, next_giveBack_iff hH, refsOf]
  cases hph : c.shared.phase p with
  | waiting j b => by_cases hji : j = i <;> simp [Phase.Refers, Phase.WaitsFor, hji]
  | releasing j =>
    rw [hph] at hok
    by_cases hji : j = i
    · subst hji
      simp [Phase.Refers, Phase.WaitsFor, show (c.shared.buf j).lock ≠ some p from hok]
    · simp [Phase.Refers, Phase.WaitsFor, hji]
  | _ => simp [Phase.Refers, Phase.WaitsFor]

theorem refcnt_eq (hH : (bioProto d).Holds c) (i : BufId) : (c.shared.buf i).refcnt =
    (Finset.univ.filter (Holds c i)).card + (Finset.univ.filter (Waits c i)).card := by
  rw [hH.1.refs.count i, Finset.card_filter, Finset.card_filter, ← Finset.sum_add_distrib]
  exact Finset.sum_congr rfl fun p _ => refsOf_eq hH i p

/-- **The buffer cache is a block store.** In every reachable state the LRU list is a circular
doubly linked list of all buffers, a block is in one buffer at most, `refcnt` counts holders and
waiters, no step takes the block away from a buffer that is referred to or dirty, and every
`bread` has returned the contents last left in its block. -/
theorem cache_refines_store (hr : Reach (bioSys π) (.start (boot d)) c) :
    (∃ l, c.shared.links.Ring l ∧ l.Perm (List.finRange NBUF)) ∧
    (∀ i j, (c.shared.buf i).dev = ROOTDEV → (c.shared.buf j).dev = ROOTDEV →
      (c.shared.buf i).blockno = (c.shared.buf j).blockno → i = j) ∧
    (∀ i, (c.shared.buf i).refcnt =
      (Finset.univ.filter (Holds c i)).card + (Finset.univ.filter (Waits c i)).card) ∧
    (∀ p c', c.exec p = some c' → KeepsBlocks c.shared c'.shared) ∧
    ReadsLast d c.shared.hist := by
  have hH : (bioProto d).Holds c :=
    reach_sound bioProto_sound (fun _ _ _ _ _ => trivial)
      (Proto.Holds.start inv_boot fun _ => rfl) hr
  obtain ⟨⟨l, hring, hall⟩, hrefs, hcontents⟩ := hH.1
  refine ⟨⟨l, hring, ?_⟩, hrefs.uniq, refcnt_eq hH, fun p c' he => ?_, hcontents.reads⟩
  · refine (List.perm_ext_iff_of_nodup hring.2 (List.nodup_finRange NBUF)).mpr fun i => ?_
    simp [hall i]
  · exact hH.guar_exec (fun _ _ => trivial) he

/-! ## The demand for buffers -/

/-- The references to buffers: of those who hold one, and of those who wait for one. -/
def bufRefs (c : Config π (BSt π) Lab) : Nat :=
  ∑ i, ((Finset.univ.filter (Holds c i)).card + (Finset.univ.filter (Waits c i)).card)

/-- The buffers that are pinned in the cache with `B_DIRTY`. -/
def pinned (s : BSt π) : Nat := (Finset.univ.filter fun i => (s.buf i).dirty = true).card

/-- The walk of `bget` for a buffer to recycle. -/
def recyclable (s : BSt π) : Option (Option BufId) :=
  walk s.links.prev (fun i => (s.buf i).refcnt = 0 ∧ (s.buf i).dirty = false) (NBUF + 1)
    (s.links.prev none)

theorem recyclable_of_few (hH : (bioProto d).Holds c)
    (hfew : bufRefs c + pinned c.shared < NBUF) : ∃ i, recyclable c.shared = some (some i) := by
  obtain ⟨r, hprev, -, hnone⟩ := find_prev hH.1
    (fun i => (c.shared.buf i).refcnt = 0 ∧ (c.shared.buf i).dirty = false)
  have hsome : r ≠ none := fun hn => by
    -- every buffer is referred to or dirty
    have hbusy : ∀ i, 1 ≤ (c.shared.buf i).refcnt + if (c.shared.buf i).dirty =
      true then 1 else 0 := by
      intro i
      have := hnone hn i
      simp only [decide_eq_false_iff_not, not_and, Bool.not_eq_false] at this
      split
      · omega
      · rename_i hclean
        have : (c.shared.buf i).refcnt ≠ 0 := fun h0 => hclean (this h0)
        omega
    have hsum : ∑ _i : BufId, 1 ≤
        ∑ i, ((c.shared.buf i).refcnt + if (c.shared.buf i).dirty = true then 1 else 0) :=
      Finset.sum_le_sum fun i _ => hbusy i
    rw [← Finset.card_eq_sum_ones, Finset.card_univ, Fintype.card_fin, Finset.sum_add_distrib,
      ← Finset.card_filter] at hsum
    have hrefs : ∑ i, (c.shared.buf i).refcnt = bufRefs c :=
      Finset.sum_congr rfl fun i _ => refcnt_eq hH i
    rw [hrefs] at hsum
    exact absurd hfew (by unfold pinned; omega)
  obtain ⟨i, rfl⟩ := Option.ne_none_iff_exists'.1 hsome
  exact ⟨i, hprev⟩

end Reachable

/-! ## The panic of `bget` -/

section Panics

/-- The panic of `bget`. -/
def noBuffers : String := "bget: no buffers"

/-- A protocol that asks nothing of the processes but that `bget` panics only if no buffer can be
recycled. -/
def panicProto : Proto π (BSt π) Lab Unit where
  inv _ := True
  guar _ _ := True
  view _ _ := ()
  lab _ _ _ := True
  cond _ _ _ := True
  panics s m := m = noBuffers → recyclable s = some none
  faults := True
  idle _ _ := True

omit [Fintype π] [DecidableEq π] in
theorem panicProto_step {l : Lab} {f : π → BSt π → Outcome (BSt π) α} {Q : α → Unit → Prop}
    {v : Unit} (hf : ∀ s m, f p s = .panic m → panicProto.panics s m) (hQ : ∀ a v, Q a v) :
    wp panicProto p (.step l f) Q v := by
  have hkeeps : ∀ s s' : BSt π, panicProto.Keeps p s s' := fun _ _ =>
    ⟨trivial, fun _ _ => Or.inl rfl, trivial⟩
  refine wp_step trivial fun s _ _ _ => ?_
  cases ho : f p s with
  | done a s' => exact ⟨hkeeps s s', hQ a _⟩
  | again s' => exact ⟨hkeeps s s', rfl⟩
  | blocked => trivial
  | panic m => exact hf s m ho
  | fault => trivial

variable {m : String}

section
omit [Fintype π]

theorem iderw_panic {s : BSt π} (h : iderw s p i = .panic m) : m ≠ noBuffers := by
  unfold iderw at h
  dsimp only at h
  split_ifs at h <;> cases h <;> decide

theorem scan_panic {s : BSt π} {dev b : Nat} (h : scan dev b p s = .panic m) :
    recyclable s = some none := by
  unfold scan at h
  split at h
  · cases h
  · cases h
  · split at h
    · cases h
    · cases h
    · assumption

theorem panicProto_sound : (panicProto (π := π)).Sound (bioSys π) := by
  refine ⟨fun p s x _ _ hx => ?_, fun _ _ _ he => he.elim⟩
  rcases hx with ⟨b, rfl⟩ | ⟨i, -, rfl | ⟨v, rfl | rfl⟩⟩
  · refine wp_bind (wp_bind (wp_bind (panicProto_step (fun s m h _ => scan_panic h) fun i _ =>
      wp_bind (panicProto_step (fun s m h => ?_) fun _ _ => wp_ret.2 (panicProto_step
        (fun s m h => ?_) fun _ _ => trivial)))))
    · split at h <;> cases h
    · split at h
      · cases h
      · split at h
        · cases h
        · rename_i hm
          cases h
          exact fun he => absurd he (iderw_panic hm)
        · cases h
  · refine wp_bind (panicProto_step (fun s m h => ?_) fun _ _ =>
      panicProto_step (fun s m h => ?_) fun _ _ => trivial)
    · split at h
      · cases h
        exact fun he => absurd he (by decide)
      · cases h
    · dsimp only at h
      split at h <;> cases h
  · exact wp_bind (panicProto_step (fun _ _ h => by cases h) fun _ _ =>
      panicProto_step (fun _ _ h => by cases h) fun _ _ => trivial)
  · refine wp_bind (panicProto_step (fun _ _ h => by cases h) fun _ _ =>
      wp_bind (panicProto_step (fun s m h => ?_) fun _ _ =>
        panicProto_step (fun s m h he => absurd he (iderw_panic h)) fun _ _ => trivial))
    split at h
    · cases h
      exact fun he => absurd he (by decide)
    · cases h

end

end Panics

section Reachable

variable {c : Config π (BSt π) Lab}

theorem bget_finds (hr : Reach (bioSys π) (.start (boot d)) c)
    (hfew : bufRefs c + pinned c.shared < NBUF) (p : π) :
    (∀ b, (bget ROOTDEV b).panicOf p c.shared = none) ∧ ¬ c.Panics p noBuffers := by
  have hH : (bioProto d).Holds c :=
    reach_sound bioProto_sound (fun _ _ _ _ _ => trivial)
      (Proto.Holds.start inv_boot fun _ => rfl) hr
  obtain ⟨i', hprev⟩ := recyclable_of_few hH hfew
  refine ⟨fun b => ?_, fun hp => ?_⟩
  · have hacquire : ∀ (i : BufId) (s' : BSt π),
        (acquiresleep i b >>= fun _ => (pure i : Prog π (BSt π) Lab BufId)).panicOf p
          s' = none := by
      intro i s'
      simp only [acquiresleep, Prog.step, Prog.act_bind, Prog.panicOf]
      cases (s'.buf i).lock with
      | some q => rfl
      | none => rfl
    obtain ⟨r, hnext, -, -⟩ := find_next hH.1
      (fun i => (c.shared.buf i).dev = ROOTDEV ∧ (c.shared.buf i).blockno = b)
    unfold recyclable at hprev
    cases r with
    | some i =>
      simp only [bget, Prog.step, Prog.act_bind, Prog.ret_bind, Prog.panicOf, scan, hnext, hacquire]
    | none =>
      simp only [bget, Prog.step, Prog.act_bind, Prog.ret_bind, Prog.panicOf, scan, hnext, hprev,
        hacquire]
  · have hP : panicProto.Holds c := reach_sound panicProto_sound (fun _ _ _ _ _ => trivial)
      (Proto.Holds.start trivial fun _ => trivial) hr
    have hnone := hP.panics_of (fun _ _ => trivial) hp rfl
    rw [hprev] at hnone
    cases hnone

/-- No change is lost: what was last left in a block is on the disk, or in a dirty buffer. -/
theorem block_kept (hr : Reach (bioSys π) (.start (boot d)) c) (b : Nat) :
    c.shared.disk b = lastLeft d c.shared.hist b ∨
    ∃ i, (c.shared.buf i).dev = ROOTDEV ∧ (c.shared.buf i).blockno = b ∧
      (c.shared.buf i).dirty = true ∧ ((∀ p, c.shared.phase p ≠ .editing i) →
        (c.shared.buf i).data = lastLeft d c.shared.hist b) := by
  have hH : (bioProto d).Holds c := reach_sound bioProto_sound (fun _ _ _ _ _ => trivial)
    (Proto.Holds.start inv_boot fun _ => rfl) hr
  obtain ⟨-, hrefs, hcontents⟩ := hH.1
  by_cases hd : ∃ i, (c.shared.buf i).dev = ROOTDEV ∧ (c.shared.buf i).blockno = b ∧
      (c.shared.buf i).dirty = true
  · obtain ⟨i, hdev, rfl, hdirty⟩ := hd
    exact .inr ⟨i, hdev, rfl, hdirty, hcontents.data i hdev (hrefs.dirty i hdirty)⟩
  · refine .inl (hcontents.disk b fun i hdev hb => Bool.eq_false_iff.2 fun hdirty => hd ?_)
    exact ⟨i, hdev, hb, hdirty⟩

end Reachable

theorem block_kept_logged : ∃ c, Reach (bioSys (Fin 2)) (.start (boot fun _ => Bytes.zero)) c ∧
    c.shared.disk 5 ≠ lastLeft (fun _ => Bytes.zero) c.shared.hist 5 ∧
    ∃ i, (c.shared.buf i).blockno = 5 ∧ (c.shared.buf i).dirty = true := by
  let k : Fin BSIZE := ⟨0, by decide⟩
  obtain ⟨c, hc, hk⟩ := Run.of_play (bioSys (Fin 2)) (fun _ _ => True) callOf_calls
    (c := .start (boot fun _ => Bytes.zero))
    [.call 0 (.read 5), .act 0 3, .call 0 (.log 0 fun _ => 7), .act 0 2]
    (P := fun c => c.shared.disk 5 k ≠ lastLeft (fun _ => Bytes.zero) c.shared.hist 5 k)
    (by decide +kernel)
  have hne := fun h => hk (congrFun h k)
  obtain ⟨i, -, hb, hdirty, -⟩ := (block_kept hc 5).resolve_left hne
  exact ⟨c, hc, hne, i, hb, hdirty⟩

theorem cache_refines_store_two_readers : ∃ c,
    Reach (bioSys (Fin 2)) (.start (boot fun _ => Bytes.zero)) c ∧ c.shared.hist.length = 3 ∧
    (c.shared.buf 0).refcnt = 1 ∧ ReadsLast (fun _ => Bytes.zero) c.shared.hist := by
  obtain ⟨c, hc, h1, h2⟩ := Run.of_play (bioSys (Fin 2)) (fun _ _ => True) callOf_calls
    (c := .start (boot fun _ => Bytes.zero))
    [.call 0 (.read 5), .act 0 3, .call 0 (.log 0 fun _ => 7), .act 0 2, .call 1 (.read 5),
      .act 1 1, .call 0 (.release 0), .act 0 2, .act 1 2]
    (P := fun c => c.shared.hist.length = 3 ∧ (c.shared.buf 0).refcnt = 1) (by decide +kernel)
  exact ⟨c, hc, h1, h2, (cache_refines_store hc).2.2.2.2⟩

end Xv6.Bio
