import Mathlib.Algebra.Group.Pi.Lemmas
import Mathlib.Algebra.Ring.Int.Defs
import Xv6.File.Table

/-!
# Exact reference counts

Inside a system call the count of a file may be ahead of the descriptors that point to it, by a
reference that the call has in hand, or behind them, when a descriptor has been installed before
it is counted. `Ok hand` is the invariant with these differences `hand`; between the calls they
are all 0.
-/

namespace Xv6.Files

open Function (update update_of_ne update_self)

variable {N M L : Nat} {P : Type} {s s' : Tables N M L P} {pages : List P}
  {hand : Fin L → Int} {f : Fin L} {p : Fin N} {x : Fin N × Fin M}

/-! ## The invariant -/

def File.endOf (v : File P) : Option (Option P × Bool) :=
  if v.type = .FD_PIPE then some (v.pipe, v.writable) else none

variable {v : File P}

theorem File.endOf_none (h : v.type ≠ .FD_PIPE) : v.endOf = none := if_neg h

theorem File.endOf_released (v : File P) : v.released.endOf = none := rfl

/-- Every count is the number of descriptors and the references in hand. -/
structure Counts (hand : Fin L → Int) (s : Tables N M L P) : Prop where
  refs : ∀ f, ((s.file f).ref : Int) = s.refs f + hand f
  unused : ∀ f, (s.file f).ref = 0 → (s.file f).type = .FD_NONE

/-- Pipes and their files: the ends that are open are those with a file, of which there is one. -/
structure Piped (s : Tables N M L P) : Prop where
  page : ∀ f o w, (s.file f).endOf = some (o, w) →
    ∃ q e, o = some q ∧ s.pipe q = some e ∧ e.isOpen w = true
  ends : ∀ q e w, s.pipe q = some e → e.isOpen w = true →
    ∃ f, (s.file f).endOf = some (some q, w)
  used : ∀ q e, s.pipe q = some e → ∃ w, e.isOpen w = true
  inj : ∀ f f' q w, (s.file f).endOf = some (some q, w) → (s.file f').endOf = some (some q, w) →
    f = f'

/-- Each page is free, a pipe or held elsewhere, and only one of these. -/
structure Paged (pages : List P) (s : Tables N M L P) : Prop where
  nodup : s.freelist.Nodup
  held : s.other.Nodup
  free : ∀ q ∈ s.freelist, q ∉ s.other ∧ s.pipe q = none
  other : ∀ q ∈ s.other, s.pipe q = none
  cover : ∀ q, q ∈ pages ↔ q ∈ s.freelist ∨ q ∈ s.other ∨ ∃ e, s.pipe q = some e

structure Ok (pages : List P) (hand : Fin L → Int) (s : Tables N M L P) : Prop where
  counts : Counts hand s
  piped : Piped s
  paged : Paged pages s

def Closed (s : Tables N M L P) : Prop := ∀ p, ¬ s.alive p → ∀ fd, s.ofile (p, fd) = none

/-! ## Changes of one cell -/

theorem refs_setOfile (s : Tables N M L P) (x : Fin N × Fin M) (v : Option (Fin L)) (f : Fin L) :
    (s.setOfile x v).refs f + (if s.ofile x = some f then 1 else 0)
      = s.refs f + if v = some f then 1 else 0 := by
  have h := Lib.sum_eq_off
    (f := fun y => if (s.setOfile x v).ofile y = some f then 1 else 0)
    (g := fun y => if s.ofile y = some f then 1 else 0) x
    (fun y hy => by simp only [Tables.setOfile, update_of_ne hy])
  simpa only [Tables.refs, Tables.setOfile, update_self] using h

theorem refs_pos (h : s.ofile x = some f) : 0 < s.refs f := by
  have := Lib.le_sum (fun y => if s.ofile y = some f then 1 else 0) x
  simp only [h, if_true] at this
  exact this

theorem Piped.congr (h : Piped s) (hp : s'.pipe = s.pipe)
    (hf : ∀ f, (s'.file f).endOf = (s.file f).endOf) : Piped s' := by
  constructor
  · intro f o w ho
    rw [hf] at ho
    rw [hp]
    exact h.page f o w ho
  · intro q e w he hw
    rw [hp] at he
    obtain ⟨f, hfe⟩ := h.ends q e w he hw
    exact ⟨f, by rw [hf, hfe]⟩
  · rw [hp]
    exact h.used
  · intro f f' q w h1 h2
    rw [hf] at h1 h2
    exact h.inj f f' q w h1 h2

theorem Paged.congr (h : Paged pages s) (hp : s'.pipe = s.pipe) (hf : s'.freelist = s.freelist)
    (ho : s'.other = s.other) : Paged pages s' := by
  refine ⟨?_, ?_, ?_, ?_, ?_⟩
  · rw [hf]
    exact h.nodup
  · rw [ho]
    exact h.held
  · rw [hf, ho, hp]
    exact h.free
  · rw [ho, hp]
    exact h.other
  · rw [hf, ho, hp]
    exact h.cover

theorem endOf_setFile (h : (s.file f).endOf = v.endOf) (g : Fin L) :
    ((s.setFile f v).file g).endOf = (s.file g).endOf := by
  by_cases hg : g = f
  · subst hg
    simp only [Tables.setFile, update_self, h]
  · simp only [Tables.setFile, update_of_ne hg]

variable {d : Int}

theorem Counts.setFile (h : Counts hand s) (hr : (v.ref : Int) = (s.file f).ref + d)
    (hv : v.ref = 0 → v.type = .FD_NONE) : Counts (hand + Pi.single f d) (s.setFile f v) := by
  constructor
  · intro g
    have hg := h.refs g
    change _ = (s.refs g : Int) + (hand g + (Pi.single f d : Fin L → Int) g)
    by_cases hgf : g = f
    · subst hgf
      simp only [Tables.setFile, update_self, Pi.single_eq_same]
      omega
    · simp only [Tables.setFile, update_of_ne hgf, Pi.single_eq_of_ne hgf]
      omega
  · intro g hg
    by_cases hgf : g = f
    · subst hgf
      simp only [Tables.setFile, update_self] at hg ⊢
      exact hv hg
    · simp only [Tables.setFile, update_of_ne hgf] at hg ⊢
      exact h.unused g hg

theorem Ok.setFile (h : Ok pages hand s) (hr : (v.ref : Int) = (s.file f).ref + d)
    (hv : v.ref = 0 → v.type = .FD_NONE) (he : (s.file f).endOf = v.endOf) :
    Ok pages (hand + Pi.single f d) (s.setFile f v) :=
  ⟨h.counts.setFile hr hv, h.piped.congr rfl (endOf_setFile he),
    h.paged.congr rfl rfl rfl⟩

theorem Ok.install (h : Ok pages hand s) (hx : s.ofile x = none) :
    Ok pages (hand - Pi.single f 1) (s.setOfile x (some f)) := by
  refine ⟨⟨fun g => ?_, h.counts.unused⟩, h.piped.congr rfl fun _ => rfl,
    h.paged.congr rfl rfl rfl⟩
  have hg := h.counts.refs g
  have hs := refs_setOfile s x (some f) g
  change ((s.file g).ref : Int) = _ + (hand g - (Pi.single f 1 : Fin L → Int) g)
  by_cases hgf : g = f
  · subst hgf
    simp only [hx, Pi.single_eq_same, reduceCtorEq, if_false, if_true] at hs ⊢
    omega
  · simp only [hx, Pi.single_eq_of_ne hgf, Option.some.injEq, Ne.symm hgf, reduceCtorEq,
      if_false] at hs ⊢
    omega

theorem Ok.clear (h : Ok pages hand s) (hx : s.ofile x = some f) :
    Ok pages (hand + Pi.single f 1) (s.setOfile x none) := by
  refine ⟨⟨fun g => ?_, h.counts.unused⟩, h.piped.congr rfl fun _ => rfl,
    h.paged.congr rfl rfl rfl⟩
  have hg := h.counts.refs g
  have hs := refs_setOfile s x none g
  change ((s.file g).ref : Int) = _ + (hand g + (Pi.single f 1 : Fin L → Int) g)
  by_cases hgf : g = f
  · subst hgf
    simp only [hx, Pi.single_eq_same, reduceCtorEq, if_false, if_true] at hs ⊢
    omega
  · simp only [hx, Pi.single_eq_of_ne hgf, Option.some.injEq, Ne.symm hgf, reduceCtorEq,
      if_false] at hs ⊢
    omega

/-! ## file.c -/

theorem filealloc_spec (h : Ok pages hand s) :
    filealloc s = (none, s) ∨ ∃ f s', filealloc s = (some f, s') ∧ (s.file f).ref = 0 ∧
      (s'.file f).ref = 1 ∧ (s'.file f).type = .FD_NONE ∧ s'.ofile = s.ofile ∧
      s'.state = s.state ∧ Ok pages (hand + Pi.single f 1) s' := by
  unfold filealloc
  cases hf : (List.finRange L).find? fun f => decide ((s.file f).ref = 0) with
  | none => exact .inl rfl
  | some f =>
    have hz : (s.file f).ref = 0 := by simpa using List.find?_some hf
    have ht := h.counts.unused f hz
    refine .inr ⟨f, _, rfl, hz, ?_, ?_, rfl, rfl, h.setFile ?_ ?_ rfl⟩
    · simp [Tables.setFile]
    · simpa [Tables.setFile] using ht
    · simp [hz]
    · exact fun h0 => absurd h0 one_ne_zero

theorem filedup_spec (h : Ok pages hand s) (hf : 0 < (s.file f).ref) :
    ∃ s', filedup f s = .ok s' ∧ s'.ofile = s.ofile ∧ s'.state = s.state ∧
      Ok pages (hand + Pi.single f 1) s' := by
  refine ⟨_, if_neg (by omega), rfl, rfl, h.setFile ?_ ?_ rfl⟩
  · simp
  · exact fun h0 => absurd h0 (Nat.succ_ne_zero _)

def Ends.left (e : Ends) : Option Ends :=
  if e.readopen = false ∧ e.writeopen = false then none else some e

variable {e : Ends}

theorem Ends.left_eq_some {e' : Ends} : e.left = some e' ↔ e' = e ∧ ∃ w, e.isOpen w = true := by
  obtain ⟨r, w⟩ := e
  cases r <;> cases w <;> simp [left, isOpen] <;> exact eq_comm

variable {w : Bool}

theorem Ends.isOpen_shut {w' : Bool} : (e.shut w).isOpen w' = true ↔ w' ≠ w ∧
    e.isOpen w' = true := by
  cases w <;> cases w' <;> simp [shut, isOpen]

section Close

variable [DecidableEq P]

variable {q : P}

theorem Piped.shut (h : Piped s) (he : s.pipe q = some e) (hf : (s.file f).endOf = some (some q, w))
    (hv : v.endOf = none) (hfile : s'.file = (s.setFile f v).file)
    (hpipe : s'.pipe = update s.pipe q (e.shut w).left) : Piped s' := by
  -- the other files keep their ends, and none is at the end that is given up
  have hother : ∀ g q' w', (s'.file g).endOf = some (q', w') ↔
      (s.file g).endOf = some (q', w') ∧ ¬ (q' = some q ∧ w' = w) := by
    intro g q' w'
    rw [hfile]
    by_cases hgf : g = f
    · subst hgf
      simp only [Tables.setFile, update_self, hv, hf, Option.some.injEq, Prod.mk.injEq,
        reduceCtorEq, false_iff]
      rintro ⟨⟨rfl, rfl⟩, hne⟩
      exact hne ⟨rfl, rfl⟩
    · simp only [Tables.setFile, update_of_ne hgf, iff_self_and]
      rintro hg ⟨rfl, rfl⟩
      exact hgf (h.inj g f q w' hg hf)
  -- a pipe that is left has all its other ends
  have hleft : ∀ q' e', s'.pipe q' = some e' ↔ (q' ≠ q ∧ s.pipe q' = some e') ∨
      (q' = q ∧ e' = e.shut w ∧ ∃ w', (e.shut w).isOpen w' = true) := by
    intro q' e'
    rw [hpipe]
    by_cases hq : q' = q
    · subst hq
      simp only [update_self, Ends.left_eq_some, ne_eq, not_true_eq_false, false_and,
        true_and, false_or]
    · simp only [update_of_ne hq, ne_eq, hq, not_false_eq_true, true_and, false_and,
        or_false]
  constructor
  · intro g o w' hg
    obtain ⟨hg, hne⟩ := (hother g o w').1 hg
    obtain ⟨q', e', rfl, he', hw'⟩ := h.page g o w' hg
    by_cases hq : q' = q
    · subst hq
      rw [he] at he'
      cases he'
      have hopen := Ends.isOpen_shut.2 ⟨fun hww => hne ⟨rfl, hww⟩, hw'⟩
      exact ⟨q', _, rfl, (hleft q' _).2 (.inr ⟨rfl, rfl, w', hopen⟩), hopen⟩
    · exact ⟨q', e', rfl, (hleft q' e').2 (.inl ⟨hq, he'⟩), hw'⟩
  · intro q' e' w' he' hw'
    rcases (hleft q' e').1 he' with ⟨hq, he'⟩ | ⟨rfl, rfl, -⟩
    · obtain ⟨g, hg⟩ := h.ends q' e' w' he' hw'
      exact ⟨g, (hother g _ w').2 ⟨hg, fun hqw => hq (Option.some.inj hqw.1)⟩⟩
    · obtain ⟨hww, hw'⟩ := Ends.isOpen_shut.1 hw'
      obtain ⟨g, hg⟩ := h.ends q' e w' he hw'
      exact ⟨g, (hother g _ w').2 ⟨hg, fun hqw => hww hqw.2⟩⟩
  · intro q' e' he'
    rcases (hleft q' e').1 he' with ⟨-, he'⟩ | ⟨-, rfl, hopen⟩
    · exact h.used q' e' he'
    · exact hopen
  · intro g g' q' w' hg hg'
    exact h.inj g g' q' w' ((hother g _ w').1 hg).1 ((hother g' _ w').1 hg').1

omit [DecidableEq P] in
theorem Paged.pipe_used (h : Paged pages s) (he : s.pipe q = some e) :
    q ∉ s.freelist ∧ q ∉ s.other := by
  constructor
  · intro hq
    have := (h.free q hq).2
    rw [he] at this
    cases this
  · intro hq
    have := h.other q hq
    rw [he] at this
    cases this

theorem Paged.shut {o : Option Ends} (h : Paged pages s) (he : s.pipe q = some e)
    (hpipe : s'.pipe = update s.pipe q o)
    (hfree : s'.freelist = if o.isNone then q :: s.freelist else s.freelist)
    (hother : s'.other = s.other) : Paged pages s' := by
  obtain ⟨hqf, hqo⟩ := h.pipe_used he
  have hne : ∀ q', q' ≠ q → s'.pipe q' = s.pipe q' := fun q' hq' => by
    rw [hpipe, update_of_ne hq']
  have hmem : ∀ q', q' ∈ s'.freelist ↔ o = none ∧ q' = q ∨ q' ∈ s.freelist := fun q' => by
    rw [hfree]
    cases o <;> simp
  refine ⟨?_, ?_, ?_, ?_, ?_⟩
  · rw [hfree]
    split
    · exact List.nodup_cons.2 ⟨hqf, h.nodup⟩
    · exact h.nodup
  · rw [hother]
    exact h.held
  · intro q' hq'
    rw [hother]
    rcases (hmem q').1 hq' with ⟨rfl, rfl⟩ | hq'
    · exact ⟨hqo, by rw [hpipe, update_self]⟩
    · rw [hne q' fun heq => hqf (heq ▸ hq')]
      exact h.free q' hq'
  · intro q' hq'
    rw [hother] at hq'
    rw [hne q' fun heq => hqo (heq ▸ hq')]
    exact h.other q' hq'
  · intro q'
    rw [h.cover q', hmem, hother, hpipe]
    by_cases hq : q' = q
    · subst hq
      cases o <;> simp [he]
    · simp [hq]

theorem pipeclose_spec (he : s.pipe q = some e) :
    ∃ s', pipeclose q w s = .ok s' ∧ s'.file = s.file ∧ s'.ofile = s.ofile ∧
      s'.state = s.state ∧ s'.other = s.other ∧
      s'.pipe = update s.pipe q (e.shut w).left ∧
      s'.freelist = if (e.shut w).left.isNone then q :: s.freelist else s.freelist := by
  by_cases hboth : (e.shut w).readopen = false ∧ (e.shut w).writeopen = false
  · exact ⟨{ s with pipe := update s.pipe q none, freelist := q :: s.freelist },
      by simp only [pipeclose, he, if_pos hboth], rfl, rfl, rfl, rfl,
      by simp only [Ends.left, if_pos hboth], by simp [Ends.left, hboth]⟩
  · exact ⟨{ s with pipe := update s.pipe q (some (e.shut w)) },
      by simp only [pipeclose, he, if_neg hboth], rfl, rfl, rfl, rfl,
      by simp only [Ends.left, if_neg hboth], by simp [Ends.left, hboth]⟩

theorem fileclose_spec (h : Ok pages hand s) (hf : 0 < (s.file f).ref) :
    ∃ s', fileclose f s = .ok s' ∧ s'.ofile = s.ofile ∧ s'.state = s.state ∧
      Ok pages (hand - Pi.single f 1) s' := by
  have hneg : hand - Pi.single f 1 = hand + Pi.single f (-1) := by
    rw [Pi.single_neg, sub_eq_add_neg]
  rw [hneg, fileclose, if_neg (by omega)]
  by_cases hr : (s.file f).ref - 1 > 0
  · rw [if_pos hr]
    refine ⟨_, rfl, rfl, rfl, h.setFile ?_ ?_ rfl⟩
    · dsimp only
      omega
    · exact fun h0 => absurd h0 (by dsimp only; omega)
  · rw [if_neg hr]
    -- the last reference: the file has no type from here on
    have hc : Counts (hand + Pi.single f (-1))
        (s.setFile f (s.file f).released) :=
      h.counts.setFile (by simp only [File.released]; omega) fun _ => rfl
    by_cases ht : (s.file f).type = .FD_PIPE
    · have he : (s.file f).endOf = some ((s.file f).pipe, (s.file f).writable) := if_pos ht
      obtain ⟨q, e, hq, hqe, -⟩ := h.piped.page f _ _ he
      rw [hq] at he
      obtain ⟨s', hs', hfile, hofile, hstate, hother, hpipe, hfree⟩ :=
        pipeclose_spec (s := s.setFile f (s.file f).released)
          (w := (s.file f).writable) hqe
      refine ⟨s', by simp only [ht, hq, hs'], hofile, hstate, ⟨?_, ?_⟩,
        h.piped.shut hqe he (File.endOf_released _) hfile hpipe,
        h.paged.shut hqe hpipe hfree hother⟩
      · intro g
        have := hc.refs g
        rw [hfile, this]
        simp only [Tables.refs, hofile]
      · intro g hg
        rw [hfile] at hg ⊢
        exact hc.unused g hg
    · refine ⟨s.setFile f (s.file f).released, ?_, rfl, rfl, hc,
        h.piped.congr rfl (endOf_setFile ?_), h.paged.congr rfl rfl rfl⟩
      · dsimp only
        split
        · exact absurd ‹_› ht
        · rfl
      · rw [File.endOf_none ht, File.endOf_released]

end Close

end Xv6.Files
