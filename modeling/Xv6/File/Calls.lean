import Mathlib.Algebra.BigOperators.Group.Finset.Piecewise
import Xv6.File.Refs

/-!
# Runs of descriptor calls

Every system call that finds the counts exact leaves them exact, on its error paths too, and no
call panics.
-/

namespace Xv6.Files

open Function (update update_of_ne update_self)

variable {N M L : Nat} {P : Type} {s s' s'' : Tables N M L P} {pages : List P}
  {hand : Fin L → Int} {f : Fin L} {p : Fin N}

/-- A call of process `p` changes no state of a process and no other's descriptors. -/
structure Own (p : Fin N) (s s' : Tables N M L P) : Prop where
  state : s'.state = s.state
  ofile : ∀ x, x.1 ≠ p → s'.ofile x = s.ofile x

theorem Own.refl (p : Fin N) (s : Tables N M L P) : Own p s s := ⟨rfl, fun _ _ => rfl⟩

theorem Own.trans (h : Own p s s') (h' : Own p s' s'') : Own p s s'' :=
  ⟨h'.state.trans h.state, fun x hx => (h'.ofile x hx).trans (h.ofile x hx)⟩

theorem Own.of_eq (p : Fin N) (ho : s'.ofile = s.ofile) (hs : s'.state = s.state) : Own p s s' :=
  ⟨hs, fun x _ => by rw [ho]⟩

theorem Own.setOfile (p : Fin N) (s : Tables N M L P) (fd : Fin M) (v : Option (Fin L)) :
    Own p s (s.setOfile (p, fd) v) := by
  refine ⟨rfl, fun x hx => ?_⟩
  have hne : x ≠ (p, fd) := fun h => hx (congrArg Prod.fst h)
  simp only [Tables.setOfile, update_of_ne hne]

theorem Own.closed (h : Own p s s') (hp : s.alive p) (hc : Closed s) : Closed s' := by
  intro q hq fd
  have hq' : ¬ s.alive q := by
    simpa only [Tables.alive, h.state] using hq
  have hne : q ≠ p := fun hqp => hq' (hqp ▸ hp)
  rw [h.ofile (q, fd) hne]
  exact hc q hq' fd

/-! ## Descriptors -/

theorem argfd_spec {fd : Int} {fd' : Fin M} (h : argfd p fd s = some (fd', f)) :
    s.ofile (p, fd') = some f := by
  unfold argfd at h
  split at h
  · obtain ⟨g, hg, heq⟩ := Option.map_eq_some_iff.1 h
    cases heq
    exact hg
  · cases h

theorem fdalloc_spec (p : Fin N) (f : Fin L) (s : Tables N M L P) :
    fdalloc p f s = (none, s) ∨ ∃ fd, s.ofile (p, fd) = none ∧
      fdalloc p f s = (some fd, s.setOfile (p, fd) (some f)) := by
  unfold fdalloc
  cases h : (List.finRange M).find? fun fd => (s.ofile (p, fd)).isNone with
  | none => exact .inl rfl
  | some fd => exact .inr ⟨fd, by simpa using List.find?_some h, rfl⟩

theorem Ok.ref_pos (h : Ok pages 0 s) {x : Fin N × Fin M} (hx : s.ofile x = some f) :
    0 < (s.file f).ref := by
  have h1 := h.counts.refs f
  have h2 := refs_pos hx
  simp only [Pi.zero_apply] at h1
  omega

theorem Ok.hand_pos (h : Ok pages hand s) (hf : 0 < hand f) : 0 < (s.file f).ref := by
  have := h.counts.refs f
  omega

/-- What a call of process `p` returns and leaves behind. -/
def Fine (pages : List P) (p : Fin N) (s : Tables N M L P)
    (r : Except Panic (Int × Tables N M L P)) : Prop :=
  ∃ v s', r = .ok (v, s') ∧ Ok pages 0 s' ∧ Own p s s'

theorem sysDup_fine (h : Ok pages 0 s) (fd : Int) : Fine pages p s (sysDup p fd s) := by
  unfold sysDup
  cases ha : argfd p fd s with
  | none => exact ⟨-1, s, rfl, h, .refl p s⟩
  | some a =>
    obtain ⟨fd', f⟩ := a
    have hf := argfd_spec ha
    dsimp only
    rcases fdalloc_spec p f s with hn | ⟨fd1, hfd, hn⟩
    · rw [hn]
      exact ⟨-1, s, rfl, h, .refl p s⟩
    · rw [hn]
      -- the new descriptor is not counted yet
      obtain ⟨s', hs', ho, hst, hok⟩ :=
        filedup_spec (h.install (f := f) hfd) (f := f) (h.ref_pos hf)
      rw [sub_add_cancel] at hok
      refine ⟨fd1, s', ?_, hok, (Own.setOfile p s fd1 (some f)).trans (.of_eq p ho hst)⟩
      simp only [hs', bind, Except.bind, pure, Except.pure]

theorem sysClose_fine [DecidableEq P] (h : Ok pages 0 s) (fd : Int) :
    Fine pages p s (sysClose p fd s) := by
  unfold sysClose
  cases ha : argfd p fd s with
  | none => exact ⟨-1, s, rfl, h, .refl p s⟩
  | some a =>
    obtain ⟨fd', f⟩ := a
    have hf := argfd_spec ha
    have hc := h.clear hf
    obtain ⟨s', hs', ho, hst, hok⟩ := fileclose_spec hc (f := f) (hc.hand_pos (by simp))
    rw [add_sub_cancel_right] at hok
    refine ⟨0, s', ?_, hok, (Own.setOfile p s fd' none).trans (.of_eq p ho hst)⟩
    simp only [hs', bind, Except.bind, pure, Except.pure]

theorem sysOpen_fine [DecidableEq P] (h : Ok pages 0 s) (found : Option Nat) (omode : Nat) :
    Fine pages p s (sysOpen p found omode s) := by
  unfold sysOpen
  cases found with
  | none => exact ⟨-1, s, rfl, h, .refl p s⟩
  | some ip =>
    dsimp only
    rcases filealloc_spec h with hn | ⟨f, s1, hn, -, hr, ht, ho, hst, hok⟩
    · rw [hn]
      exact ⟨-1, s, rfl, h, .refl p s⟩
    · rw [hn]
      dsimp only
      rcases fdalloc_spec p f s1 with hn | ⟨fd, hfd, hn⟩
      · obtain ⟨s2, hs2, ho2, hst2, hok2⟩ := fileclose_spec hok (f := f) (by omega)
        rw [add_sub_cancel_right] at hok2
        rw [hn]
        refine ⟨-1, s2, ?_, hok2, (Own.of_eq p ho hst).trans (.of_eq p ho2 hst2)⟩
        simp only [hs2, bind, Except.bind, pure, Except.pure]
      · have hi := hok.install (f := f) hfd
        rw [add_sub_cancel_right] at hi
        rw [hn]
        refine ⟨fd, _, rfl, ?_,
          (Own.of_eq p ho hst).trans ((Own.setOfile p s1 fd (some f)).trans (.of_eq p rfl rfl))⟩
        -- the file was no end of a pipe and is none now
        have hs := hi.setFile (f := f) (d := 0)
          (v := { s1.file f with
            type := .FD_INODE
            ip := some ip
            off := 0
            readable := omode &&& O_WRONLY == 0
            writable := omode &&& O_WRONLY != 0 || omode &&& O_RDWR != 0 })
          (by simp [Tables.setOfile]) (fun h0 => by simp [hr] at h0)
          (by rw [File.endOf_none (by simp [Tables.setOfile, ht]), File.endOf_none (by simp)])
        rwa [Pi.single_zero, add_zero] at hs

/-! ## Pipes -/

theorem pipeInit_spec [DecidableEq P] {q : P} {l : List P} {f₀ f₁ : Fin L} (h : Ok pages hand s)
    (hl : s.freelist = q :: l) (hne : f₀ ≠ f₁) (h₀ : (s.file f₀).ref ≠ 0)
    (h1 : (s.file f₁).ref ≠ 0) (ht0 : (s.file f₀).type = .FD_NONE)
    (ht1 : (s.file f₁).type = .FD_NONE) :
    Ok pages hand (pipeInit q f₀ f₁ { s with freelist := l }) := by
  have hnd := h.paged.nodup
  rw [hl] at hnd
  obtain ⟨hql, hnd⟩ := List.nodup_cons.1 hnd
  obtain ⟨hqo, hqp⟩ := h.paged.free q (by rw [hl]; exact List.mem_cons_self)
  set s' := pipeInit q f₀ f₁ { s with freelist := l } with hs'
  have hpipe : s'.pipe = update s.pipe q (some ⟨true, true⟩) := rfl
  have hf1 : s'.file f₁ = { s.file f₁ with
      type := .FD_PIPE, readable := false, writable := true, pipe := some q } := by
    simp [hs', pipeInit, Tables.setFile, hne.symm]
  have hf0 : s'.file f₀ = { s.file f₀ with
      type := .FD_PIPE, readable := true, writable := false, pipe := some q } := by
    simp [hs', pipeInit, Tables.setFile, hne]
  have hf : ∀ g, g ≠ f₀ → g ≠ f₁ → s'.file g = s.file g := by
    intro g hg0 hg1
    simp [hs', pipeInit, Tables.setFile, hg0, hg1]
  -- the ends of the new pipe are those of the two files
  have hend : ∀ g o w, (s'.file g).endOf = some (o, w) ↔
      (o = some q ∧ (g = f₀ ∧ w = false ∨ g = f₁ ∧ w = true)) ∨
      ((s.file g).endOf = some (o, w)) := by
    intro g o w
    by_cases hg0 : g = f₀
    · subst hg0
      rw [hf0, File.endOf_none (v := s.file g) (by simp [ht0])]
      simp [File.endOf, hne, eq_comm]
    · by_cases hg1 : g = f₁
      · subst hg1
        rw [hf1, File.endOf_none (v := s.file g) (by simp [ht1])]
        simp [File.endOf, hne.symm, eq_comm]
      · rw [hf g hg0 hg1]
        simp [hg0, hg1]
  have hold : ∀ g w, (s.file g).endOf ≠ some (some q, w) := by
    intro g w hg
    obtain ⟨q', e, hq', he, -⟩ := h.piped.page g _ w hg
    cases hq'
    rw [hqp] at he
    cases he
  refine ⟨⟨fun g => ?_, fun g hg => ?_⟩, ⟨?_, ?_, ?_, ?_⟩, ⟨hnd, h.paged.held, ?_, ?_, ?_⟩⟩
  · have hr : (s'.file g).ref = (s.file g).ref := by
      by_cases hg0 : g = f₀
      · rw [hg0, hf0]
      · by_cases hg1 : g = f₁
        · rw [hg1, hf1]
        · rw [hf g hg0 hg1]
    rw [hr]
    exact h.counts.refs g
  · by_cases hg0 : g = f₀
    · rw [hg0, hf0] at hg
      exact absurd hg h₀
    · by_cases hg1 : g = f₁
      · rw [hg1, hf1] at hg
        exact absurd hg h1
      · rw [hf g hg0 hg1] at hg ⊢
        exact h.counts.unused g hg
  · intro g o w hg
    rcases (hend g o w).1 hg with ⟨rfl, -⟩ | hin
    · refine ⟨q, ⟨true, true⟩, rfl, by rw [hpipe, update_self], ?_⟩
      cases w <;> rfl
    · obtain ⟨q', e, rfl, he, hw⟩ := h.piped.page g o w hin
      have hqq : q' ≠ q := by
        rintro rfl
        exact hold g w hin
      exact ⟨q', e, rfl, by rw [hpipe, update_of_ne hqq, he], hw⟩
  · intro q' e w he hw
    by_cases hq : q' = q
    · subst hq
      cases w
      · exact ⟨f₀, (hend f₀ _ _).2 (.inl ⟨rfl, .inl ⟨rfl, rfl⟩⟩)⟩
      · exact ⟨f₁, (hend f₁ _ _).2 (.inl ⟨rfl, .inr ⟨rfl, rfl⟩⟩)⟩
    · rw [hpipe, update_of_ne hq] at he
      obtain ⟨g, hg⟩ := h.piped.ends q' e w he hw
      exact ⟨g, (hend g _ w).2 (.inr hg)⟩
  · intro q' e he
    by_cases hq : q' = q
    · subst hq
      rw [hpipe, update_self] at he
      cases he
      exact ⟨true, rfl⟩
    · rw [hpipe, update_of_ne hq] at he
      exact h.piped.used q' e he
  · intro g g' q' w hg hg'
    rcases (hend g _ w).1 hg with ⟨hq, hnew⟩ | hin
    · cases hq
      rcases (hend g' _ w).1 hg' with ⟨-, hnew'⟩ | hin'
      · -- the two new files are at different ends
        rcases hnew with ⟨rfl, hw⟩ | ⟨rfl, hw⟩ <;> rcases hnew' with ⟨rfl, hw'⟩ | ⟨rfl, hw'⟩
        · rfl
        · exact absurd (hw.symm.trans hw') Bool.false_ne_true
        · exact absurd (hw'.symm.trans hw) Bool.false_ne_true
        · rfl
      · exact absurd hin' (hold g' w)
    · rcases (hend g' _ w).1 hg' with ⟨hq, -⟩ | hin'
      · cases hq
        exact absurd hin (hold g w)
      · exact h.piped.inj g g' q' w hin hin'
  · intro q' hq'
    have hqq : q' ≠ q := fun heq => hql (heq ▸ hq')
    rw [hpipe, update_of_ne hqq]
    exact h.paged.free q' (by rw [hl]; exact List.mem_cons_of_mem q hq')
  · intro q' hq'
    have hqq : q' ≠ q := fun heq => hqo (heq ▸ hq')
    rw [hpipe, update_of_ne hqq]
    exact h.paged.other q' hq'
  · intro q'
    rw [h.paged.cover q', hl, hpipe]
    change _ ↔ q' ∈ l ∨ q' ∈ s.other ∨ _
    by_cases hqq : q' = q
    · subst hqq
      simp
    · simp [hqq]

theorem pipealloc_spec [DecidableEq P] (h : Ok pages 0 s) :
    ∃ r s', pipealloc s = .ok (r, s') ∧ s'.ofile = s.ofile ∧ s'.state = s.state ∧
      (r = none ∧ Ok pages 0 s' ∨ ∃ rf wf, r = some (rf, wf) ∧
        Ok pages (Pi.single rf 1 + Pi.single wf 1) s') := by
  unfold pipealloc
  rcases filealloc_spec h with hn | ⟨f0, s1, hn, -, hr1, ht1, ho1, hst1, hok1⟩
  · rw [hn]
    exact ⟨none, s, rfl, rfl, rfl, .inl ⟨rfl, h⟩⟩
  · rw [hn]
    dsimp only
    rw [zero_add] at hok1
    rcases filealloc_spec hok1 with hn2 | ⟨f1, s2, hn2, hz2, hr2, ht2, ho2, hst2, hok2⟩
    · obtain ⟨s2, hs2, ho2, hst2, hok2⟩ := fileclose_spec hok1 (f := f0) (by omega)
      rw [sub_self] at hok2
      rw [hn2]
      refine ⟨none, s2, ?_, ho2.trans ho1, hst2.trans hst1, .inl ⟨rfl, hok2⟩⟩
      simp only [hs2, bind, Except.bind, pure, Except.pure]
    · have hne : f0 ≠ f1 := by
        rintro rfl
        omega
      rw [hn2]
      dsimp only
      have hp0 : 0 < (s2.file f0).ref := hok2.hand_pos (by simp [hne])
      cases hl : s2.freelist with
      | nil =>
        obtain ⟨s3, hs3, ho3, hst3, hok3⟩ := fileclose_spec hok2 (f := f0) hp0
        rw [add_sub_cancel_left] at hok3
        obtain ⟨s4, hs4, ho4, hst4, hok4⟩ :=
          fileclose_spec hok3 (f := f1) (hok3.hand_pos (by simp))
        rw [sub_self] at hok4
        refine ⟨none, s4, ?_, ?_, ?_, .inl ⟨rfl, hok4⟩⟩
        · simp only [hs3, hs4, bind, Except.bind, pure, Except.pure]
        · rw [ho4, ho3, ho2, ho1]
        · rw [hst4, hst3, hst2, hst1]
      | cons q l =>
        have ht0 : (s2.file f0).type = .FD_NONE := by
          have : s2 = s1.setFile f1 { s1.file f1 with ref := 1 } := by
            have := hn2
            unfold filealloc at this
            split at this
            · cases this
            · simp only [Prod.mk.injEq, Option.some.injEq] at this
              rw [← this.1, ← this.2]
          rw [this]
          simpa [Tables.setFile, hne] using ht1
        refine ⟨_, _, rfl, ho2.trans ho1, hst2.trans hst1, .inr ⟨f0, f1, rfl, ?_⟩⟩
        exact pipeInit_spec hok2 hl hne (by omega) (by omega) ht0 ht2

theorem sysPipe_fine [DecidableEq P] (h : Ok pages 0 s) (argOk : Bool) :
    Fine pages p s (sysPipe p argOk s) := by
  unfold sysPipe
  split
  · exact ⟨-1, s, rfl, h, .refl p s⟩
  · obtain ⟨r, s1, hr, ho1, hst1, hres⟩ := pipealloc_spec h
    rw [hr]
    simp only [bind, Except.bind]
    have how : Own p s s1 := .of_eq p ho1 hst1
    rcases hres with ⟨rfl, hok⟩ | ⟨rf, wf, rfl, hok⟩
    · exact ⟨-1, s1, rfl, hok, how⟩
    · dsimp only
      -- closing both files gives back the references in hand
      have hclose : ∀ s2 : Tables N M L P, Ok pages (Pi.single rf 1 + Pi.single wf 1) s2 →
          ∃ s3 s4, fileclose rf s2 = .ok s3 ∧ fileclose wf s3 = .ok s4 ∧ Ok pages 0 s4 ∧
            Own p s2 s4 := by
        intro s2 hok2
        have hpos : 0 < (Pi.single rf 1 + Pi.single wf 1 : Fin L → Int) rf := by
          by_cases hrw : rf = wf
          · simp [hrw]
          · simp [hrw]
        obtain ⟨s3, hs3, ho3, hst3, hok3⟩ := fileclose_spec hok2 (f := rf) (hok2.hand_pos hpos)
        rw [add_sub_cancel_left] at hok3
        obtain ⟨s4, hs4, ho4, hst4, hok4⟩ :=
          fileclose_spec hok3 (f := wf) (hok3.hand_pos (by simp))
        rw [sub_self] at hok4
        exact ⟨s3, s4, hs3, hs4, hok4, (Own.of_eq p ho3 hst3).trans (.of_eq p ho4 hst4)⟩
      rcases fdalloc_spec p rf s1 with hn | ⟨fd0, hfd0, hn⟩
      · obtain ⟨s3, s4, hs3, hs4, hok4, how4⟩ := hclose s1 hok
        rw [hn]
        refine ⟨-1, s4, ?_, hok4, how.trans how4⟩
        simp only [hs3, hs4, pure, Except.pure]
      · have hok2 := hok.install (f := rf) hfd0
        rw [add_sub_cancel_left] at hok2
        have how2 := how.trans (Own.setOfile p s1 fd0 (some rf))
        rw [hn]
        dsimp only
        rcases fdalloc_spec p wf (s1.setOfile (p, fd0) (some rf)) with hn2 | ⟨fd1, hfd1, hn2⟩
        · have hx : (s1.setOfile (p, fd0) (some rf)).ofile (p, fd0) = some rf :=
            update_self ..
          have hok3 := hok2.clear hx
          rw [add_comm] at hok3
          obtain ⟨s3, s4, hs3, hs4, hok4, how4⟩ := hclose _ hok3
          rw [hn2]
          refine ⟨-1, s4, ?_, hok4, how2.trans ((Own.setOfile p _ fd0 none).trans how4)⟩
          simp only [hs3, hs4, pure, Except.pure]
        · have hok3 := hok2.install (f := wf) hfd1
          rw [sub_self] at hok3
          rw [hn2]
          exact ⟨0, _, rfl, hok3, how2.trans (Own.setOfile p _ fd1 (some wf))⟩

/-! ## Processes -/

theorem copyFd_spec {np : Fin N} {i : Fin M} (h : Ok pages 0 s) (hi : s.ofile (np, i) = none) :
    ∃ s', copyFd p np s i = .ok s' ∧ Ok pages 0 s' ∧ s'.state = s.state ∧
      ∀ x, x ≠ (np, i) → s'.ofile x = s.ofile x := by
  unfold copyFd
  cases hf : s.ofile (p, i) with
  | none => exact ⟨s, rfl, h, rfl, fun _ _ => rfl⟩
  | some f =>
    obtain ⟨s1, hs1, ho1, hst1, hok1⟩ := filedup_spec h (h.ref_pos hf)
    have hok := hok1.install (f := f) (x := (np, i)) (by rw [ho1, hi])
    rw [add_sub_cancel_right] at hok
    refine ⟨s1.setOfile (np, i) (some f), ?_, hok, hst1, fun x hx => ?_⟩
    · simp only [hs1, bind, Except.bind, pure, Except.pure]
    · simp only [Tables.setOfile, update_of_ne hx, ho1]

theorem copyFds_spec {np : Fin N} (l : List (Fin M)) (hl : l.Nodup) (s : Tables N M L P)
    (h : Ok pages 0 s) (hi : ∀ i ∈ l, s.ofile (np, i) = none) :
    ∃ s', l.foldlM (copyFd p np) s = .ok s' ∧ Ok pages 0 s' ∧ Own np s s' := by
  induction l generalizing s with
  | nil => exact ⟨s, rfl, h, .refl np s⟩
  | cons i l ih =>
    obtain ⟨hil, hl⟩ := List.nodup_cons.1 hl
    obtain ⟨s1, hs1, hok1, hst1, ho1⟩ := copyFd_spec (p := p) h (hi i List.mem_cons_self)
    have hi1 : ∀ j ∈ l, s1.ofile (np, j) = none := by
      intro j hj
      have hji : (np, j) ≠ (np, i) := by
        rintro hji
        cases hji
        exact hil hj
      rw [ho1 _ hji]
      exact hi j (List.mem_cons_of_mem i hj)
    obtain ⟨s2, hs2, hok2, how2⟩ := ih hl s1 hok1 hi1
    refine ⟨s2, ?_, hok2, ?_⟩
    · simp only [List.foldlM_cons, hs1, bind, Except.bind, hs2]
    · exact (Own.mk hst1 fun x hx => ho1 x fun hxi => hx (congrArg Prod.fst hxi)).trans how2

theorem closeFd_spec [DecidableEq P] (fd : Fin M) (h : Ok pages 0 s) :
    ∃ s', closeFd p s fd = .ok s' ∧ Ok pages 0 s' ∧ s'.state = s.state ∧
      s'.ofile (p, fd) = none ∧ ∀ x, x ≠ (p, fd) → s'.ofile x = s.ofile x := by
  unfold closeFd
  cases hf : s.ofile (p, fd) with
  | none => exact ⟨s, rfl, h, rfl, hf, fun _ _ => rfl⟩
  | some f =>
    obtain ⟨s1, hs1, ho1, hst1, hok1⟩ := fileclose_spec h (h.ref_pos hf)
    have hok := hok1.clear (x := (p, fd)) (by rw [ho1, hf])
    rw [sub_add_cancel] at hok
    refine ⟨s1.setOfile (p, fd) none, ?_, hok, hst1, update_self .., fun x hx => ?_⟩
    · simp only [hs1, bind, Except.bind, pure, Except.pure]
    · simp only [Tables.setOfile, update_of_ne hx, ho1]

theorem closeFds_spec [DecidableEq P] (l : List (Fin M)) (s : Tables N M L P) (h : Ok pages 0 s) :
    ∃ s', l.foldlM (closeFd p) s = .ok s' ∧ Ok pages 0 s' ∧ Own p s s' ∧
      ∀ fd, fd ∈ l ∨ s.ofile (p, fd) = none → s'.ofile (p, fd) = none := by
  induction l generalizing s with
  | nil => exact ⟨s, rfl, h, .refl p s, fun fd hfd => hfd.resolve_left List.not_mem_nil⟩
  | cons i l ih =>
    obtain ⟨s1, hs1, hok1, hst1, hi1, ho1⟩ := closeFd_spec (p := p) i h
    obtain ⟨s2, hs2, hok2, how2, hnone2⟩ := ih s1 hok1
    refine ⟨s2, ?_, hok2, ?_, fun fd hfd => hnone2 fd ?_⟩
    · simp only [List.foldlM_cons, hs1, bind, Except.bind, hs2]
    · exact (Own.mk hst1 fun x hx => ho1 x fun hxi => hx (congrArg Prod.fst hxi)).trans how2
    · by_cases hfi : fd = i
      · exact .inr (hfi ▸ hi1)
      · rw [ho1 _ fun hx => hfi (congrArg Prod.snd hx)]
        exact hfd.imp_left fun hmem => (List.mem_cons.1 hmem).resolve_left hfi

theorem Memory.spec [DecidableEq P] (hm : Memory s s') (h : Ok pages hand s) :
    Ok pages hand s' ∧ s'.ofile = s.ofile ∧ s'.state = s.state := by
  induction hm with
  | done s => exact ⟨h, rfl, rfl⟩
  | @kalloc s s' q l hl _ ih =>
    obtain ⟨hnd, hheld, hfree, hother, hcover⟩ := h.paged
    rw [hl] at hnd hfree hcover
    obtain ⟨hql, hnd⟩ := List.nodup_cons.1 hnd
    obtain ⟨hqo, hqp⟩ := hfree q List.mem_cons_self
    refine ih ⟨⟨h.counts.refs, h.counts.unused⟩, h.piped.congr rfl fun _ => rfl,
      hnd, List.nodup_cons.2 ⟨hqo, hheld⟩, fun q' hq' => ?_, fun q' hq' => ?_, fun q' => ?_⟩
    · obtain ⟨h1, h2⟩ := hfree q' (List.mem_cons_of_mem q hq')
      exact ⟨List.not_mem_cons_of_ne_of_not_mem (fun heq => hql (heq ▸ hq')) h1, h2⟩
    · rcases List.mem_cons.1 hq' with rfl | hq'
      · exact hqp
      · exact hother q' hq'
    · rw [hcover q', List.mem_cons, List.mem_cons]
      tauto
  | @kfree s s' q hq _ ih =>
    obtain ⟨hnd, hheld, hfree, hother, hcover⟩ := h.paged
    have hqf : q ∉ s.freelist := fun hqf => (hfree q hqf).1 hq
    refine ih ⟨⟨h.counts.refs, h.counts.unused⟩, h.piped.congr rfl fun _ => rfl,
      List.nodup_cons.2 ⟨hqf, hnd⟩, hheld.erase q, fun q' hq' => ?_, fun q' hq' => ?_,
      fun q' => ?_⟩
    · rcases List.mem_cons.1 hq' with rfl | hq'
      · exact ⟨hheld.not_mem_erase, hother q' hq⟩
      · obtain ⟨h1, h2⟩ := hfree q' hq'
        exact ⟨fun hmem => h1 (List.mem_of_mem_erase hmem), h2⟩
    · exact hother q' (List.mem_of_mem_erase hq')
    · rw [hcover q', List.mem_cons, hheld.mem_erase_iff]
      by_cases hqq : q' = q
      · subst hqq
        simp [hq]
      · simp [hqq]

theorem Ok.setState (h : Ok pages hand s) (q : Fin N) (v : Ptable.State) :
    Ok pages hand (s.setState q v) :=
  ⟨⟨h.counts.refs, h.counts.unused⟩, h.piped.congr rfl fun _ => rfl, h.paged.congr rfl rfl rfl⟩

theorem Closed.setState {q : Fin N} {v : Ptable.State}
    (hc : ∀ q', q' ≠ q → ¬ s.alive q' → ∀ fd, s.ofile (q', fd) = none)
    (hq : (v = .UNUSED ∨ v = .ZOMBIE) → ∀ fd, s.ofile (q, fd) = none) :
    Closed (s.setState q v) := by
  intro q' hq' fd
  by_cases hqq : q' = q
  · subst hqq
    refine hq ?_ fd
    simpa only [Tables.alive, Tables.setState, update_self, not_and_or, not_not] using hq'
  · refine hc q' hqq ?_ fd
    simpa only [Tables.alive, Tables.setState, update_of_ne hqq] using hq'

theorem fork_fine {np : Fin N} (h : Ok pages 0 s) (hc : Closed s) (hnp : s.state np = .UNUSED) :
    ∃ s', fork p np s = .ok s' ∧ Ok pages 0 s' ∧ Closed s' := by
  have hnot : ¬ s.alive np := fun ha => ha.1 hnp
  obtain ⟨s1, hs1, hok1, how1⟩ :=
    copyFds_spec (p := p) (List.finRange M) (List.nodup_finRange M) s h fun i _ => hc np hnot i
  refine ⟨s1.setState np .RUNNABLE, ?_, hok1.setState np _, Closed.setState ?_ (by simp)⟩
  · simp only [fork, hs1, bind, Except.bind, pure, Except.pure]
  · intro q hq ha fd
    rw [how1.ofile (q, fd) hq]
    exact hc q (by simpa only [Tables.alive, how1.state] using ha) fd

theorem exit_fine [DecidableEq P] (h : Ok pages 0 s) (hc : Closed s) :
    ∃ s', exit p s = .ok s' ∧ Ok pages 0 s' ∧ Closed s' := by
  obtain ⟨s1, hs1, hok1, how1, hnone⟩ := closeFds_spec (p := p) (List.finRange M) s h
  refine ⟨s1.setState p .ZOMBIE, ?_, hok1.setState p _, Closed.setState ?_ fun _ fd => ?_⟩
  · simp only [exit, hs1, bind, Except.bind, pure, Except.pure]
  · intro q hq ha fd
    rw [how1.ofile (q, fd) hq]
    exact hc q (by simpa only [Tables.alive, how1.state] using ha) fd
  · exact hnone fd (.inl (List.mem_finRange fd))

/-! ## Runs -/

theorem Fine.map {r : Except Panic (Int × Tables N M L P)} (h : Fine pages p s r)
    (hp : s.alive p) (hc : Closed s) :
    ∃ s', Prod.snd <$> r = .ok s' ∧ Ok pages 0 s' ∧ Closed s' := by
  obtain ⟨v, s', rfl, hok, how⟩ := h
  exact ⟨s', rfl, hok, how.closed hp hc⟩

theorem Call.fine [DecidableEq P] {initproc : Fin N} {r : Except Panic (Tables N M L P)}
    (hr : Call initproc p s r) (h : Ok pages 0 s) (hc : Closed s) (hp : s.alive p) :
    ∃ s', r = .ok s' ∧ Ok pages 0 s' ∧ Closed s' := by
  have hmem : ∀ {s' : Tables N M L P}, Memory s s' → Ok pages 0 s' ∧ Closed s' ∧
      s'.state = s.state := by
    intro s' hm
    obtain ⟨hok, ho, hst⟩ := hm.spec h
    exact ⟨hok, (Own.of_eq p ho hst).closed hp hc, hst⟩
  cases hr with
  | «open» found omode => exact (sysOpen_fine h found omode).map hp hc
  | dup fd => exact (sysDup_fine h fd).map hp hc
  | pipe argOk => exact (sysPipe_fine h argOk).map hp hc
  | close fd => exact (sysClose_fine h fd).map hp hc
  | fork hnp hm =>
    obtain ⟨hok, hc', hst⟩ := hmem hm
    have hun := List.find?_some hnp
    exact fork_fine hok hc' (by rw [hst]; simpa using hun)
  | forkFails hm => exact ⟨_, rfl, (hmem hm).1, (hmem hm).2.1⟩
  | exec hm => exact ⟨_, rfl, (hmem hm).1, (hmem hm).2.1⟩
  | sbrk hm => exact ⟨_, rfl, (hmem hm).1, (hmem hm).2.1⟩
  | exit hpi => exact exit_fine h hc
  | @wait q s' hq hm =>
    obtain ⟨hok, hc', hst⟩ := hmem hm
    have hnot : ¬ s'.alive q := fun ha => ha.2 (by rw [hst, hq])
    exact ⟨_, rfl, hok.setState q _, Closed.setState (fun q' _ => hc' q') fun _ => hc' q hnot⟩

theorem Reachable.ok [DecidableEq P] {initproc : Fin N} (hpages : pages.Nodup)
    (h : Reachable initproc pages s) : Ok pages 0 s ∧ Closed s := by
  induction h with
  | boot =>
    refine ⟨⟨⟨fun f => ?_, fun f _ => rfl⟩, ⟨?_, ?_, ?_, ?_⟩, ⟨hpages, List.nodup_nil, ?_, ?_, ?_⟩⟩,
      fun p _ fd => rfl⟩
    · simp [Files.boot, Tables.refs]
    · intro f o w he
      cases he
    · intro q e w he
      cases he
    · intro q e he
      cases he
    · intro f f' q w he
      cases he
    · exact fun q _ => ⟨List.not_mem_nil, rfl⟩
    · exact fun q _ => rfl
    · simp [Files.boot]
  | step _ hp hcall ih =>
    obtain ⟨s'', heq, hok, hc⟩ := hcall.fine ih.1 ih.2 hp
    cases heq
    exact ⟨hok, hc⟩

/-- The file of an end of the pipe in page `q`. -/
structure PipeFile (s : Tables N M L P) (q : P) (writable : Bool) (f : Fin L) : Prop where
  type : (s.file f).type = .FD_PIPE
  pipe : (s.file f).pipe = some q
  writable : (s.file f).writable = writable

theorem pipeFile_iff {q : P} {w : Bool} :
    PipeFile s q w f ↔ (s.file f).endOf = some (some q, w) := by
  constructor
  · rintro ⟨ht, hq, hw⟩
    rw [File.endOf, if_pos ht, hq, hw]
  · intro h
    unfold File.endOf at h
    split at h
    · next ht =>
      simp only [Option.some.injEq, Prod.mk.injEq] at h
      exact ⟨ht, h.1, h.2⟩
    · cases h

theorem Ok.isOpen_iff {q : P} {e : Ends} (h : Ok pages 0 s) (he : s.pipe q = some e) (w : Bool) :
    e.isOpen w = true ↔ ∃ f, PipeFile s q w f ∧ 0 < (s.file f).ref := by
  constructor
  · intro hw
    obtain ⟨f, hf⟩ := h.piped.ends q e w he hw
    have hpf := pipeFile_iff.2 hf
    refine ⟨f, hpf, Nat.pos_of_ne_zero fun h0 => ?_⟩
    have := h.counts.unused f h0
    rw [hpf.type] at this
    cases this
  · rintro ⟨f, hf, -⟩
    obtain ⟨q', e', hq, he', hw⟩ := h.piped.page f _ w (pipeFile_iff.1 hf)
    cases hq
    rw [he] at he'
    cases he'
    exact hw

/-- In every reachable state the counts are exact, unused files have no type, the ends of a pipe
that are open are those whose file is in use, a page is allocated as a pipe exactly while one end
is open, and no call that a process can make panics. -/
theorem file_refs_exact [DecidableEq P] {initproc : Fin N} (hpages : pages.Nodup)
    (h : Reachable initproc pages s) :
    (∀ f, (s.file f).ref = Fintype.card {x : Fin N × Fin M // s.ofile x = some f}) ∧
    (∀ f, (s.file f).ref = 0 → (s.file f).type = .FD_NONE) ∧
    (∀ q e, s.pipe q = some e →
      (e.readopen = true ↔ ∃ f, PipeFile s q false f ∧ 0 < (s.file f).ref) ∧
      (e.writeopen = true ↔ ∃ f, PipeFile s q true f ∧ 0 < (s.file f).ref)) ∧
    (∀ q w f f', PipeFile s q w f → PipeFile s q w f' → f = f') ∧
    (∀ f, (s.file f).type = .FD_PIPE → ∃ q e, (s.file f).pipe = some q ∧ s.pipe q = some e) ∧
    (∀ q ∈ pages, (q ∉ s.freelist ∧ q ∉ s.other) ↔
      ∃ e, s.pipe q = some e ∧ (e.readopen = true ∨ e.writeopen = true)) ∧
    (∀ p, s.alive p → ∀ r, Call initproc p s r → ∃ s', r = .ok s') := by
  obtain ⟨hok, hc⟩ := h.ok hpages
  refine ⟨fun f => ?_, hok.counts.unused, fun q e he => ⟨hok.isOpen_iff he false,
    hok.isOpen_iff he true⟩, fun q w f f' hf hf' => hok.piped.inj f f' q w (pipeFile_iff.1 hf)
    (pipeFile_iff.1 hf'), fun f ht => ?_, fun q hq => ⟨fun hno => ?_, ?_⟩, fun p hp r hr => ?_⟩
  · have hr := hok.counts.refs f
    rw [Fintype.card_subtype, Finset.card_filter]
    simpa only [Tables.refs, Pi.zero_apply, add_zero, Int.ofNat_inj] using hr
  · obtain ⟨q, e, hq, he, -⟩ := hok.piped.page f _ _ (if_pos ht)
    exact ⟨q, e, hq, he⟩
  · rcases (hok.paged.cover q).1 hq with hfree | hother | ⟨e, he⟩
    · exact absurd hfree hno.1
    · exact absurd hother hno.2
    · obtain ⟨w, hw⟩ := hok.piped.used q e he
      cases w
      · exact ⟨e, he, .inl hw⟩
      · exact ⟨e, he, .inr hw⟩
  · rintro ⟨e, he, -⟩
    exact hok.paged.pipe_used he
  · obtain ⟨s', hs', -⟩ := hr.fine hok hc hp
    exact ⟨s', hs'⟩

/-- The tables after the first process has made a pipe in the only free page. -/
def onePipe : Tables 1 2 2 Nat :=
  match sysPipe 0 true (boot 0 [7]) with
  | .ok (_, s) => s
  | .error _ => boot 0 [7]

theorem onePipe_reachable : Reachable 0 [7] onePipe := by
  have hp : Prod.snd <$> sysPipe 0 true (boot 0 [7] : Tables 1 2 2 Nat) = .ok onePipe := rfl
  have hc : Call 0 0 _ (Prod.snd <$> sysPipe 0 true (boot 0 [7] : Tables 1 2 2 Nat)) :=
    .pipe true
  rw [hp] at hc
  exact .step .boot ⟨by decide, by decide⟩ hc

/-- Both files of the pipe have one reference, and the page is in use. -/
theorem file_refs_exact_onePipe : Reachable 0 [7] onePipe ∧ [7].Nodup ∧
    (∀ f, (onePipe.file f).ref = Fintype.card {x : Fin 1 × Fin 2 // onePipe.ofile x = some f}) ∧
    (7 ∉ onePipe.freelist ∧ 7 ∉ onePipe.other) := by
  have h := file_refs_exact (s := onePipe) (List.nodup_singleton 7) onePipe_reachable
  exact ⟨onePipe_reachable, List.nodup_singleton 7, h.1,
    (h.2.2.2.2.2.1 7 List.mem_cons_self).2 ⟨⟨true, true⟩, rfl, .inl rfl⟩⟩

end Xv6.Files
