import Xv6.Fs.Moves

/-!
# What the calls on descriptors do to references

`sys_open` hands its reference over to the file, and `fileclose` of the last descriptor takes it
back. `sys_dup` and `fork` share files that are open already.
-/

namespace Xv6.Fs

open Lib
open Function (update update_eq_self_iff update_of_ne update_self)
open Prog (after_bind after_mono after_of_run after_ret after_step)

variable {π : Type} [Fintype π] [DecidableEq π] {sb : Superblock} {p : π} {s s1 s' : FsSt π}
  {held held' keep : List Slot} {i j : Slot} {e : Nat} {name : Name}

/-! ## Files -/

section Files

variable {f : FileId} {y : File}

omit [Fintype π] [DecidableEq π] in
theorem openRefs_update (file : FileId → File) (f : FileId) (y : File) (i : Slot) :
    openRefs (update file f y) i + (if (file f).refersTo i then 1 else 0) =
      openRefs file i + if y.refersTo i then 1 else 0 := by
  have := sum_eq_off (f := fun g => if (update file f y g).refersTo i then 1 else 0)
    (g := fun g => if (file g).refersTo i then 1 else 0) f
    fun g hg => by rw [update_of_ne hg]
  rw [update_self] at this
  exact this

theorem cwdRefs_update (proc : π → Proc) (q : π) (y : Proc) (i : Slot) :
    cwdRefs (update proc q y) i + (if (proc q).cwd = some i then 1 else 0) =
      cwdRefs proc i + if y.cwd = some i then 1 else 0 := by
  have := sum_eq_off (f := fun r => if (update proc q y r).cwd = some i then 1 else 0)
    (g := fun r => if (proc r).cwd = some i then 1 else 0) q
    fun r hr => by rw [update_of_ne hr]
  rw [update_self] at this
  exact this

theorem cwdRefs_ofile (proc : π → Proc) (q : π) (ofile : Fd → Option FileId) (i : Slot) :
    cwdRefs (update proc q { proc q with ofile := ofile }) i = cwdRefs proc i :=
  Nat.add_right_cancel (cwdRefs_update proc q { proc q with ofile := ofile } i)

omit [DecidableEq π] in
theorem Sound.setFile (h : Sound sb s held) (hd : s'.disk = s.disk) (hi : s'.inode = s.inode)
    (hf : s'.file = update s.file f y) (hcwd : ∀ i, cwdRefs s'.proc i = cwdRefs s.proc i)
    (hrefs : ∀ i, held'.count i + (if y.refersTo i then 1 else 0) ≤
      held.count i + if (s.file f).refersTo i then 1 else 0)
    (hunused : y.ref = 0 → y.type = .none)
    (hy : ∀ i, y.refersTo i → (s.inode i).valid = true ∧
      (y.writable = true → (s.inode i).d.type ≠ T_DIR)) : Sound sb s' held' := by
  refine ⟨?_, ?_, ?_, fun i => ?_, ?_, fun g hg => ?_, fun g i hg => ?_⟩
  · rw [hd]; exact h.own
  · rw [hd]; exact h.super
  · rw [hd, hi]; exact h.cache
  · have h1 := openRefs_update s.file f y i
    have h2 := hrefs i
    have h3 := h.refs i
    rw [hi, hf, hcwd]
    omega
  · rw [hd]; exact h.names
  · rw [hf] at hg ⊢
    by_cases hgf : g = f
    · rw [hgf, update_self] at hg ⊢
      exact hunused hg
    · rw [update_of_ne hgf] at hg ⊢
      exact h.unused g hg
  · rw [hf] at hg ⊢
    rw [hi]
    by_cases hgf : g = f
    · rw [hgf, update_self] at hg ⊢
      exact hy i hg
    · rw [update_of_ne hgf] at hg ⊢
      exact h.files g i hg

/-- The inode in slot `i` is the same, with the same type. -/
def SameInode (s s' : FsSt π) (i : Slot) : Prop :=
  (s'.inode i).inum = (s.inode i).inum ∧ (s'.inode i).d.type = (s.inode i).d.type

def Keeps (s s' : FsSt π) : Prop :=
  ∀ f i, (s.file f).refersTo i → (s'.file f).refersTo i ∧ SameInode s s' i

/-- The files that are open were open before, with the same inodes. -/
def Loses (s s' : FsSt π) : Prop :=
  ∀ f i, (s'.file f).refersTo i → (s.file f).refersTo i ∧ SameInode s s' i

section
omit [Fintype π] [DecidableEq π]

theorem SameInode.trans (h : SameInode s s1 i) (h' : SameInode s1 s' i) : SameInode s s' i :=
  ⟨h'.1.trans h.1, h'.2.trans h.2⟩

theorem Keeps.trans (h : Keeps s s1) (h' : Keeps s1 s') : Keeps s s' := fun f i hf =>
  have ⟨hf1, hs1⟩ := h f i hf
  have ⟨hf2, hs2⟩ := h' f i hf1
  ⟨hf2, hs1.trans hs2⟩

theorem Loses.trans (h : Loses s s1) (h' : Loses s1 s') : Loses s s' := fun f i hf =>
  have ⟨hf1, hs2⟩ := h' f i hf
  have ⟨hf0, hs1⟩ := h f i hf1
  ⟨hf0, hs1.trans hs2⟩

end

section
omit [DecidableEq π]

theorem Goes.sameInode (hs : Sound sb s held) (h : Goes sb s keep held' s')
    (hf : (s.file f).refersTo i) : SameInode s s' i :=
  ⟨h.stays.inum i (.inr ⟨f, hf⟩), (h.stays.type i (.inr ⟨f, hf⟩) (hs.files f i hf).1).2⟩

theorem Goes.keeps (hs : Sound sb s held) (h : Goes sb s keep held' s') : Keeps s s' :=
  fun f i hf => ⟨by rw [h.stays.file]; exact hf, h.sameInode hs hf⟩

theorem Goes.loses (hs : Sound sb s held) (h : Goes sb s keep held' s') : Loses s s' := by
  intro f i hf
  rw [h.stays.file] at hf
  exact ⟨hf, h.sameInode hs hf⟩

end

omit [Fintype π] [DecidableEq π] in
theorem loses_setFile (hi : s'.inode = s.inode) (hf : s'.file = update s.file f y)
    (hy : ∀ i, y.refersTo i → (s.file f).refersTo i) : Loses s s' := fun g i hg => by
  refine ⟨?_, by rw [hi], by rw [hi]⟩
  rw [hf] at hg
  by_cases hgf : g = f
  · rw [hgf, update_self] at hg
    rw [hgf]
    exact hy i hg
  · rw [update_of_ne hgf] at hg
    exact hg

theorem after_openFile (h : Sound sb s held) : (openFile).after p (fun r s' =>
    match r with
    | .failed put => put = none ∧ Goes sb s held held s'
    | .ok f _ => Sound sb s' held ∧ ((s'.file f).type = .none ∧ 0 < (s'.file f).ref) ∧
        s'.inode = s.inode ∧ (s.file f).ref = 0 ∧ ∀ g, g ≠ f → s'.file g = s.file g) s := by
  rcases h.unused.run_openFile p with ⟨-, hrun⟩ | ⟨f, fd, href, -, hrun⟩ <;>
    refine after_of_run hrun ?_
  · exact ⟨rfl, h.same rfl rfl rfl rfl⟩
  · have htype := h.unused f href
    have hno : ∀ i, ¬ ({ s.file f with ref := 1 } : File).refersTo i := fun i hi => by
      have := hi.2.1
      dsimp only at this
      rw [htype] at this
      cases this
    refine ⟨h.setFile (f := f) rfl rfl rfl (cwdRefs_ofile s.proc p _) (fun i => ?_) nofun
      fun i hi => absurd hi (hno i), ⟨?_, ?_⟩, rfl, href, fun g hg =>
        update_of_ne hg _ _⟩
    · rw [if_neg (hno i)]
      omega
    · exact (congrArg File.type
        (update_self f { s.file f with ref := 1 } s.file)).trans htype
    · exact Nat.lt_of_lt_of_eq Nat.one_pos
        (congrArg File.ref (update_self f { s.file f with ref := 1 } s.file)).symm

theorem after_fillFile (h : Sound sb s (i :: held)) (hf : (s.file f).type = .none) (hv : Read s i)
    {readable writable : Bool} (hpos : 0 < (s.file f).ref)
    (hw : writable = true → (s.inode i).d.type ≠ T_DIR) :
    (fillFile f i readable writable).after p (fun _ s' => Sound sb s' held ∧ s'.inode = s.inode ∧
      ∀ g, g ≠ f → s'.file g = s.file g) s := by
  refine after_step ?_
  rintro _ _ ⟨⟩
  have hno : ∀ j, ¬ (s.file f).refersTo j := fun j hj => by
    have := hj.2.1
    rw [hf] at this
    cases this
  refine ⟨h.setFile (f := f) rfl rfl rfl (fun _ => rfl) (fun j => ?_)
    (fun h0 => absurd h0 (by dsimp only; omega)) ?_, rfl, fun g hg => update_of_ne hg _ _⟩
  · rw [if_neg (hno j)]
    by_cases hji : j = i
    · rw [hji, List.count_cons_self]
      split <;> omega
    · rw [List.count_cons_of_ne (Ne.symm hji), if_neg fun hr => hji hr.2.2.symm]
  · rintro j ⟨-, -, rfl⟩
    exact ⟨hv, hw⟩

/-- What a call leaves: the invariant, and the inodes of files that stay open. -/
def Settled (sb : Superblock) (s s' : FsSt π) : Prop :=
  Sound sb s' [] ∧ ∀ f i, (s.file f).refersTo i → (s'.file f).refersTo i → SameInode s s' i

omit [DecidableEq π] in
theorem Goes.settled (hs : Sound sb s held) (h : Goes sb s keep [] s') : Settled sb s s' :=
  ⟨h.sound, fun _ _ hf _ => h.sameInode hs hf⟩

theorem after_openLocked (hsb : sb.Ok) (h : Sound sb s [i]) (hv : Read s i) {omode : BitVec 32}
    (hw : omode &&& O_WRONLY ≠ 0 ∨ omode &&& O_RDWR ≠ 0 → (s.inode i).d.type ≠ T_DIR) :
    (openInode sb i omode).after p (fun _ s' => Sound sb s' [] ∧ Keeps s s') s := by
  refine after_bind (after_mono (after_openFile h) fun r s1 hr => ?_)
  cases r with
  | failed put =>
    obtain ⟨rfl, h1⟩ := hr
    have hrest : Moves sb p s1 [] (do iunlockput sb i; end_op; return none : FsProg π (Option Fd))
        (fun _ => []) fun _ _ => True :=
      .bind (moves_iunlockput hsb h1.sound) (List.Subset.refl []) fun _ s2 h2 _ =>
        .bind (moves_end_op h2.sound) (List.Subset.refl []) fun _ s3 h3 _ => .ret h3.sound trivial
    refine after_mono hrest fun _ s2 h2 => ⟨h2.1.sound, ?_⟩
    exact (h1.keeps h).trans (h2.1.keeps h1.sound)
  | ok f fd =>
    obtain ⟨h1, ⟨htype, hpos⟩, hinode, hfree, hothers⟩ := hr
    refine after_bind (after_mono (goes_iunlock h1 i) fun _ s2 h2 => ?_)
    refine after_bind (after_mono (moves_end_op h2.sound) fun _ s3 h3 => ?_)
    have h13 : Goes sb s1 [i] [i] s3 := h2.trans (List.Subset.refl [i]) h3.1
    have hv1 : Read s1 i := by
      unfold Read
      rw [hinode]
      exact hv
    have ht : (s3.inode i).d.type = (s.inode i).d.type := by
      rw [h13.type List.mem_cons_self hv1, hinode]
    rw [← h13.stays.file] at htype hpos
    refine after_bind (after_mono (after_fillFile h13.sound htype
      (h13.read List.mem_cons_self hv1) hpos fun hbits => ?_) fun _ s4 h4 => ?_)
    · rw [ht]
      exact hw (of_decide_eq_true hbits)
    obtain ⟨h4, hinode', hothers'⟩ := h4
    refine after_ret ⟨h4, fun g j hg => ?_⟩
    have hgf : g ≠ f := fun hgf => absurd hg.1 (by rw [hgf]; omega)
    have hg1 : (s1.file g).refersTo j := by
      rw [hothers g hgf]
      exact hg
    obtain ⟨hinum, htype'⟩ := h13.sameInode h1 hg1
    refine ⟨?_, ?_, ?_⟩
    · rw [hothers' g hgf, h13.stays.file]
      exact hg1
    · rw [hinode', hinum, hinode]
    · rw [hinode', htype', hinode]

section
omit [DecidableEq π]

theorem after_keeps {α β : Type} {x : FsProg π α} {g : α → FsProg π β} {m : α → List Slot}
    {R : α → FsSt π → Prop} (hs : Sound sb s held) (hx : Moves sb p s keep x m R)
    (hg : ∀ a s1, Goes sb s keep (m a) s1 → R a s1 →
      (g a).after p (fun _ s' => Sound sb s' [] ∧ Keeps s1 s') s1) :
    (x >>= g).after p (fun _ s' => Sound sb s' [] ∧ Keeps s s') s := by
  refine after_bind (after_mono hx ?_)
  rintro a s1 ⟨h1, hR⟩
  refine after_mono (hg a s1 h1 hR) ?_
  rintro b s' ⟨h2, hk⟩
  exact ⟨h2, (h1.keeps hs).trans hk⟩

theorem Moves.keeps {α : Type} {x : FsProg π α} {R : α → FsSt π → Prop} (hs : Sound sb s held)
    (hx : Moves sb p s keep x (fun _ => []) R) :
    x.after p (fun _ s' => Sound sb s' [] ∧ Keeps s s') s :=
  after_mono hx fun _ _ h => ⟨h.1.sound, h.1.keeps hs⟩

end

theorem after_open (hsb : sb.Ok) (h : Sound sb s []) (path : Option Path) (omode : BitVec 32) :
    (sysOpen sb path omode).after p (fun _ s' => Sound sb s' [] ∧ Keeps s s') s := by
  have hrefl := List.Subset.refl ([] : List Slot)
  have hend : ∀ {s : FsSt π}, Sound sb s [] → Moves sb p s []
      (do end_op; return none : FsProg π (Option Fd)) (fun _ => []) fun _ _ => True := fun h =>
    .bind (moves_end_op h) hrefl fun _ _ h1 _ => .ret h1.sound trivial
  cases path with
  | none => exact after_ret ⟨h, fun _ _ hf => ⟨hf, rfl, rfl⟩⟩
  | some path =>
    refine after_keeps h (moves_begin_op h) fun _ s1 h1 _ => ?_
    split
    · refine after_keeps h1.sound (moves_create hsb h1.sound (.inr (.inr (.inl rfl))) path)
        fun r s2 h2 hr => ?_
      cases r with
      | none => exact (hend h2.sound).keeps h2.sound
      | some ip =>
        obtain ⟨hread, htype⟩ := hr ip rfl
        refine after_openLocked hsb h2.sound hread fun _ => ?_
        rw [htype]
        decide
    · refine after_keeps h1.sound (moves_namei hsb h1.sound path) fun r s2 h2 _ => ?_
      cases r with
      | none => exact (hend h2.sound).keeps h2.sound
      | some ip =>
        refine after_keeps h2.sound (moves_ilock h2.sound List.mem_cons_self) fun _ s3 h3 hv => ?_
        refine after_keeps h3.sound (moves_typeOf h3.sound true ip) fun t s4 h4 ht => ?_
        split
        · exact Moves.keeps h4.sound
            (.bind (moves_iunlockput hsb h4.sound) hrefl fun _ s5 h5 _ => hend h5.sound)
        · next hdir =>
          refine after_openLocked hsb h4.sound (h4.read List.mem_cons_self hv.1) fun hbits hd => ?_
          refine hdir ⟨ht.trans hd, fun h0 => ?_⟩
          rw [h0] at hbits
          exact absurd hbits (by decide)

/-! ## Closing -/

omit [Fintype π] [DecidableEq π] in
theorem loses_same (hi : s'.inode = s.inode) (hf : s'.file = s.file) : Loses s s' := by
  intro g i hg
  rw [hf] at hg
  exact ⟨hg, by rw [hi], by rw [hi]⟩

theorem ite_one_le {P Q : Prop} [Decidable P] [Decidable Q] (h : P → Q) :
    (if P then 1 else 0) ≤ if Q then 1 else 0 := by
  by_cases hP : P
  · rw [if_pos hP, if_pos (h hP)]
  · rw [if_neg hP]
    exact Nat.zero_le _

omit [DecidableEq π] in
theorem Sound.dropFile (h : Sound sb s held) (hd : s'.disk = s.disk) (hi : s'.inode = s.inode)
    (hf : s'.file = update s.file f y) (hcwd : ∀ i, cwdRefs s'.proc i = cwdRefs s.proc i)
    (href : y.ref = 0) (htype : y.type = .none)
    (hheld : ∀ i, held'.count i ≤ held.count i + if (s.file f).refersTo i then 1 else 0) :
    Sound sb s' held' ∧ Loses s s' := by
  have hnone : ∀ i, ¬ y.refersTo i := fun i hy => absurd hy.1 (by omega)
  refine ⟨h.setFile hd hi hf hcwd (fun i => ?_) (fun _ => htype) fun i hy => absurd hy (hnone i),
    loses_setFile hi hf fun i hy => absurd hy (hnone i)⟩
  rw [if_neg (hnone i)]
  exact hheld i

theorem after_closeFile (h : Sound sb s held) (fd : Fd) : (closeFile fd).after p
    (fun r s' => Sound sb s' (r.toList ++ held) ∧ Loses s s') s := by
  refine after_step fun r s' hr => ?_
  cases hofile : (s.proc p).ofile fd with
  | none =>
    rw [hofile] at hr
    cases hr
    exact ⟨h, loses_same rfl rfl⟩
  | some f =>
    rw [hofile] at hr
    have hcwd := cwdRefs_ofile s.proc p (update (s.proc p).ofile fd none)
    by_cases hpos : (s.file f).ref < 1
    · simp only [if_pos hpos] at hr
      cases hr
    simp only [if_neg hpos] at hr
    by_cases hmore : 1 < (s.file f).ref
    · rw [if_pos hmore] at hr
      cases hr
      have hy : ∀ i, ({ s.file f with ref := (s.file f).ref - 1 } : File).refersTo i →
          (s.file f).refersTo i := fun i hi => ⟨by omega, hi.2⟩
      refine ⟨h.setFile (f := f) rfl rfl rfl hcwd
        (fun i => Nat.add_le_add_left (ite_one_le (hy i)) _) (fun h0 => ?_) fun i hi =>
          h.files f i (hy i hi), loses_setFile rfl rfl hy⟩
      dsimp only at h0
      omega
    · rw [if_neg hmore] at hr
      split at hr
      · next htype =>
        cases hr
        exact h.dropFile (f := f) rfl rfl rfl hcwd rfl htype fun _ => Nat.le_add_right _ _
      · cases hr
        exact h.dropFile (f := f) rfl rfl rfl hcwd rfl rfl fun _ => Nat.le_add_right _ _
      · next htype =>
        cases hr
        refine h.dropFile (f := f) rfl rfl rfl hcwd rfl rfl fun i => ?_
        -- the reference of the file is in a variable now
        by_cases hi : (s.file f).ip = i
        · rw [if_pos ⟨by omega, htype, hi⟩, ← hi]
          exact Nat.le_of_eq List.count_cons_self
        · refine Nat.le_trans (Nat.le_of_eq ?_) (Nat.le_add_right _ _)
          exact List.count_cons_of_ne hi

theorem moves_putClosed (hsb : sb.Ok) {put : Option Slot} (h : Sound sb s (put.toList ++ held)) :
    Moves sb p s held (putClosed sb put) (fun _ => held) fun _ _ => True := by
  cases put with
  | none => exact .ret h trivial
  | some i =>
    refine .bind (moves_begin_op h) (List.subset_cons_self i held) fun _ s1 h1 _ => ?_
    exact .bind (moves_iput hsb h1.sound) (List.Subset.refl held) fun _ s2 h2 _ =>
      moves_end_op h2.sound

theorem after_sysClose (hsb : sb.Ok) (h : Sound sb s held) (fd : Fd) :
    (sysClose sb fd).after p (fun _ s' => Sound sb s' held ∧ Loses s s') s := by
  refine after_bind (after_mono (after_closeFile h fd) ?_)
  rintro put s1 ⟨h1, hl⟩
  refine after_mono (moves_putClosed hsb h1) ?_
  rintro _ s2 ⟨h2, -⟩
  exact ⟨h2.sound, hl.trans (h2.loses h1)⟩

theorem after_closeAll (hsb : sb.Ok) (fds : List Fd) (h : Sound sb s held) :
    (closeAll sb fds).after p (fun _ s' => Sound sb s' held ∧ Loses s s') s := by
  induction fds generalizing s with
  | nil => exact after_ret ⟨h, loses_same rfl rfl⟩
  | cons fd fds ih =>
    refine after_bind (after_mono (after_sysClose hsb h fd) ?_)
    rintro _ s1 ⟨h1, hl⟩
    refine after_mono (ih h1) ?_
    rintro _ s2 ⟨h2, hl'⟩
    exact ⟨h2, hl.trans hl'⟩

omit [DecidableEq π] in
theorem Sound.reproc (h : Sound sb s held) (hd : s'.disk = s.disk) (hi : s'.inode = s.inode)
    (hf : s'.file = s.file)
    (hrefs : ∀ i, held'.count i + cwdRefs s'.proc i ≤ held.count i + cwdRefs s.proc i) :
    Sound sb s' held' := by
  refine ⟨?_, ?_, ?_, fun i => ?_, ?_, ?_, ?_⟩
  · rw [hd]; exact h.own
  · rw [hd]; exact h.super
  · rw [hd, hi]; exact h.cache
  · rw [hi, hf]
    have := h.refs i
    have := hrefs i
    omega
  · rw [hd]; exact h.names
  · unfold FilesOk; rw [hf]; exact h.unused
  · rw [hi, hf]; exact h.files

theorem after_leaveCwd (h : Sound sb s held) :
    (leaveCwd).after p (fun i s' => Sound sb s' (i :: held) ∧ Loses s s') s := by
  refine after_step fun i s' hr => ?_
  cases hcwd : (s.proc p).cwd with
  | none =>
    rw [hcwd] at hr
    cases hr
  | some j =>
    rw [hcwd] at hr
    cases hr
    refine ⟨h.reproc rfl rfl rfl fun k => ?_, loses_same rfl rfl⟩
    have hmove := cwdRefs_update s.proc p { s.proc p with cwd := none } k
    rw [if_neg (nofun : ({ s.proc p with cwd := none } : Proc).cwd ≠ some k), hcwd] at hmove
    change (i :: held).count k +
      cwdRefs (update s.proc p { s.proc p with cwd := none }) k ≤ _
    by_cases hk : i = k
    · rw [if_pos (congrArg some hk)] at hmove
      rw [hk, List.count_cons_self]
      omega
    · rw [if_neg fun he => hk (Option.some.inj he)] at hmove
      rw [List.count_cons_of_ne hk]
      omega

theorem after_sysExit (hsb : sb.Ok) (h : Sound sb s []) :
    (sysExit sb).after p (fun _ s' => Sound sb s' [] ∧ Loses s s') s := by
  refine after_bind (after_mono (after_closeAll hsb _ h) ?_)
  rintro _ s1 ⟨h1, hl1⟩
  refine after_bind (after_mono (moves_begin_op h1) ?_)
  rintro _ s2 ⟨h2, -⟩
  refine after_bind (after_mono (after_leaveCwd h2.sound) ?_)
  rintro i s3 ⟨h3, hl3⟩
  refine after_bind (after_mono (moves_iput hsb h3) ?_)
  rintro _ s4 ⟨h4, -⟩
  refine after_bind (after_mono (moves_end_op h4.sound) ?_)
  rintro _ s5 ⟨h5, -⟩
  refine after_step ?_
  rintro _ _ ⟨⟩
  refine ⟨h5.sound.reproc rfl rfl rfl fun k => ?_, ?_⟩
  · have := cwdRefs_update s5.proc p { s5.proc p with live := false } k
    exact Nat.add_le_add_left (Nat.le_of_eq (Nat.add_right_cancel this)) _
  · exact ((((hl1.trans (h2.loses h1)).trans hl3).trans (h4.loses h3)).trans
      (h5.loses h4.sound)).trans (loses_same rfl rfl)

/-! ## Sharing files -/

theorem after_sysDup (h : Sound sb s held) (fd : Fd) :
    (sysDup fd).after p (fun _ s' => Sound sb s' held ∧ Loses s s') s := by
  refine after_step fun _ s' hr => ?_
  cases hofile : (s.proc p).ofile fd with
  | none =>
    rw [hofile] at hr
    cases hr
    exact ⟨h, loses_same rfl rfl⟩
  | some f =>
    rw [hofile] at hr
    cases hfree : (List.finRange NOFILE).find? fun fd => ((s.proc p).ofile fd).isNone with
    | none =>
      simp only [hfree] at hr
      cases hr
      exact ⟨h, loses_same rfl rfl⟩
    | some fd' =>
      simp only [hfree] at hr
      by_cases hpos : (s.file f).ref < 1
      · rw [if_pos hpos] at hr
        cases hr
      rw [if_neg hpos] at hr
      cases hr
      have hy : ∀ i, ({ s.file f with ref := (s.file f).ref + 1 } : File).refersTo i →
          (s.file f).refersTo i := fun i hi => ⟨by omega, hi.2⟩
      exact ⟨h.setFile (f := f) rfl rfl rfl (cwdRefs_ofile s.proc p _)
        (fun i => Nat.add_le_add_left (ite_one_le (hy i)) _)
        (fun h0 => absurd h0 (Nat.succ_ne_zero _))
        fun i hi => h.files f i (hy i hi), loses_setFile rfl rfl hy⟩

theorem Sound.share {q : π} {y : Proc} (h : Sound sb s []) (hpos : 0 < (s.inode i).ref)
    (hd : s'.disk = s.disk)
    (hi : s'.inode = update s.inode i { s.inode i with ref := (s.inode i).ref + 1 })
    (hp : s'.proc = update s.proc q y) (hy : y.cwd = some i)
    (hf : ∀ f, ∃ n, s'.file f = { s.file f with ref := (s.file f).ref + n }) :
    Sound sb s' [] ∧ Loses s s' := by
  -- a file that nobody has open has no inode
  have hfile : ∀ f j, (s'.file f).refersTo j → (s.file f).refersTo j := fun f j hj => by
    obtain ⟨n, hn⟩ := hf f
    rw [hn] at hj
    refine ⟨Nat.pos_of_ne_zero fun h0 => ?_, hj.2⟩
    have htype := hj.2.1
    dsimp only at htype
    rw [h.unused f h0] at htype
    cases htype
  have hsame : ∀ j, (s'.inode j).inum = (s.inode j).inum ∧ (s'.inode j).valid = (s.inode j).valid ∧
      (s'.inode j).d = (s.inode j).d := fun j => by
    rw [hi]
    by_cases hj : j = i
    · rw [hj, update_self]
      exact ⟨rfl, rfl, rfl⟩
    · rw [update_of_ne hj]
      exact ⟨rfl, rfl, rfl⟩
  refine ⟨⟨?_, ?_, ?_, fun j => ?_, ?_, fun f h0 => ?_, fun f j hj => ?_⟩, fun f j hj =>
    ⟨hfile f j hj, (hsame j).1, congrArg Dinode.type (hsame j).2.2⟩⟩
  · rw [hd]; exact h.own
  · rw [hd]; exact h.super
  · rw [hd, hi]
    exact h.cache.setSame rfl rfl (fun _ => hpos) fun _ => h.cache.coherent i hpos
  · have h1 := h.refs j
    have h2 := cwdRefs_update s.proc q y j
    have h3 : openRefs s'.file j ≤ openRefs s.file j :=
      Finset.sum_le_sum fun f _ => ite_one_le (hfile f j)
    rw [hy] at h2
    rw [hp, hi]
    by_cases hj : j = i
    · subst hj
      rw [if_pos rfl] at h2
      rw [update_self]
      dsimp only
      omega
    · rw [if_neg fun he => hj (Option.some.inj he).symm] at h2
      rw [update_of_ne hj]
      omega
  · rw [hd]; exact h.names
  · obtain ⟨n, hn⟩ := hf f
    rw [hn] at h0 ⊢
    exact h.unused f (Nat.eq_zero_of_add_eq_zero_right h0)
  · obtain ⟨h1, h2⟩ := h.files f j (hfile f j hj)
    obtain ⟨n, hn⟩ := hf f
    rw [(hsame j).2.1, (hsame j).2.2, hn]
    exact ⟨h1, h2⟩

theorem after_sysFork (h : Sound sb s []) (q : π) :
    (sysFork q).after p (fun _ s' => Sound sb s' [] ∧ Loses s s') s := by
  refine after_step fun _ s' hr => ?_
  by_cases hlive : (s.proc q).live = true
  · rw [if_pos hlive] at hr
    cases hr
    exact ⟨h, loses_same rfl rfl⟩
  rw [if_neg hlive] at hr
  cases hcwd : (s.proc p).cwd with
  | none =>
    rw [hcwd] at hr
    cases hr
  | some i =>
    rw [hcwd] at hr
    cases hr
    have hpos : 0 < (s.inode i).ref := by
      have h1 := h.refs i
      have h2 := cwdRefs_pos hcwd
      omega
    exact h.share (i := i) (q := q) (y := { s.proc p with live := true }) hpos rfl rfl rfl hcwd
      fun f => ⟨(s.proc p).opens f, rfl⟩

end Files

end Xv6.Fs
