import Xv6.Fs.Parts
import Xv6.Fs.Txn

/-!
# References in variables

A process that runs alone has references to inodes in its variables. An inode that it or a file
refers to has a reference of its own, so that `iput` of another reference never frees it; and
nothing but freeing an inode changes its type.
-/

namespace Xv6.Fs

open Lib
open Function (update update_of_ne update_self)

variable {π : Type} [Fintype π] {sb : Superblock} {p : π} {s s1 s' : FsSt π}
  {held held' keep : List Slot} {i j : Slot} {x : Inode π} {e : Nat} {name : Name}

/-! ## The invariant -/

def Kind (t : BitVec 16) : Prop := t = 0 ∨ t = T_DIR ∨ t = T_FILE ∨ t = T_DEV

/-- The processes in the directory in slot `i`. -/
def cwdRefs (proc : π → Proc) (i : Slot) : Nat := ∑ p, if (proc p).cwd = some i then 1 else 0

/-- The inodes on the disk have types, and the entries of directories name inodes. -/
structure Numbered (sb : Superblock) (disk : Disk) : Prop where
  kind : ∀ e < sb.ninodes.toNat, Kind (dinode sb disk e).type
  entry : ∀ e < sb.ninodes.toNat, (dinode sb disk e).type = T_DIR →
    ∀ k < entries (dinode sb disk e),
      (dirent disk (dinode sb disk e) k).inum.toNat < sb.ninodes.toNat

/-- What holds between two actions of a process that has references to the slots `held` in its
variables: `ref` counts at least those and the ones of directories and files, and a file that is
open for writing refers to no directory. -/
structure Sound (sb : Superblock) (s : FsSt π) (held : List Slot) : Prop where
  own : Owner sb s.disk
  super : readsb s.disk = sb
  cache : Cache sb s.disk s.inode
  refs : ∀ i, held.count i + cwdRefs s.proc i + openRefs s.file i ≤ (s.inode i).ref
  names : Numbered sb s.disk
  unused : FilesOk s
  files : ∀ f i, (s.file f).refersTo i → (s.inode i).valid = true ∧
    ((s.file f).writable = true → (s.inode i).d.type ≠ T_DIR)

/-- Slot `i` is in `keep`, or a file refers to it. -/
def Guarded (s : FsSt π) (keep : List Slot) (i : Slot) : Prop :=
  i ∈ keep ∨ ∃ f, (s.file f).refersTo i

/-- Files and processes are as before, and the slots that are guarded have the same inode with the
same type. -/
structure Stays (s s' : FsSt π) (keep : List Slot) : Prop where
  file : s'.file = s.file
  proc : s'.proc = s.proc
  inum : ∀ i, Guarded s keep i → (s'.inode i).inum = (s.inode i).inum
  type : ∀ i, Guarded s keep i → (s.inode i).valid = true →
    (s'.inode i).valid = true ∧ (s'.inode i).d.type = (s.inode i).d.type

namespace Stays

section
omit [Fintype π]

theorem refl (s : FsSt π) (keep : List Slot) : Stays s s keep :=
  ⟨rfl, rfl, fun _ _ => rfl, fun _ _ hv => ⟨hv, rfl⟩⟩

theorem trans (h : Stays s s1 keep) (h' : Stays s1 s' keep) : Stays s s' keep := by
  have hguard : ∀ i, Guarded s keep i → Guarded s1 keep i := by
    rintro i (hi | ⟨f, hf⟩)
    · exact .inl hi
    · exact .inr ⟨f, by rw [h.file]; exact hf⟩
  refine ⟨h'.file.trans h.file, h'.proc.trans h.proc, fun i hi => ?_, fun i hi hv => ?_⟩
  · rw [h'.inum i (hguard i hi), h.inum i hi]
  · obtain ⟨hv1, ht1⟩ := h.type i hi hv
    obtain ⟨hv', ht'⟩ := h'.type i (hguard i hi) hv1
    exact ⟨hv', ht'.trans ht1⟩

theorem mono (h : Stays s s' keep) {less : List Slot} (hsub : less ⊆ keep) : Stays s s' less := by
  have hguard : ∀ i, Guarded s less i → Guarded s keep i := fun i hi =>
    hi.imp_left fun hm => hsub hm
  exact ⟨h.file, h.proc, fun i hi => h.inum i (hguard i hi), fun i hi => h.type i (hguard i hi)⟩

theorem slot (hi : s'.inode = update s.inode i x) (hf : s'.file = s.file)
    (hp : s'.proc = s.proc) (hx : Guarded s keep i → x.inum = (s.inode i).inum ∧
      ((s.inode i).valid = true → x.valid = true ∧ x.d.type = (s.inode i).d.type)) :
    Stays s s' keep := by
  refine ⟨hf, hp, fun k hk => ?_, fun k hk hv => ?_⟩
  · rw [hi]
    by_cases hki : k = i
    · subst hki
      rw [update_self]
      exact (hx hk).1
    · rw [update_of_ne hki]
  · rw [hi]
    by_cases hki : k = i
    · subst hki
      rw [update_self]
      exact (hx hk).2 hv
    · rw [update_of_ne hki]
      exact ⟨hv, rfl⟩

end

end Stays

namespace Sound

theorem perm (h : Sound sb s held) (hp : held.Perm held') : Sound sb s held' :=
  { h with refs := fun i => hp.count_eq i ▸ h.refs i }

theorem pos (h : Sound sb s held) (hi : Guarded s held i) : 0 < (s.inode i).ref := by
  have hle := h.refs i
  rcases hi with hi | ⟨f, hf⟩
  · have := List.count_pos_iff.2 hi
    omega
  · have := openRefs_pos hf
    omega

theorem congr (h : Sound sb s held) (hd : s'.disk = s.disk) (hi : s'.inode = s.inode)
    (hf : s'.file = s.file) (hp : s'.proc = s.proc) : Sound sb s' held := by
  refine ⟨?_, ?_, ?_, ?_, ?_, ?_, ?_⟩
  · rw [hd]; exact h.own
  · rw [hd]; exact h.super
  · rw [hd, hi]; exact h.cache
  · rw [hi, hf, hp]; exact h.refs
  · rw [hd]; exact h.names
  · unfold FilesOk; rw [hf]; exact h.unused
  · rw [hi, hf]; exact h.files

theorem slot (h : Sound sb s held) (hd : s'.disk = s.disk)
    (hi : s'.inode = update s.inode i x) (hf : s'.file = s.file) (hp : s'.proc = s.proc)
    (hc : Cache sb s.disk (update s.inode i x))
    (href : held'.count i + cwdRefs s.proc i + openRefs s.file i ≤ x.ref)
    (hothers : ∀ j, j ≠ i → held'.count j ≤ held.count j)
    (hx : (∃ f, (s.file f).refersTo i) → x.valid = true ∧ x.d.type = (s.inode i).d.type) :
    Sound sb s' held' := by
  refine ⟨?_, ?_, ?_, fun j => ?_, ?_, ?_, fun f j hj => ?_⟩
  · rw [hd]; exact h.own
  · rw [hd]; exact h.super
  · rw [hd, hi]; exact hc
  · rw [hi, hf, hp]
    by_cases hji : j = i
    · subst hji
      rw [update_self]
      exact href
    · rw [update_of_ne hji]
      have := h.refs j
      have := hothers j hji
      omega
  · rw [hd]; exact h.names
  · unfold FilesOk; rw [hf]; exact h.unused
  · rw [hf] at hj ⊢
    obtain ⟨hv, ht⟩ := h.files f j hj
    rw [hi]
    by_cases hji : j = i
    · subst hji
      rw [update_self]
      obtain ⟨hv', ht'⟩ := hx ⟨f, hj⟩
      exact ⟨hv', fun hw => by rw [ht']; exact ht hw⟩
    · rw [update_of_ne hji]
      exact ⟨hv, ht⟩

end Sound

variable [DecidableEq π]

/-! ## Actions on the cache -/

/-- What a program leaves, with the references `held` in variables. -/
structure Goes (sb : Superblock) (s : FsSt π) (keep held : List Slot) (s' : FsSt π) : Prop where
  sound : Sound sb s' held
  stays : Stays s s' keep

namespace Goes

omit [DecidableEq π] in
theorem trans {keep' : List Slot} (h : Goes sb s keep held s1) (hsub : keep' ⊆ keep)
    (h' : Goes sb s1 keep' held' s') : Goes sb s keep' held' s' :=
  ⟨h'.sound, (h.stays.mono hsub).trans h'.stays⟩

end Goes

omit [DecidableEq π] in
theorem Sound.same (h : Sound sb s held) (hd : s'.disk = s.disk) (hi : s'.inode = s.inode)
    (hf : s'.file = s.file) (hp : s'.proc = s.proc) : Goes sb s held held s' := by
  refine ⟨h.congr hd hi hf hp, hf, hp, fun i _ => ?_, fun i _ hv => ?_⟩
  · rw [hi]
  · rw [hi]
    exact ⟨hv, rfl⟩

theorem goes_iget (h : Sound sb s held) (hpos : 0 < e) (hlt : e < sb.ninodes.toNat) :
    (iget e).after p (fun i s' => Goes sb s held (i :: held) s' ∧ (s'.inode i).inum = e ∧
      s'.disk = s.disk) s := by
  refine Prog.after_step fun i s' hr => ?_
  cases hfind : findInode s e with
  | some j =>
    rw [hfind] at hr
    cases hr
    obtain ⟨hi, -, he⟩ := findInode_some hfind
    refine ⟨⟨h.slot rfl rfl rfl rfl (h.cache.setSame rfl rfl (fun _ => hi) fun _ =>
      h.cache.coherent i hi) ?_ (fun k hk => ?_) (fun hf =>
        ⟨(h.files _ i hf.choose_spec).1, rfl⟩),
      .slot rfl rfl rfl fun _ => ⟨rfl, fun hv => ⟨hv, rfl⟩⟩⟩, ?_, rfl⟩
    · have := h.refs i
      rw [List.count_cons_self]
      dsimp only
      omega
    · rw [List.count_cons_of_ne (Ne.symm hk)]
    · simpa [FsSt.setInode, FsSt.setNote] using he
  | none =>
    have hno := h.cache.not_found hfind
    cases hempty : findEmpty s with
    | none =>
      rw [hfind] at hr
      simp only [hempty] at hr
      cases hr
    | some j =>
      rw [hfind] at hr
      simp only [hempty] at hr
      cases hr
      have hi := findEmpty_some hempty
      have hle := h.refs i
      have hunguarded : ¬ Guarded s held i := fun hg => absurd (h.pos hg) (by omega)
      refine ⟨⟨h.slot rfl rfl rfl rfl
        (h.cache.set fun _ => ⟨rfl, hpos, hlt, fun j _ hj => hno j hj,
          fun hv => absurd hv Bool.false_ne_true⟩) ?_ (fun k hk => ?_)
        (fun hf => absurd (.inr hf) hunguarded),
        .slot rfl rfl rfl fun hg => absurd hg hunguarded⟩, ?_, rfl⟩
      · rw [List.count_cons_self]
        dsimp only
        omega
      · rw [List.count_cons_of_ne (Ne.symm hk)]
      · simp [FsSt.setInode, FsSt.setNote]

omit [DecidableEq π] in
theorem cwdRefs_pos {proc : π → Proc} (h : (proc p).cwd = some i) : 0 < cwdRefs proc i :=
  Finset.sum_pos' (fun _ _ => Nat.zero_le _)
    ⟨p, Finset.mem_univ p, by rw [if_pos h]; exact Nat.one_pos⟩

theorem goes_idupCwd (h : Sound sb s held) :
    (idupCwd).after p (fun i s' => Goes sb s held (i :: held) s') s := by
  refine Prog.after_step fun i s' hr => ?_
  cases hcwd : (s.proc p).cwd with
  | none =>
    rw [hcwd] at hr
    cases hr
  | some j =>
    rw [hcwd] at hr
    cases hr
    have hle := h.refs i
    have hpos := cwdRefs_pos hcwd
    have hi : 0 < (s.inode i).ref := by omega
    refine ⟨h.slot rfl rfl rfl rfl (h.cache.setSame rfl rfl (fun _ => hi) fun _ =>
      h.cache.coherent i hi) ?_ (fun k hk => ?_) (fun ⟨f, hf⟩ => ⟨(h.files f i hf).1, rfl⟩),
      .slot rfl rfl rfl fun _ => ⟨rfl, fun hv => ⟨hv, rfl⟩⟩⟩
    · rw [List.count_cons_self]
      dsimp only
      omega
    · rw [List.count_cons_of_ne (Ne.symm hk)]

omit [DecidableEq π] in
theorem Sound.relock (h : Sound sb s held) {o : Option π} (hd : s'.disk = s.disk)
    (hi : s'.inode = update s.inode i { s.inode i with lock := o }) (hf : s'.file = s.file)
    (hp : s'.proc = s.proc) : Goes sb s held held s' :=
  ⟨h.slot hd hi hf hp (h.cache.setSame rfl rfl id fun hpos => h.cache.coherent i hpos) (h.refs i)
    (fun _ _ => le_rfl) (fun ⟨f, hx⟩ => ⟨(h.files f i hx).1, rfl⟩),
    .slot hi hf hp fun _ => ⟨rfl, fun hv => ⟨hv, rfl⟩⟩⟩

theorem goes_iunlock (h : Sound sb s held) (i : Slot) :
    (iunlock i).after p (fun _ s' => Goes sb s held held s') s := by
  refine Prog.after_step fun _ s' hr => ?_
  split at hr
  · cases hr
  · cases hr
    exact h.relock rfl rfl rfl rfl

/-- Slot `i` has an inode that has been read. -/
def Read (s : FsSt π) (i : Slot) : Prop := (s.inode i).valid = true

theorem goes_ilock (h : Sound sb s held) (hi : Guarded s held i) :
    (ilock sb i).after p (fun _ s' => Goes sb s held held s' ∧ Read s' i ∧ s'.disk = s.disk) s := by
  have hpos := h.pos hi
  refine Prog.after_step fun _ s' hr => ?_
  split at hr
  · cases hr
  cases hl : (s.inode i).lock with
  | some q =>
    rw [hl] at hr
    cases hr
  | none =>
    simp only [hl] at hr
    by_cases hv : (s.inode i).valid = true
    · rw [if_pos hv] at hr
      cases hr
      refine ⟨h.relock rfl rfl rfl rfl, ?_, rfl⟩
      simpa [Read, FsSt.setInode, FsSt.setNote] using hv
    · rw [if_neg hv] at hr
      by_cases ht : (dinode sb s.disk (s.inode i).inum).type = 0
      · rw [if_pos ht] at hr
        cases hr
      · rw [if_neg ht] at hr
        cases hr
        refine ⟨⟨h.slot rfl rfl rfl rfl (h.cache.setSame rfl rfl id fun _ _ => ⟨rfl, ht⟩) (h.refs i)
          (fun _ _ => le_rfl) (fun hf => absurd (h.files _ i hf.choose_spec).1 hv),
          .slot rfl rfl rfl fun _ => ⟨rfl, fun hv' => absurd hv' hv⟩⟩, ?_, rfl⟩
        simp [Read, FsSt.setInode, FsSt.setNote]

omit [Fintype π] [DecidableEq π] in
theorem Numbered.section {st st' : InodeSt} (h : Numbered sb st.disk) (hown : Owner sb st.disk)
    (hsec : Section sb e st st') (hkind : Kind st'.ip.type)
    (hentry : st'.ip.type = T_DIR → ∀ k < entries st'.ip,
      (dirent st'.disk st'.ip k).inum.toNat < sb.ninodes.toNat) : Numbered sb st'.disk := by
  refine ⟨fun d hd => ?_, fun d hd ht k hk => ?_⟩
  · by_cases hde : d = e
    · rw [hde, hsec.inode]
      exact hkind
    · rw [hsec.dinodes d hd hde]
      exact h.kind d hd
  · by_cases hde : d = e
    · subst hde
      rw [hsec.inode] at ht hk ⊢
      exact hentry ht k hk
    · rw [hsec.dinodes d hd hde] at ht hk
      rw [hsec.dirent hown hde ⟨hd, by rw [ht]; decide⟩ hk]
      exact h.entry d hd ht k hk

section
omit [DecidableEq π]

theorem Sound.section {u : InodeSt} (h : Sound sb s held) (hpos : 0 < (s.inode i).ref)
    (hsec : Section sb (s.inode i).inum (s.before i) u) (hd : s'.disk = u.disk)
    (hi : s'.inode = update s.inode i x) (hf : s'.file = s.file) (hp : s'.proc = s.proc)
    (hdev : x.dev = (s.inode i).dev) (hinum : x.inum = (s.inode i).inum)
    (href : x.ref = (s.inode i).ref)
    (hx : x.valid = true → x.d = u.ip ∧ u.ip.type ≠ 0) (hkind : Kind u.ip.type)
    (hentry : u.ip.type = T_DIR → ∀ k < entries u.ip,
      (dirent u.disk u.ip k).inum.toNat < sb.ninodes.toNat)
    (hfiles : (∃ f, (s.file f).refersTo i) → x.valid = true ∧ x.d.type = (s.inode i).d.type) :
    Sound sb s' held := by
  have hsuper : readsb s'.disk = sb := by
    have := h.super
    unfold readsb at this ⊢
    rw [hd, hsec.super]
    exact this
  refine ⟨by rw [hd]; exact hsec.own, hsuper, ?_, fun j => ?_, ?_, ?_, fun f j hj => ?_⟩
  · rw [hd, hi]
    refine h.cache.section hpos hsec.dinodes hdev hinum fun hv => ?_
    obtain ⟨h1, h2⟩ := hx hv
    rw [hinum, h1, hsec.inode]
    exact ⟨rfl, h2⟩
  · rw [hf, hp, hi]
    by_cases hji : j = i
    · subst hji
      rw [update_self, href]
      exact h.refs j
    · rw [update_of_ne hji]
      exact h.refs j
  · rw [hd]
    have hnames : Numbered sb (s.before i).disk := h.names
    exact hnames.section h.own hsec hkind hentry
  · unfold FilesOk
    rw [hf]
    exact h.unused
  · rw [hf] at hj ⊢
    obtain ⟨hv, ht⟩ := h.files f j hj
    rw [hi]
    by_cases hji : j = i
    · subst hji
      rw [update_self]
      obtain ⟨hv', ht'⟩ := hfiles ⟨f, hj⟩
      exact ⟨hv', fun hw => by rw [ht']; exact ht hw⟩
    · rw [update_of_ne hji]
      exact ⟨hv, ht⟩

theorem Sound.copy (h : Sound sb s held) (hpos : 0 < (s.inode i).ref) (hv : Read s i) :
    (s.inode i).inum < sb.ninodes.toNat ∧
      dinode sb (s.before i).disk (s.inode i).inum = (s.before i).ip ∧ (s.before i).ip.type ≠ 0 :=
  ⟨(h.cache.slots i hpos).2.2, (h.cache.coherent i hpos hv).1.symm, (h.cache.coherent i hpos hv).2⟩

theorem goes_iputFree (hsb : sb.Ok) (h : Sound sb s (i :: held)) (hv : Read s i)
    (hone : (s.inode i).ref = 1) :
    (iputFree sb i).after p (fun _ s' => Goes sb s held (i :: held) s') s := by
  have hpos := h.pos (.inl List.mem_cons_self)
  obtain ⟨hlt, hip, ht⟩ := h.copy hpos hv
  -- there is no other reference
  have hunguarded : ¬ Guarded s held i := by
    have hle := h.refs i
    rw [List.count_cons_self] at hle
    rintro (hi | ⟨f, hf⟩)
    · have := List.count_pos_iff.2 hi
      omega
    · have := openRefs_pos hf
      omega
  have hspec := ifree_spec hsb hlt (s := s.before i) h.own hip ht h.super
  refine Prog.after_step fun _ s' hr => ?_
  cases hfree : ifree sb (s.inode i).inum (s.before i) with
  | error msg =>
    unfold FsSt.before at hfree
    rw [hfree] at hr
    cases hr
  | ok r =>
    obtain ⟨⟨hsec, htype⟩, -⟩ := hspec.ok hfree
    unfold FsSt.before at hfree
    rw [hfree] at hr
    cases hr
    refine ⟨h.section hpos hsec rfl rfl rfl rfl rfl rfl rfl nofun (.inl htype) (fun hd => ?_)
      (fun hf => absurd (.inr hf) hunguarded), .slot rfl rfl rfl fun hg => absurd hg hunguarded⟩
    rw [htype] at hd
    exact absurd hd (by decide)

end

theorem goes_iputDecide (hsb : sb.Ok) (h : Sound sb s (i :: held)) {unlinked : Bool}
    (hv : unlinked = true → Read s i) :
    (iputDecide sb i unlinked).after p (fun _ s' => Goes sb s held (i :: held) s') s := by
  unfold iputDecide
  cases unlinked with
  | false => exact Prog.after_ret ⟨h, .refl s held⟩
  | true =>
    refine Prog.after_bind (Prog.after_step ?_)
    rintro r s1 hr
    cases hr
    split
    · next hone =>
      have h1 : Goes sb s (i :: held) (i :: held) (s.setNote p { s.note p with
        put := some (i, .freeing) }) := h.same rfl rfl rfl rfl
      refine Prog.after_mono (goes_iputFree hsb h1.sound (hv rfl) hone) fun _ _ h2 => ?_
      exact h1.trans (List.subset_cons_self i held) h2
    · have h1 : Goes sb s (i :: held) (i :: held) (s.setNote p { s.note p with
        put := some (i, .dropping) }) := h.same rfl rfl rfl rfl
      exact Prog.after_ret ⟨h1.sound, h1.stays.mono (List.subset_cons_self i held)⟩

theorem goes_iput (hsb : sb.Ok) (h : Sound sb s (i :: held)) :
    (iput sb i).after p (fun _ s' => Goes sb s held held s') s := by
  have hsub : held ⊆ i :: held := List.subset_cons_self i held
  refine Prog.after_bind (Prog.after_step fun unlinked s1 hr => ?_)
  cases hl : (s.inode i).lock with
  | some q =>
    rw [hl] at hr
    cases hr
  | none =>
    simp only [hl] at hr
    cases hr
    have h1 : Goes sb s (i :: held) (i :: held) ((s.setInode i { s.inode i with
      lock := some p }).setNote p { s.note p with
        put := some
          (i, if (s.inode i).valid && (s.inode i).d.nlink == 0 then .testing else .dropping)
        firm := (s.note p).firm.filter fun j => j ≠ i }) := h.relock (i := i) rfl rfl rfl rfl
    refine Prog.after_bind (Prog.after_mono (goes_iputDecide hsb h1.sound fun hu => ?_) ?_)
    · rw [Bool.and_eq_true] at hu
      simpa [Read, FsSt.setInode, FsSt.setNote] using hu.1
    rintro _ s2 h2
    refine Prog.after_bind (Prog.after_step ?_)
    rintro _ _ ⟨⟩
    have h3 : Goes sb s2 (i :: held) (i :: held) ((s2.setInode i { s2.inode i with
      lock := none }).setNote p { s2.note p with put := some (i, .dropping) }) :=
      h2.sound.relock (i := i) rfl rfl rfl rfl
    generalize (s2.setInode i { s2.inode i with lock := none }).setNote p
      { s2.note p with put := some (i, .dropping) } = s3 at h3 ⊢
    refine Prog.after_step ?_
    rintro _ _ ⟨⟩
    have hle := h3.sound.refs i
    rw [List.count_cons_self] at hle
    refine ((h1.trans hsub h2).trans (List.Subset.refl held)
      (h3.trans hsub ⟨?_, .slot rfl rfl rfl fun _ => ⟨rfl, fun hv => ⟨hv, rfl⟩⟩⟩))
    refine h3.sound.slot rfl rfl rfl rfl (h3.sound.cache.setSame rfl rfl (fun hpos => ?_) fun _ =>
      h3.sound.cache.coherent i (by omega)) ?_ (fun k hk => ?_)
      fun hf => ⟨(h3.sound.files _ i hf.choose_spec).1, rfl⟩
    · dsimp only at hpos
      omega
    · dsimp only
      omega
    · rw [List.count_cons_of_ne (Ne.symm hk)]

/-! ## Code under a lock -/

/-- What code under the lock of an inode comes to: the type stays, and the entries of a directory
name inodes. -/
structure Tidy (sb : Superblock) (e : Nat) (st u : InodeSt) : Prop where
  sec : Section sb e st u
  type : u.ip.type = st.ip.type
  entry : u.ip.type = T_DIR →
    ∀ k < entries u.ip, (dirent u.disk u.ip k).inum.toNat < sb.ninodes.toNat

omit [DecidableEq π] in
theorem goes_tidy {α : Type} {l : Lab} {y : Nat → FsM α} {Q : α → Prop} {E : String → Prop}
    (h : Sound sb s held) (hi : Guarded s held i) (hv : Read s i)
    (hy : Sat (y (s.inode i).inum) (s.before i)
      (fun a u => Tidy sb (s.inode i).inum (s.before i) u ∧ Q a) E) :
    (onInode l i y).after p (fun a s' => Goes sb s held held s' ∧ Q a) s := by
  have hpos := h.pos hi
  obtain ⟨hlt, hip, ht⟩ := h.copy hpos hv
  refine Prog.after_mono (after_onInode hy) ?_
  rintro a _ ⟨u, ⟨hu, hQ⟩, rfl⟩
  have hkind : Kind u.ip.type := by
    rw [hu.type, ← hip]
    exact h.names.kind _ hlt
  refine ⟨⟨h.section hpos hu.sec rfl rfl rfl rfl rfl rfl rfl (fun _ => ⟨rfl, ?_⟩) hkind hu.entry
    fun _ => ⟨hv, hu.type⟩, .slot rfl rfl rfl fun _ => ⟨rfl, fun _ => ⟨hv, hu.type⟩⟩⟩, hQ⟩
  rw [hu.type]
  exact ht

section
omit [Fintype π] [DecidableEq π]

theorem Tidy.refl {st : InodeSt} (hown : Owner sb st.disk) (hn : Numbered sb st.disk)
    (he : e < sb.ninodes.toNat) (hip : dinode sb st.disk e = st.ip) : Tidy sb e st st := by
  refine ⟨Section.refl hown hip, rfl, fun hd k hk => ?_⟩
  rw [← hip] at hd hk ⊢
  exact hn.entry e he hd k hk

theorem Tidy.entrySet {st u : InodeSt} {k : Nat} {de : Dirent} (hn : Numbered sb st.disk)
    (he : e < sb.ninodes.toNat) (hip : dinode sb st.disk e = st.ip) (hsec : Section sb e st u)
    (hset : EntrySet k de st u) (hde : de.inum.toNat < sb.ninodes.toNat) : Tidy sb e st u := by
  have htype : u.ip.type = st.ip.type := by rw [hset.fields]
  refine ⟨hsec, htype, fun hd j hj => ?_⟩
  by_cases hjk : j = k
  · rw [hjk, hset.entry]
    exact hde
  · have hj' : j < entries st.ip := by
      rw [hset.entries] at hj
      have := hset.start
      omega
    rw [hset.others j hj' hjk, ← hip]
    rw [← hip] at hj'
    exact hn.entry e he (by rw [hip, ← htype, hd]) j hj'

end

section

variable (hsb : sb.Ok) (h : Sound sb s held) (hi : i ∈ held) (hv : Read s i)

include hsb h hi hv

section
omit [DecidableEq π]

theorem goes_setFields {f : Dinode → Dinode}
    (hf : ∀ d, (f d).type = d.type ∧ (f d).addrs = d.addrs ∧ (f d).size = d.size) :
    (setFields sb i f).after p (fun _ s' => Goes sb s held held s') s := by
  obtain ⟨hlt, hip, ht⟩ := h.copy (h.pos (.inl hi)) hv
  obtain ⟨h1, h2, h3⟩ := hf (s.inode i).d
  refine Prog.after_mono (goes_tidy (Q := fun _ => True) (E := fun _ => True) h (.inl hi) hv ?_)
    fun _ _ hr => hr.1
  have ht' : (f (s.inode i).d).type ≠ 0 := by
    rw [h1]
    exact ht
  apply sat_modify
  refine sat_modify_end
    ⟨⟨Owner.fields _ hsb h.own hlt hip ht h2 h3 ht', h1, fun hd k hk => ?_⟩, trivial⟩
  have hk' : k < entries (s.before i).ip := by
    have he : entries (f (s.inode i).d) = entries (s.inode i).d := by rw [entries, h3]; rfl
    exact he ▸ hk
  change (dirent (putDinode sb (s.before i).disk (s.inode i).inum (f (s.inode i).d))
    (f (s.inode i).d) k).inum.toNat < _
  rw [Owner.dirent_fields hsb h.own hlt hip ht h2 hk']
  exact (Tidy.refl h.own h.names hlt hip).entry (h1 ▸ hd) k hk'

theorem goes_addEntry (he : e < sb.ninodes.toNat) :
    (onInode .log i fun d => addEntry sb d name e).after p
      (fun _ s' => Goes sb s held held s') s := by
  obtain ⟨hlt, hip, ht⟩ := h.copy (h.pos (.inl hi)) hv
  refine Prog.after_mono (goes_tidy (Q := fun _ => True) (E := Fine) h (.inl hi) hv ?_)
    fun _ _ hr => hr.1
  refine (addEntry_spec hsb hlt (s := s.before i) h.own hip ht name e).mono
    fun _ u hu => ⟨?_, trivial⟩
  obtain ⟨hsec, k, -, -, -, hset⟩ := hu
  refine Tidy.entrySet h.names hlt hip hsec hset ?_
  dsimp only
  rw [BitVec.toNat_ofNat]
  exact lt_of_le_of_lt (Nat.mod_le _ _) he

theorem goes_eraseEntry {l : Lab} {k : Nat} :
    (onInode l i fun d => eraseEntry sb d (16 * k)).after p
      (fun _ s' => Goes sb s held held s') s := by
  obtain ⟨hlt, hip, ht⟩ := h.copy (h.pos (.inl hi)) hv
  refine Prog.after_mono (goes_tidy (Q := fun _ => True) (E := Fine) h (.inl hi) hv ?_)
    fun _ _ hr => hr.1
  refine (eraseEntry_spec hsb hlt (s := s.before i) h.own hip ht k).mono fun _ u hu => ⟨?_, trivial⟩
  exact Tidy.entrySet h.names hlt hip hu.1 hu.2 (Nat.pos_of_ne_zero fun h0 => by omega)

end

end

theorem goes_dirscan (hsb : sb.Ok) (h : Sound sb s held) {dp : Slot} (hi : dp ∈ held)
    (hv : Read s dp) :
    (dirscan sb dp name).after p (fun r s' => Goes sb s held held s' ∧ ∀ e off, r = some (e, off) →
      0 < e ∧ e < sb.ninodes.toNat ∧ ∃ k, off = 16 * k) s := by
  obtain ⟨hlt, hip, -⟩ := h.copy (h.pos (.inl hi)) hv
  have hsat := lookup_spec (s := s.before dp) hsb hlt h.own hip name
  unfold FsSt.before at hsat
  refine Prog.after_step fun r s' hr => ?_
  cases hlook : lookup sb name ⟨s.disk, (s.inode dp).d, [], []⟩ with
  | error msg =>
    rw [hlook] at hr
    cases hr
  | ok q =>
    obtain ⟨q, u⟩ := q
    obtain ⟨-, htype, hq⟩ := hsat.ok hlook
    rw [hlook] at hr
    cases q with
    | none =>
      cases hr
      exact ⟨h.same rfl rfl rfl rfl, nofun⟩
    | some q =>
      obtain ⟨e, off⟩ := q
      cases hr
      refine ⟨h.same rfl rfl rfl rfl, ?_⟩
      rintro _ _ ⟨⟩
      obtain ⟨k, hk, hoff, he, h0, -⟩ := hq
      refine ⟨Nat.pos_of_ne_zero h0, ?_, k, hoff⟩
      rw [he]
      exact (Tidy.refl h.own h.names hlt hip).entry htype k hk

end Xv6.Fs
