import Xv6.Fs.Exhaust
import Xv6.Fs.Writable

/-!
# The file system stays consistent

The blocks and the cached inodes are consistent after every system call: `chdir`, `read`, `write`
and `pipe` keep the invariant `Sound` as well. Between the actions of calls, in every interleaving,
the reference counts are right.
-/

namespace Xv6.Fs

open Lib
open Prog (after_bind after_mono after_ret after_step)

variable {π : Type} [Fintype π] [DecidableEq π] {sb : Superblock} {p : π} {s s' : FsSt π} {i : Slot}
  {f : FileId} {cs : List (π × Call π)}

theorem after_readInode (hsb : sb.Ok) (h : Sound sb s []) (hf : (s.file f).refersTo i) (off n : Nat)
    (con : Option Nat) :
    (readInode sb i off n con).after p (fun _ s' => Sound sb s' []) s := by
  have hguard : Guarded s [] i := .inr ⟨f, hf⟩
  have hv : Read s i := (h.files f i hf).1
  refine after_bind (after_step ?_)
  rintro r _ ⟨⟩
  split
  · refine after_bind (after_bind (after_mono (goes_iunlock h i) fun _ s1 h1 => ?_))
    have hguard1 : Guarded s1 [] i := .inr ⟨f, by rw [h1.stays.file]; exact hf⟩
    exact after_mono (goes_ilock h1.sound hguard1) fun _ _ h2 => after_ret h2.1.sound
  · exact after_ret h
  · obtain ⟨hlt, hip, ht⟩ := h.copy (h.pos hguard) hv
    have hread : (onInode .other i fun _ => readi sb off n).after p
        (fun _ s' => Goes sb s [] [] s' ∧ True) s := by
      refine goes_tidy (Q := fun _ => True) (E := Fine) h hguard hv ?_
      refine ((h.own.work (s := s.before i) hip ht).readi hsb hlt).mono fun r u hu => ?_
      rw [hu.1]
      exact ⟨Tidy.refl h.own h.names hlt hip, trivial⟩
    exact after_bind (after_mono hread fun _ _ h1 => after_ret h1.1.sound)

omit [DecidableEq π] in
theorem after_advance (h : Sound sb s []) (fd : Fd) (n : Nat) :
    (advance fd n).after p (fun _ s' => Sound sb s' []) s := by
  refine after_step fun _ s' hr => ?_
  split at hr
  · next g _ =>
    cases hr
    exact h.setFile (f := g) rfl rfl rfl (fun _ => rfl) (fun _ => Nat.le_refl _) (h.unused g)
      (h.files g)
  · cases hr
    exact h

omit [DecidableEq π] in
theorem Sound.refersTo (h : Sound sb s []) (hf : (s.file f).type = .inode) :
    (s.file f).refersTo (s.file f).ip := by
  refine ⟨Nat.pos_of_ne_zero fun h0 => ?_, hf, rfl⟩
  have hnone := h.unused f h0
  rw [hf] at hnone
  cases hnone

theorem after_sysRead (hsb : sb.Ok) (h : Sound sb s []) (fd : Fd) (n : Nat) (con : Option Nat) :
    (sysRead sb fd n con).after p (fun _ s' => Sound sb s' []) s := by
  refine after_bind (after_step ?_)
  rintro _ _ ⟨⟩
  cases (s.proc p).ofile fd with
  | none => exact after_ret h
  | some f =>
    dsimp only [Option.map_some]
    split
    · exact after_ret h
    · split
      · refine after_step ?_
        rintro _ _ ⟨⟩
      · exact after_ret h
      · next htype =>
        have hf := h.refersTo htype
        refine after_bind (after_mono (goes_ilock h (.inr ⟨f, hf⟩)) fun _ s1 h1 => ?_)
        refine after_bind (after_step fun off s2 hr => ?_)
        obtain rfl : s2 = s1 := by
          split at hr <;> cases hr <;> rfl
        have hf2 : (s2.file f).refersTo (s.file f).ip := by
          rw [h1.1.stays.file]
          exact hf
        refine after_bind (after_mono (after_readInode hsb h1.1.sound hf2 off n con) fun _ s3
          h3 => ?_)
        refine after_bind (after_mono (after_advance h3 fd _) fun _ s4 h4 => ?_)
        exact after_mono (goes_iunlock h4 _) fun _ _ h5 => h5.sound

theorem after_sysWrite (hsb : sb.Ok) (h : Sound sb s []) (fd : Fd) (src : List UInt8) :
    (sysWrite sb fd src).after p (fun _ s' => Sound sb s' []) s := by
  refine after_bind (after_mono (Q := fun _ s' => Sound sb s' []) ?_ fun _ _ h => after_ret h)
  by_cases hopen : ∃ f, (s.proc p).ofile fd = some f ∧ (s.file f).writable = true ∧
      (s.file f).type = .inode
  · obtain ⟨f, hfd, hw, htype⟩ := hopen
    have hr : Ready sb f (s.file f).ip s := ⟨h, h.refersTo htype, hw⟩
    exact after_mono (hr.after_filewrite hsb hfd src) fun _ _ h' => h'.ready.sound
  · refine after_bind (after_step ?_)
    rintro _ _ ⟨⟩
    cases hfd : (s.proc p).ofile fd with
    | none => exact after_ret h
    | some f =>
      dsimp only [Option.map_some]
      split
      · exact after_ret h
      · next hw =>
        split
        · refine after_step ?_
          rintro _ _ ⟨⟩
        · exact after_ret h
        · next htype => exact absurd ⟨f, hfd, Bool.eq_true_of_not_eq_false hw, htype⟩ hopen

theorem after_enterCwd (h : Sound sb s [i]) :
    (enterCwd i).after p (fun _ s' => Sound sb s' []) s := by
  refine after_step ?_
  rintro _ _ ⟨⟩
  refine h.reproc rfl rfl rfl fun k => ?_
  have hmove : cwdRefs (Function.update s.proc p { s.proc p with cwd := some i }) k + _ =
      cwdRefs s.proc k + if some i = some k then 1 else 0 := cwdRefs_update ..
  have hone : (if some i = some k then 1 else 0) ≤ List.count k [i] := by
    by_cases hk : i = k <;> simp [hk]
  change List.count k [] + cwdRefs (Function.update s.proc p { s.proc p with cwd := some i }) k ≤ _
  rw [List.count_nil]
  omega

theorem after_sysChdir (hsb : sb.Ok) (h : Sound sb s []) (path : Option Path) :
    (sysChdir sb path).after p (fun _ s' => Sound sb s' []) s := by
  refine after_bind (after_mono (moves_begin_op h) fun _ s1 h1 => ?_)
  cases path with
  | none => exact after_mono (moves_end_op h1.1.sound) fun _ _ h2 => h2.1.sound
  | some path =>
    refine after_bind (after_mono (moves_namei hsb h1.1.sound path) fun r s2 h2 => ?_)
    cases r with
    | none => exact after_mono (moves_end_op h2.1.sound) fun _ _ h3 => h3.1.sound
    | some ip =>
      have hip : ip ∈ [ip] := List.mem_singleton_self ip
      refine after_bind (after_mono (moves_ilock h2.1.sound hip) fun _ s3 h3 => ?_)
      refine after_bind (after_mono (moves_typeOf h3.1.sound false ip) fun t s4 h4 => ?_)
      split
      · refine after_bind (after_mono (moves_iunlockput hsb h4.1.sound) fun _ s5 h5 => ?_)
        exact after_mono (moves_end_op h5.1.sound) fun _ _ h6 => h6.1.sound
      · refine after_bind (after_mono (moves_iunlock h4.1.sound ip) fun _ s5 h5 => ?_)
        refine after_bind (after_mono (after_leaveCwd h5.1.sound) fun old s6 h6 => ?_)
        refine after_bind (after_mono (moves_iput hsb h6.1) fun _ s7 h7 => ?_)
        refine after_bind (after_mono (moves_end_op h7.1.sound) fun _ s8 h8 => ?_)
        exact after_enterCwd h8.1.sound

omit [DecidableEq π] in
theorem Sound.otherFile (h : Sound sb s []) {y : File} (hy : y.type ≠ .inode)
    (hunused : y.ref = 0 → y.type = .none) : Sound sb (s.setFile f y) [] := by
  have hnone : ∀ i, ¬ y.refersTo i := fun i hi => hy hi.2.1
  refine h.setFile rfl rfl rfl (fun _ => rfl) (fun i => ?_) hunused fun i hi => absurd hi (hnone i)
  rw [if_neg (hnone i)]
  exact Nat.le_add_right _ _

/-- The files that `pipe` clears when it fails have been unused before, so that no inode is put. -/
theorem after_openPipe (h : Sound sb s []) (mem : Bool) :
    (openPipe mem).after p (fun r s' => r = [] ∧ Sound sb s' []) s := by
  refine after_step fun r s' hr => ?_
  have hunused : ∀ g ∈ (List.finRange NFILE).filter fun f => (s.file f).ref == 0,
      (s.file g).putOf = none := fun g hg =>
    h.unused.putOf (by simpa using (List.mem_filter.1 hg).2)
  have hclear : ∀ {u : FsSt π} (g : FileId) (y : File), Sound sb u [] →
      Sound sb (u.setFile g { y with type := .none }) [] := fun g y hu =>
    hu.otherFile (by simp) fun _ => rfl
  dsimp only at hr
  generalize (List.finRange NFILE).filter (fun f => (s.file f).ref == 0) = l at hr hunused
  split at hr
  · cases hr
    exact ⟨rfl, h⟩
  · next f =>
    rw [hunused f (by simp)] at hr
    cases hr
    exact ⟨rfl, hclear f _ h⟩
  · next f g _ =>
    have htwo := hclear g (s.file g) (hclear f (s.file f) h)
    rw [hunused f (by simp), hunused g (by simp)] at hr
    split at hr
    · split at hr
      · cases hr
        refine ⟨rfl, Sound.reproc (s := (s.setFile f _).setFile g _) (?_ : Sound sb _ [])
          rfl rfl rfl fun i => ?_⟩
        · exact (h.otherFile (by simp) (by simp)).otherFile (by simp) (by simp)
        · exact Nat.le_of_eq (congrArg _ (cwdRefs_ofile s.proc p _ i))
      · cases hr
        exact ⟨rfl, htwo⟩
    · cases hr
      exact ⟨rfl, htwo⟩

theorem after_sysPipe (h : Sound sb s []) (mem : Bool) :
    (sysPipe sb mem).after p (fun _ s' => Sound sb s' []) s := by
  refine after_bind (after_mono (after_openPipe h mem) ?_)
  rintro _ s1 ⟨rfl, h1⟩
  exact after_ret h1

theorem Call.sound (hsb : sb.Ok) (h : Sound sb s []) (c : Call π) :
    (c.prog sb).after p (fun _ s' => Sound sb s' []) s := by
  cases hn : c.names with
  | true => exact after_mono (c.settled hsb h hn) fun _ _ h' => h'.1
  | false =>
    cases c with
    | chdir path => exact after_sysChdir hsb h path
    | read fd n con => exact after_sysRead hsb h fd n con
    | write fd src => exact after_sysWrite hsb h fd src
    | pipe mem => exact after_sysPipe h mem
    | _ => cases hn

theorem Sound.run (hsb : sb.Ok) (h : Sound sb s []) (hrun : Fs.calls sb cs s = some s') :
    Sound sb s' [] := by
  induction cs generalizing s with
  | nil =>
    cases hrun
    exact h
  | cons c cs ih =>
    unfold Fs.calls at hrun
    split at hrun
    · next s1 hr =>
      exact ih (c.2.sound hsb h () s1 hr) hrun
    · cases hrun

/-- In every state that calls lead to from a consistent image, the blocks that the free map marks
are those before the data and those that allocated inodes refer to. No two references are to one
block, and a file has the blocks that its size asks for. -/
theorem blocks_owned (hsb : sb.Ok) (h : Image sb s) (hrun : calls sb cs s = some s') :
    readsb s'.disk = sb ∧
    (∀ b < sb.size.toNat, bit sb s'.disk b = true ↔
      b < sb.firstData ∨ ∃ k, refs sb s'.disk (dinode sb s'.disk) k = b) ∧
    (∀ k b, refs sb s'.disk (dinode sb s'.disk) k = b → b ≠ 0 → sb.firstData ≤ b ∧
      b < sb.size.toNat ∧ ∀ k', refs sb s'.disk (dinode sb s'.disk) k' = b → k' = k) ∧
    ∀ e, Allocated sb (dinode sb s'.disk) e → dataBlocks (dinode sb s'.disk e) ≤ MAXFILE ∧
      ∀ k < MAXFILE, blockAt s'.disk (dinode sb s'.disk e) (filePos k) ≠ 0 ↔
        k < dataBlocks (dinode sb s'.disk e) := by
  have hs := h.sound.run hsb hrun
  have hown := hs.own.owned
  refine ⟨hs.super, fun b hb => ?_, ?_, fun e he => ⟨hs.own.nb_le e he, hs.own.exact e he⟩⟩
  · rw [hown.marks b hb]
    exact or_congr_right (or_iff_right id)
  · rintro k _ rfl hk
    exact ⟨(hown.range k hk).1, (hown.range k hk).2, fun k' hk' => (hown.inj k k' hk'.symm hk).symm⟩

/-- In the same states, no two slots in use have one inode, a slot that has been read agrees with
the disk and has at least the references of open files and current directories, and every entry of a
directory has the number of an inode. -/
theorem inodes_cached (hsb : sb.Ok) (h : Image sb s) (hrun : calls sb cs s = some s') :
    (∀ i, 0 < (s'.inode i).ref → 0 < (s'.inode i).inum ∧ (s'.inode i).inum < sb.ninodes.toNat ∧
      (∀ j, 0 < (s'.inode j).ref → (s'.inode i).inum = (s'.inode j).inum → i = j) ∧
      ((s'.inode i).valid = true →
        (s'.inode i).d = dinode sb s'.disk (s'.inode i).inum ∧ (s'.inode i).d.type ≠ 0)) ∧
    (∀ i, cwdRefs s'.proc i + openRefs s'.file i ≤ (s'.inode i).ref) ∧
    (∀ f i, (s'.file f).refersTo i → (s'.inode i).valid = true) ∧
    ∀ e < sb.ninodes.toNat, (dinode sb s'.disk e).type = T_DIR →
      ∀ k < entries (dinode sb s'.disk e),
        (dirent s'.disk (dinode sb s'.disk e) k).inum.toNat < sb.ninodes.toNat := by
  have hs := h.sound.run hsb hrun
  refine ⟨fun i hi => ?_, fun i => ?_, fun f i hf => (hs.files f i hf).1, hs.names.entry⟩
  · obtain ⟨-, hpos, hlt⟩ := hs.cache.slots i hi
    exact ⟨hpos, hlt, fun j hj he => hs.cache.uniq i j hi hj he, hs.cache.coherent i hi⟩
  · have hrefs := hs.refs i
    rw [List.count_nil] at hrefs
    omega

/-- A file is made, written, read and removed while it is open. -/
def session : List (Unit × Call Unit) :=
  [((), .open (some [97]) (O_CREATE ||| O_RDWR)), ((), .write 0 [7]), ((), .read 0 1 none),
    ((), .chdir (some [slash])), ((), .unlink (some [97])), ((), .close 0)]

theorem session_runs : ∃ s', calls bigSb session rootImage = some s' := by
  have hrun : (calls bigSb session rootImage).isSome = true := by decide +kernel
  exact Option.isSome_iff_exists.1 hrun

theorem blocks_owned_session : ∃ s', calls bigSb session rootImage = some s' ∧
    readsb s'.disk = bigSb := by
  obtain ⟨s', hs⟩ := session_runs
  exact ⟨s', hs, (blocks_owned ok_bigSb image_rootImage hs).1⟩

theorem inodes_cached_session : ∃ s', calls bigSb session rootImage = some s' ∧
    ∀ i, cwdRefs s'.proc i + openRefs s'.file i ≤ (s'.inode i).ref := by
  obtain ⟨s', hs⟩ := session_runs
  exact ⟨s', hs, (inodes_cached ok_bigSb image_rootImage hs).2.1⟩

end Xv6.Fs

namespace Xv6.Fs.Demand

open Lib

/-- In every interleaving of system calls, `ref` of a slot counts the references that calls have in
their variables, the current directories and the open files, and a slot that a call refers to keeps
its inode. `ref` of a file counts the descriptors. A call has at most three references, and it gives
all of them back; a process that does not live has neither descriptors nor a current directory. -/
theorem reference_counts {π : Type} [DecidableEq π] [Fintype π] {sb : Superblock} {d : Disk}
    {init : π} {c : Config π (FsSt π) Lab} (h : Reach (fsSys sb) (.start (boot d init)) c) :
    (∀ i, (c.shared.inode i).ref = ∑ p, ((held (c.shared.note p)).count i +
      if (c.shared.proc p).cwd = some i then 1 else 0) + openRefs c.shared.file i) ∧
    (∀ p, ∀ t ∈ (c.shared.note p).toks, (c.shared.inode t.1).inum = t.2) ∧
    (∀ f, (c.shared.file f).ref = ∑ p, (c.shared.proc p).opens f) ∧
    ∀ p, (held (c.shared.note p)).card ≤ callRefs ∧
      (c.next p = none → held (c.shared.note p) = 0) ∧
      ((c.shared.proc p).live = false →
        (c.shared.proc p).cwd = none ∧ ∀ fd, (c.shared.proc p).ofile fd = none) := by
  have hH := holds_of_reach h
  refine ⟨fun i => ?_, hH.1.toks, hH.1.opens.count, fun p =>
    ⟨hH.1.few p, fun hn => (hH.idle_next hn).1, fun hl => (hH.1.gone p hl).2⟩⟩
  rw [hH.1.refs i, refsTo]
  simp only [ownRefs_eq]

/-- A process opens a file and forks. -/
theorem reference_counts_fork : ∃ c, Reach (fsSys mkfsSb) (.start (boot treeDisk (0 : Fin 2))) c ∧
    ∑ p, (c.shared.proc p).opens 0 = 2 ∧ ∀ p, held (c.shared.note p) = 0 := by
  have hrun : ((session mkfsSb [(0, .open (some [slash, 97, slash, 65]) O_RDWR), (0, .fork 1)]
      (boot treeDisk (0 : Fin 2))).map fun s => decide ((s.file 0).ref = 2)) = some true := by
    decide +kernel
  obtain ⟨s, hs, htwo⟩ := Option.map_eq_some_iff.1 hrun
  have hreach := reach_session .refl hs
  obtain ⟨-, -, hopens, hcalls⟩ := reference_counts hreach
  exact ⟨_, hreach, (hopens 0).symm.trans (of_decide_eq_true htwo), fun p => (hcalls p).2.1 rfl⟩

end Xv6.Fs.Demand
