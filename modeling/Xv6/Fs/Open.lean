import Xv6.Fs.Create
import Xv6.Fs.Txn

/-!
# A failed open

`sys_open` may fail after the inode has been found: the inode is a directory and the mode asks for
more than reading, or there is no file or no descriptor left. It then gives back what it has taken.
But a file that it has created itself stays: `create` is not undone. So a failed open has an effect
exactly if it creates the file and finds no room for it in one of the two tables.
-/

namespace Xv6.Fs

open Lib
open Prog (after_bind after_mono after_of_run after_ret after_step ends_after run_bind run_step)

variable {π : Type} [DecidableEq π] {sb : Superblock} {p : π} {s s0 s' : FsSt π} {i dp c : Slot}
  {path : Path} {omode : BitVec 32} {e d : Nat} {name : Name}

/-! ## Without creation -/

omit [DecidableEq π] in
theorem walkTo_target {names : List Name} {parent : Bool} (ht : Tree sb s) (he : Target sb s e)
    (h : walkTo sb s.disk parent e names = some (d, name)) : Target sb s d := by
  induction names generalizing e with
  | nil =>
    unfold walkTo at h
    cases parent with
    | true => cases h
    | false =>
      cases h
      exact he
  | cons n rest ih =>
    unfold walkTo at h
    by_cases hdir : (dinode sb s.disk e).type = T_DIR
    · rw [if_neg (not_not.2 hdir)] at h
      by_cases hlast : parent = true ∧ rest = []
      · rw [if_pos hlast] at h
        cases h
        exact he
      · rw [if_neg hlast] at h
        cases hfind : find s.disk (dinode sb s.disk e) n with
        | none =>
          rw [hfind] at h
          cases h
        | some q =>
          rw [hfind] at h
          exact ih (ht.target he.lt hdir hfind) h
    · rw [if_pos hdir] at h
      cases h

def startInum (s : FsSt π) (c : Slot) (path : Path) : Nat :=
  if path.head? = some slash then ROOTINO else (s.inode c).inum

omit [DecidableEq π] in
theorem Tree.start (ht : Tree sb s) (hc : 0 < (s.inode c).ref) :
    Target sb s (startInum s c path) := by
  unfold startInum
  split
  · exact ht.root
  · obtain ⟨-, hpos, hlt⟩ := ht.cache.slots c hc
    exact ⟨hpos, hlt, ht.cached c hc, .inr ⟨c, hc, rfl⟩⟩

theorem after_openInode (hfiles : FilesOk s0) (h : Walk sb s0 s [i] (some i))
    (hsafe : Safe sb s0 (s.inode i).inum) :
    (openInode sb i omode).after p (fun r s' => r = none → Walk sb s0 s' [] none) s := by
  have hok : FilesOk s := by
    unfold FilesOk
    rw [h.file]
    exact hfiles
  rcases hok.run_openFile p with ⟨-, hrun⟩ | ⟨f, fd, -, -, hrun⟩ <;>
    refine after_bind (after_of_run hrun ?_)
  · refine after_bind (after_ret (after_bind (after_mono
      (ends_after (E := False) (ends_iunlockput h hsafe)) ?_)))
    rintro _ s2 ⟨h2, -⟩
    refine after_bind (after_step ?_)
    rintro _ _ ⟨⟩
    exact after_ret fun _ => h2
  · -- the call succeeds
    refine after_bind fun _ _ _ => after_bind fun _ _ _ => after_bind fun _ _ _ => ?_
    exact after_ret nofun

theorem after_ilock_typeOf {α : Type} {g : BitVec 16 → FsProg π α} {Q : α → FsSt π → Prop}
    (h : Walk sb s0 s [i] none) (htarget : Target sb s0 (s.inode i).inum)
    (hg : ∀ t s₁, Walk sb s0 s₁ [i] (some i) → (s₁.inode i).inum = (s.inode i).inum →
      (g t).after p Q s₁) :
    (do ilock sb i; let t ← typeOf true i; g t).after p Q s := by
  refine after_bind (after_mono (ends_after (E := False)
    (ends_ilock h List.mem_cons_self htarget.type)) ?_)
  rintro _ s₁ ⟨h1, -, hinum⟩
  refine after_bind (after_step ?_)
  rintro t _ ⟨⟩
  exact hg _ _ (h1.congr rfl rfl rfl rfl) (hinum i)

/-- The name is not in its directory, so that `create` makes it. -/
def Creates (sb : Superblock) (s : FsSt π) (c : Slot) (path : Path) (omode : BitVec 32) : Prop :=
  omode &&& O_CREATE ≠ 0 ∧ ∃ d name,
    walkTo sb s.disk true (startInum s c path) (splitPath path) = some (d, name) ∧
    find s.disk (dinode sb s.disk d) name = none

theorem after_create (hsb : sb.Ok) (ht : Tree sb s) (hcwd : (s.proc p).cwd = some c)
    (hc : 0 < (s.inode c).ref)
    (hno : ∀ d name, walkTo sb s.disk true (startInum s c path) (splitPath path) = some (d, name) →
      find s.disk (dinode sb s.disk d) name ≠ none) :
    (create sb path T_FILE 0 0).after p (fun r s' =>
      match r with
      | none => Walk sb s s' [] none
      | some ip => Walk sb s s' [ip] (some ip) ∧ Safe sb s (s'.inode ip).inum ∧ ∃ d name off,
          walkTo sb s.disk true (startInum s c path) (splitPath path) = some (d, name) ∧
          find s.disk (dinode sb s.disk d) name = some ((s'.inode ip).inum, off)) s := by
  refine after_bind (after_mono (ends_after (ends_namex hsb ht true hcwd hc)) ?_)
  intro r s1 harr
  cases r with
  | none => exact after_ret harr.1
  | some q =>
    obtain ⟨dp, name⟩ := q
    obtain ⟨h1, hpath⟩ := harr
    have htarget := walkTo_target ht (ht.start hc) hpath
    have hdir := walkTo_dir hpath
    refine after_bind (after_mono (ends_after (E := False)
      (ends_ilock h1 List.mem_cons_self htarget.type)) ?_)
    rintro _ s2 ⟨h2, hloaded, hinum⟩
    have htype : (s2.inode dp).d.type = T_DIR := by
      rw [hloaded, hinum, h2.disk, hdir]
    refine after_bind (after_mono (ends_after
      (ends_dirlookup hsb ht h2 hloaded htype)) ?_)
    rintro r s3 ⟨hinum3, hr⟩
    rw [hinum] at hinum3 hr
    cases r with
    | none => exact absurd hr.2 (hno _ _ hpath)
    | some q =>
      obtain ⟨ip, off⟩ := q
      obtain ⟨h3, hfind⟩ := hr
      have hip := ht.target htarget.lt hdir hfind
      refine after_bind (after_mono (ends_after (E := False)
        (ends_iunlockput (h3.perm (List.Perm.swap dp ip [])) (by rw [hinum3]; exact htarget.safe)))
          ?_)
      rintro _ s4 ⟨h4, hinum4⟩
      have hip4 : Target sb s (s4.inode ip).inum := by
        rw [hinum4]
        exact hip
      refine after_ilock_typeOf h4 hip4 fun t s5 h5 hinum5 => ?_
      have hsafe : Safe sb s (s5.inode ip).inum := by
        rw [hinum5]
        exact hip4.safe
      split
      · refine after_ret ⟨h5, hsafe, _, name, off, hpath, ?_⟩
        rw [hinum5, hinum4]
        exact hfind
      · refine after_bind (after_mono (ends_after (E := False)
          (ends_iunlockput h5 hsafe)) ?_)
        rintro _ s6 ⟨h6, -⟩
        exact after_ret h6

theorem after_sysOpen (hsb : sb.Ok) (ht : Tree sb s) (hfiles : FilesOk s)
    (hcwd : (s.proc p).cwd = some c) (hc : 0 < (s.inode c).ref)
    (hno : ¬ Creates sb s c path omode) :
    (sysOpen sb (some path) omode).after p (fun r s' => r = none → Walk sb s s' [] none) s := by
  have hend : ∀ {s1 : FsSt π}, Walk sb s s1 [] none →
      (do end_op; return none : FsProg π (Option Fd)).after p
        (fun r s' => r = none → Walk sb s s' [] none) s1 := by
    intro s1 h1
    refine after_bind (after_step ?_)
    rintro _ _ ⟨⟩
    exact after_ret fun _ => h1
  refine after_bind (after_step ?_)
  rintro _ _ ⟨⟩
  split
  · next hcreate =>
    refine after_bind (after_mono (after_create hsb ht hcwd hc fun d name hpath hf => ?_) ?_)
    · exact hno ⟨hcreate, d, name, hpath, hf⟩
    · intro r s1 hr
      cases r with
      | none => exact hend hr
      | some ip => exact after_openInode hfiles hr.1 hr.2.1
  · refine after_bind (after_mono (Q := fun r s1 => match r with
      | none => Walk sb s s1 [] none
      | some i => Walk sb s s1 [i] none ∧ Target sb s (s1.inode i).inum) ?_ ?_)
    · refine after_bind (after_mono (ends_after (ends_namex hsb ht false hcwd hc)) ?_)
      intro r s1 harr
      cases r with
      | none => exact after_ret harr.1
      | some q => exact after_ret ⟨harr.1, walkTo_target ht (ht.start hc) harr.2⟩
    · intro r s1 hr
      cases r with
      | none => exact hend hr
      | some ip =>
        refine after_ilock_typeOf hr.1 hr.2 fun t s2 h2 hinum => ?_
        have hsafe : Safe sb s (s2.inode ip).inum := by
          rw [hinum]
          exact hr.2.safe
        split
        · refine after_bind (after_mono (ends_after (E := False)
            (ends_iunlockput h2 hsafe)) ?_)
          rintro _ s3 ⟨h3, -⟩
          exact hend h3
        · exact after_openInode hfiles h2 hsafe

/-! ## After creation -/

theorem run_iunlockput_kept (sb : Superblock) (hlock : (s.inode i).lock ≠ none)
    (href : 0 < (s.inode i).ref)
    (hkeep : (s.inode i).d.nlink ≠ 0 ∨ (s.inode i).ref ≠ 1) :
    ∃ s', (iunlockput sb i).run p s = some ((), s') ∧
      s'.disk = s.disk ∧ s'.file = s.file ∧ s'.proc = s.proc ∧ ∀ k, k ≠ i → s'.inode k =
        s.inode k := by
  have hunlock :
    (iunlock i).run p s = some ((), (s.setInode i { s.inode i with lock := none }).setNote p
      { s.note p with want := (s.note p).want.filter fun w => w.1 ≠ i }) :=
    run_step (if_neg (by
      rintro (h | h)
      · exact hlock h
      · omega))
  generalize hs1 : FsSt.setNote _ p _ = s1 at hunlock
  have hi1 : s1.inode i = { s.inode i with lock := none } := by
    rw [← hs1]
    exact Function.update_self ..
  have hacquire : (iputAcquire i).run p s1 = some ((s1.inode i).valid && (s1.inode i).d.nlink == 0,
      (s1.setInode i { s1.inode i with lock := some p }).setNote p { s1.note p with
        put := some
          (i, if (s1.inode i).valid && (s1.inode i).d.nlink == 0 then .testing else .dropping)
        firm := (s1.note p).firm.filter fun j => j ≠ i }) := by
    refine run_step ?_
    have hnone : (s1.inode i).lock = none := by rw [hi1]
    simp only [hnone]
  generalize hs2 : FsSt.setNote _ p _ = s2 at hacquire
  have hframe2 : s2.disk = s.disk ∧ s2.file = s.file ∧ s2.proc = s.proc ∧ ∀ k, k ≠ i → s2.inode k =
    s.inode k := by
    rw [← hs2, ← hs1]
    exact ⟨rfl, rfl, rfl, fun k hk => by simp [FsSt.setInode, FsSt.setNote, hk]⟩
  have hdecide :
    ∃ s3, (iputDecide sb i ((s1.inode i).valid && (s1.inode i).d.nlink == 0)).run p s2 =
      some ((), s3) ∧ s3.disk = s.disk ∧ s3.file = s.file ∧ s3.proc = s.proc ∧
        ∀ k, k ≠ i → s3.inode k = s.inode k := by
    unfold iputDecide
    split
    · next hunl =>
      have hone : (s2.inode i).ref ≠ 1 := by
        have hlink : (s.inode i).d.nlink = 0 := by
          rw [hi1, Bool.and_eq_true, beq_iff_eq] at hunl
          exact hunl.2
        rw [← hs2, show FsSt.inode _ i = _ from Function.update_self .., hi1]
        exact hkeep.resolve_left (not_not.2 hlink)
      have href2 : (iputRef i).run p s2 = some ((s2.inode i).ref, _) := run_step rfl
      rw [run_bind href2, if_neg hone]
      exact ⟨_, rfl, hframe2⟩
    · exact ⟨s2, rfl, hframe2⟩
  obtain ⟨s3, hrun3, hd3, hf3, hp3, hk3⟩ := hdecide
  unfold iunlockput iput
  rw [run_bind hunlock, run_bind hacquire, run_bind hrun3]
  refine ⟨_, rfl, hd3, hf3, hp3, fun k hk => ?_⟩
  rw [← hk3 k hk]
  simp [FsSt.setInode, FsSt.setNote, hk]

/-- No file or no descriptor of the process is left. -/
def Taken (s : FsSt π) (p : π) : Prop :=
  (∀ f, (s.file f).ref ≠ 0) ∨ ∀ fd, (s.proc p).ofile fd ≠ none

omit [DecidableEq π] in
theorem not_taken (hf : (s.file f).ref = 0)
    (hfd : ((List.finRange NOFILE).find? fun fd => ((s.proc p).ofile fd).isNone) = some fd) :
    ¬ Taken s p := by
  rintro (hno | hno)
  · exact hno f hf
  · exact hno fd (by simpa using List.find?_some hfd)

theorem run_openInode_taken (sb : Superblock) (omode : BitVec 32) (hfiles : FilesOk s)
    (h : Taken s p)
    (hlock : (s.inode i).lock ≠ none) (href : 0 < (s.inode i).ref)
    (hlink : (s.inode i).d.nlink ≠ 0) :
    ∃ s', (openInode sb i omode).run p s = some (none, s') ∧ s'.disk = s.disk := by
  obtain ⟨-, hopen⟩ := (hfiles.run_openFile p).resolve_right fun ⟨_, _, hf, hfd, _⟩ =>
    not_taken hf hfd h
  obtain ⟨s', hput, hdisk, -⟩ := run_iunlockput_kept (p := p) sb hlock href (.inl hlink)
  refine ⟨s', ?_, hdisk⟩
  unfold openInode
  rw [run_bind hopen]
  change (iunlockput sb i >>= fun _ => (end_op : FsProg π Unit) >>= fun _ => pure none).run p _ = _
  rw [run_bind hput]
  rfl

/-- With a file and a descriptor left the open does not fail any more. -/
theorem after_openInode_left (hfiles : FilesOk s) (h : ¬ Taken s p) :
    (openInode sb i omode).after p (fun r _ => r ≠ none) s := by
  obtain ⟨f, fd, -, -, hrun⟩ := (hfiles.run_openFile p).resolve_left fun hno => h hno.1
  refine after_bind (after_of_run hrun ?_)
  refine after_bind fun _ _ _ => after_bind fun _ _ _ => after_bind fun _ _ _ => ?_
  exact after_ret nofun

/-- Inode `e`, which was free in `s0`, has the fields `d` and is in slot `j`. -/
structure New (sb : Superblock) (p : π) (s0 s : FsSt π) (j : Slot) (e : Nat) (d : Dinode) :
    Prop where
  free : (dinode sb s0.disk e).type = 0
  inode : dinode sb s.disk e = d
  slot : s.inode j = ⟨ROOTDEV, e, 1, some p, true, d⟩
  file : s.file = s0.file
  proc : s.proc = s0.proc

/-- The entry is added, and `create` answers the new inode. -/
theorem Made.link {j : Slot} {d : Dinode} (hsb : sb.Ok) (h : Made sb p s s' j e d)
    (hsec : Section sb e ⟨s.disk, Dinode.zero, [], []⟩ ⟨s'.disk, d, [], []⟩)
    (he : (dinode sb s.disk e).type = 0) (hlt : e < sb.ninodes.toNat) (hdp : DirAt sb s dp)
    (hpos : 0 < (s.inode dp).ref) (hlock : (s.inode dp).lock ≠ none)
    (hkeep : (s.inode dp).d.nlink ≠ 0 ∨ (s.inode dp).ref ≠ 1)
    (hf : find s.disk (s.inode dp).d name = none) {r : Unit × InodeSt}
    (hadd : addEntry sb (s'.inode dp).inum name e (s'.before dp) = .ok r) :
    ∃ t, (createEnd sb dp name e j).run p s' = some (some j, t) ∧
      New sb p s t j e d := by
  obtain ⟨hat, hinode, -⟩ := h.dirAt hsec he hdp hpos
  have hspec := addEntry_spec hsb hat.lt hat.own hat.toWhole.inode hat.toWhole.allocated name e
  obtain ⟨hsec', k, -, -, -, hset⟩ := hspec.ok hadd
  have hlinked : (dirlink sb dp name e).run p s' =
      some (true, s'.after dp { s'.inode dp with d := r.2.ip } r.2) := by
    have hrun : (onInode .log dp (fun d => addEntry sb d name e)).run p s' =
      some (r.1, s'.after dp { s'.inode dp with d := r.2.ip } r.2) := run_onInode hadd
    rw [hat.run_dirlink_none hsb (h.find_none hsec he hdp hpos hf), run_bind hrun]
    rfl
  generalize hs3 : s'.after dp { s'.inode dp with d := r.2.ip } r.2 = s3 at hlinked
  have hdp3 : s3.inode dp = { s'.inode dp with d := r.2.ip } := by
    rw [← hs3]
    exact Function.update_self ..
  have hjdp : j ≠ dp := by
    rintro rfl
    exact absurd h.empty (by omega)
  have hj3 : s3.inode j = s'.inode j := by
    rw [← hs3]
    exact Function.update_of_ne hjdp ..
  obtain ⟨t, hput, hdisk, hfile, hproc, hothers⟩ := run_iunlockput_kept (p := p) (s := s3)
    (i := dp) sb
    (by rw [hdp3, hinode]; exact hlock) (by rw [hdp3, hinode]; exact hpos) (by
      rw [hdp3, hset.fields]
      change (s'.inode dp).d.nlink ≠ 0 ∨ (s'.inode dp).ref ≠ 1
      rw [hinode]
      exact hkeep)
  refine ⟨t, ?_, he, ?_, ?_, ?_, ?_⟩
  · unfold createEnd
    rw [run_bind hlinked, if_pos rfl, run_bind hput]
    rfl
  · have hne : e ≠ (s'.inode dp).inum := by
      rintro rfl
      have htype := hdp.type
      rw [hdp.loaded, ← hinode, he] at htype
      exact absurd htype (by decide)
    rw [hdisk, ← hs3]
    change dinode sb r.2.disk e = d
    rw [hsec'.dinodes e hlt hne]
    exact hsec.inode
  · rw [hothers j hjdp, hj3, h.slot]
  · rw [hfile, ← hs3]
    exact h.file
  · rw [hproc, ← hs3]
    exact h.proc

/-- The fields of a new file. -/
def newFile : Dinode := { Dinode.zero with type := T_FILE, major := 0, minor := 0, nlink := 1 }

theorem run_iallocFrom_none {type : BitVec 16} {es : List Nat}
    (h : ∀ k ∈ es, (dinode sb s.disk k).type ≠ 0) :
    (iallocFrom sb dp type es).run p s = none := by
  induction es with
  | nil => rfl
  | cons k es ih =>
    have hprobe : (iprobe sb dp type k).run p s = some (false, s) :=
      run_step (if_neg (h k List.mem_cons_self))
    rw [iallocFrom, run_bind hprobe]
    exact ih fun k hk => h k (List.mem_cons_of_mem _ hk)

theorem run_iget_none (hnew : ∀ i, 0 < (s.inode i).ref → (s.inode i).inum ≠ e)
    (hslot : ∀ i, (s.inode i).ref ≠ 0) : (iget e).run p s = none := by
  have hempty : findEmpty s = none := by
    refine List.find?_eq_none.2 fun i _ hi => hslot i (by simpa using hi)
  simp only [iget, Prog.step, Prog.run, findInode_none hnew, hempty]

/-- A call of `create` that finds no entry and comes to an end has made a file. -/
theorem after_create_new (hsb : sb.Ok) (ht : Tree sb s) (hcwd : (s.proc p).cwd = some c)
    (hc : 0 < (s.inode c).ref)
    (hpath : walkTo sb s.disk true (startInum s c path) (splitPath path) = some (d, name))
    (hf : find s.disk (dinode sb s.disk d) name = none) :
    (create sb path T_FILE 0 0).after p (fun r s' => ∃ j e, r = some j ∧
      New sb p s s' j e newFile) s := by
  refine after_bind (after_mono (ends_after (ends_namex hsb ht true hcwd hc)) ?_)
  intro r s1 harr
  rw [show walkTo sb s.disk true (if path.head? = some slash then ROOTINO else (s.inode c).inum)
    (splitPath path) = some (d, name) from hpath] at harr
  cases r with
  | none => exact absurd harr.2 nofun
  | some q =>
    obtain ⟨dp, name'⟩ := q
    obtain ⟨hw, heq⟩ := harr
    cases heq
    have hdir := walkTo_dir hpath
    have htarget := walkTo_target ht (ht.start hc) hpath
    refine after_bind (after_mono (ends_after (E := False)
      (ends_ilock hw List.mem_cons_self htarget.type)) ?_)
    rintro _ s2 ⟨hw2, hloaded, hinum⟩
    rw [← hinum] at hdir htarget
    have hat := hw2.dirAt ht hloaded hdir
    have hf2 : find s2.disk (s2.inode dp).d name = none := by
      rw [hloaded, hw2.disk, hinum]
      exact hf
    refine after_bind fun r s3 hlook => ?_
    rw [hat.run_dirlookup_none hsb hf2] at hlook
    cases hlook
    intro r t hrun
    have halloc : (ialloc sb dp T_FILE).run p s2 ≠ none := fun hnone =>
      after_bind (Q := fun _ _ => False) (fun _ _ h => by rw [hnone] at h; cases h) r t hrun
    cases hfind : ((List.range (sb.ninodes.toNat - 1)).map (· + 1)).find? fun k =>
        (dinode sb s2.disk k).type = 0 with
    | none =>
      exact absurd
        (run_iallocFrom_none fun k hk => by simpa using List.find?_eq_none.1 hfind k hk) halloc
    | some e =>
      obtain ⟨he, pre, post, hlist, hpre⟩ := List.find?_eq_some_iff_append.1 hfind
      replace he : (dinode sb s2.disk e).type = 0 := by simpa using he
      replace hpre : ∀ k ∈ pre, (dinode sb s2.disk k).type ≠ 0 := fun k hk => by
        simpa using hpre k hk
      have hlt : e < sb.ninodes.toNat := by
        have hmem : e ∈ (List.range (sb.ninodes.toNat - 1)).map (· + 1) := by rw [hlist]; simp
        simp only [List.mem_map, List.mem_range] at hmem
        omega
      have he0 : (dinode sb s.disk e).type = 0 := by rwa [← hw2.disk]
      have hnew := hw2.uncached ht hdir he0
      have hslot : ∃ i, (s2.inode i).ref = 0 := by
        by_contra hno
        push Not at hno
        refine halloc ?_
        unfold ialloc
        rw [hlist, run_iallocFrom post hpre he]
        exact run_iget_none (s := s2.probed sb p dp T_FILE e) hnew hno
      obtain ⟨j, s', hmade, hbec⟩ := createNew_made (p := p) dp name T_FILE 0 0 (by decide)
        (by decide) hlist hpre he hnew hslot hw2.unlocked
      have hpos := hw2.held_pos List.mem_cons_self
      have hsec := hmade.toSection hsb hat.own hlt he rfl rfl
      rw [hbec, createEnd] at hrun
      obtain ⟨hat', -⟩ := hmade.dirAt hsec he hat hpos
      cases hadd : addEntry sb (s'.inode dp).inum name e (s'.before dp) with
      | error msg =>
        have hbad : (onInode .log dp (fun d => addEntry sb d name e)).run p s' = none := by
          unfold FsSt.before at hadd
          simp only [onInode, Prog.step, Prog.run, hadd]
        refine absurd hrun fun hrun => after_bind (Q := fun _ _ => False) (fun _ _ h => ?_) r t hrun
        rw [hat'.run_dirlink_none hsb (hmade.find_none hsec he hat hpos hf2)] at h
        exact (after_bind (Q := fun _ _ => False)
          (fun _ _ h' => by rw [hbad] at h'; cases h') _ _ h).elim
      | ok x =>
        have hkeep : (s2.inode dp).d.nlink ≠ 0 ∨ (s2.inode dp).ref ≠ 1 := by
          rcases htarget.safe with hlink | ⟨k, hk, hkd⟩
          · exact .inl (by rw [hloaded, hw2.disk]; exact hlink)
          · refine .inr ?_
            have hkr := hw2.refs k
            have hkdp : k = dp := hw2.cache.uniq k dp (by omega) hpos ((hw2.same k hk).trans hkd)
            rw [← hkdp, hkr, hkdp, List.count_cons_self]
            rw [hkdp] at hk
            omega
        obtain ⟨t', hrun', hn⟩ := hmade.link hsb hsec he hlt hat hpos
          (fun hnone => (hw2.locks dp).1 hnone rfl) hkeep hf2 hadd
        cases hrun.symm.trans hrun'
        exact ⟨j, e, rfl, he0, hn.inode, hn.slot, hn.file.trans hw2.file, hn.proc.trans hw2.proc⟩

/-- An open that creates the file fails exactly if there is no file or no descriptor left, and the
file stays. -/
theorem after_sysOpen_new (hsb : sb.Ok) (ht : Tree sb s) (hfiles : FilesOk s)
    (hcwd : (s.proc p).cwd = some c) (hc : 0 < (s.inode c).ref) (hnew : Creates sb s c path omode) :
    (sysOpen sb (some path) omode).after p
      (fun r s' => (Taken s p → r = none ∧ s'.disk ≠ s.disk) ∧ (¬ Taken s p → r ≠ none)) s := by
  obtain ⟨hcreate, d, name, hpath, hf⟩ := hnew
  refine after_bind (after_step ?_)
  rintro _ _ ⟨⟩
  rw [if_pos hcreate]
  refine after_bind (after_mono (after_create_new hsb ht hcwd hc hpath hf) ?_)
  rintro _ s1 ⟨j, e, rfl, h⟩
  have htaken : Taken s1 p ↔ Taken s p := by
    unfold Taken
    rw [h.file, h.proc]
  have hok : FilesOk s1 := fun f hf => by
    rw [h.file] at hf ⊢
    exact hfiles f hf
  refine fun r s' hrun => ⟨fun hno => ?_, fun hleft => ?_⟩
  · obtain ⟨s2, hrun2, hdisk⟩ := run_openInode_taken (p := p) (i := j) sb omode hok (htaken.2 hno)
      (by rw [h.slot]; exact Option.some_ne_none p) (by rw [h.slot]; exact Nat.one_pos)
      (by rw [h.slot]; exact (by decide : (1 : BitVec 16) ≠ 0))
    cases hrun.symm.trans hrun2
    refine ⟨rfl, fun heq => ?_⟩
    have hfree := h.free
    rw [← heq, hdisk, h.inode] at hfree
    exact absurd hfree (by decide)
  · exact after_openInode_left hok (mt htaken.1 hleft) r s' hrun

/-- In a consistent state, a call of `open` of a process that runs alone and comes to an end: a
failure leaves everything as it was, unless the call creates the file and there is no file or no
descriptor left for it; then it fails, and the disk is not as it was. Everything is the disk, and
with it all directories, inodes and link counts, the references to all inodes, the file table and
the descriptors. -/
theorem open_failed (hsb : sb.Ok) (ht : Tree sb s) (hfiles : FilesOk s)
    (hcwd : (s.proc p).cwd = some c) (hc : 0 < (s.inode c).ref) (path : Option Path)
    (omode : BitVec 32)
    {r : Option Fd} (hrun : (sysOpen sb path omode).run p s = some (r, s')) :
    (r = none → s'.disk = s.disk ∧ (∀ i, (s'.inode i).ref = (s.inode i).ref) ∧
      (∀ i, 0 < (s.inode i).ref → (s'.inode i).inum = (s.inode i).inum) ∧
      s'.file = s.file ∧ s'.proc = s.proc) ↔
    ¬ ((∃ l, path = some l ∧ Creates sb s c l omode) ∧ Taken s p) := by
  cases path with
  | none =>
    cases hrun
    exact iff_of_true (fun _ => ⟨rfl, fun _ => rfl, fun _ _ => rfl, rfl, rfl⟩) nofun
  | some l =>
    by_cases hnew : Creates sb s c l omode
    · have h := after_sysOpen_new hsb ht hfiles hcwd hc hnew r s' hrun
      by_cases hno : Taken s p
      · obtain ⟨hr, hdisk⟩ := h.1 hno
        exact iff_of_false (fun hall => hdisk (hall hr).1) (not_not.2 ⟨⟨l, rfl, hnew⟩, hno⟩)
      · exact iff_of_true (fun hr => absurd hr (h.2 hno)) fun hx => hno hx.2
    · refine iff_of_true (fun hr => ?_) fun ⟨⟨_, hl, hx⟩, _⟩ => hnew (by cases hl; exact hx)
      have h := after_sysOpen hsb ht hfiles hcwd hc hnew r s' hrun hr
      exact ⟨h.disk, h.refs, h.same, h.file, h.proc⟩

/-- A file that is not there. -/
theorem open_failed_root : ∃ s', (sysOpen bigSb (some [98]) O_RDONLY).run () rootFs =
    some (none, s') ∧
    s'.disk = rootFs.disk := by
  have hnone : walkTo bigSb rootFs.disk false ROOTINO [Name.ofList [98]] = none := by
    have hfind : find rootFs.disk rootDir (Name.ofList [98]) = none :=
      find_eq_none.2 fun k hk => absurd hk (Nat.not_lt_zero k)
    unfold walkTo
    rw [dinode_rootFs, hfind]
    rfl
  have hends : (namex bigSb false [98]).ends () _ _ rootFs :=
    ends_namex (c := 0) ok_bigSb tree_rootFs false rfl Nat.one_pos
  obtain ⟨r, s1, hname, harr⟩ := Prog.ends_run hends fun hcr => absurd (hcr 1 2 rfl rfl) (by decide)
  change Arrived bigSb rootFs (walkTo bigSb rootFs.disk false ROOTINO [Name.ofList [98]]) r
    s1 at harr
  rw [hnone] at harr
  cases r with
  | some q => cases harr.2
  | none =>
    have hnamei : (namei bigSb [98]).run () rootFs = some (none, s1) := by
      unfold namei
      rw [run_bind hname]
      rfl
    have hrun : (sysOpen bigSb (some [98]) O_RDONLY).run () rootFs = some (none, s1) := by
      have hbegin : (begin_op : FsProg Unit Unit).run () rootFs = some ((), rootFs) := rfl
      unfold sysOpen
      rw [run_bind hbegin, if_neg (by decide), run_bind hnamei]
      rfl
    refine ⟨s1, hrun, ?_⟩
    refine ((open_failed ok_bigSb tree_rootFs (fun _ _ => rfl) rfl Nat.one_pos (some [98]) O_RDONLY
      hrun).2 ?_ rfl).1
    rintro ⟨⟨l, -, hc⟩, -⟩
    exact absurd hc.1 (by decide)

def pipeOnly (f : FileId) : File :=
  if f = 0 then ⟨.pipe, NOFILE, true, false, 0, 0⟩ else ⟨.none, 0, false, false, 0, 0⟩

/-- The process of `rootFs` has the same pipe in all descriptors. -/
def pipesFs : FsSt Unit :=
  { rootFs with file := pipeOnly, proc := fun _ => ⟨true, some 0, fun _ => some 0⟩ }

theorem tree_pipesFs : Tree bigSb pipesFs := tree_rootFs.congr rfl rfl

theorem filesOk_pipesFs : FilesOk pipesFs := by
  intro f hf
  change (pipeOnly f).type = .none
  change (pipeOnly f).ref = 0 at hf
  unfold pipeOnly at hf ⊢
  split at hf
  · exact absurd hf (by decide)
  · next h0 => rw [if_neg h0]

/-- A process with all descriptors in use opens a new file: the answer is −1, and the file has been
created. -/
theorem open_creates : ∃ s s' : FsSt Unit, Tree bigSb s ∧ FilesOk s ∧
    (sysOpen bigSb (some [98]) O_CREATE).run () s = some (none, s') ∧
    (dinode bigSb s.disk 2).type = 0 ∧ (dinode bigSb s'.disk 2).type = T_FILE := by
  have hroot : dinode bigSb pipesFs.disk ROOTINO = rootDir := dinode_rootFs
  have hfree : (dinode bigSb pipesFs.disk 2).type = 0 := by
    change (dinode bigSb (freshDisk [(ROOTINO, rootDir)]) 2).type = 0
    rw [freshDisk, dinode_putDinode, if_neg (by decide), freshDisk, dinode_zeroedDisk (by decide)]
    rfl
  have hnone : find pipesFs.disk (dinode bigSb pipesFs.disk ROOTINO) (Name.ofList [98]) = none := by
    rw [hroot]
    exact find_eq_none.2 fun k hk => absurd hk (Nat.not_lt_zero k)
  obtain ⟨dp, s1, j, s2, hw, hat, hinum, hmade, hbec⟩ :=
    create_made (p := ()) (c := 0) (d := ROOTINO) [98] T_FILE 0 0 [1] [3, 4, 5, 6, 7] ok_bigSb
    tree_pipesFs (fun hcr => absurd (hcr 1 2 rfl rfl) (by decide)) rfl Nat.one_pos (by decide)
    (by decide) (by
      change walkTo bigSb pipesFs.disk true ROOTINO [Name.ofList [98]] = _
      unfold walkTo
      rw [hroot]
      rfl) hnone rfl (by
      intro k hk
      obtain rfl := List.mem_singleton.1 hk
      rw [show (1 : Nat) = ROOTINO from rfl, hroot]
      decide) hfree
  have hd : (s1.inode dp).d = rootDir := by
    rw [hat.loaded, hw.disk, hinum]
    exact hroot
  have hpos := hw.held_pos List.mem_cons_self
  have hfree1 : (dinode bigSb s1.disk 2).type = 0 :=
    (congrArg (fun disk => (dinode bigSb disk 2).type) hw.disk).trans hfree
  have hsec := hmade.toSection ok_bigSb hat.own (by decide) hfree1 rfl rfl
  obtain ⟨hat2, hinode, -⟩ := hmade.dirAt hsec hfree1 hat hpos
  have hfind : find s1.disk (s1.inode dp).d (Name.ofList [98]) = none := by
    rw [hw.disk, hd, ← hroot]
    exact hnone
  have hd2 : (s2.before dp).ip = rootDir := by
    change (s2.inode dp).d = rootDir
    rw [hinode, hd]
  -- there is room for the first entry
  have hroom : room bigSb s2.disk = 3996 := by
    have hsame : room bigSb s2.disk = room bigSb (freshDisk [(ROOTINO, rootDir)]) := by
      refine room_congr fun b hb => ?_
      have hne : BBLOCK b bigSb ≠ IBLOCK 2 bigSb := block_ne hb (by decide)
      rw [hmade.disk, bit_congr (putDinode_of_ne hne), bit_congr (putDinode_of_ne hne), hw.disk,
        show pipesFs.disk = freshDisk [(ROOTINO, rootDir)] from rfl]
    rw [hsame, room_freshDisk (by decide)]
  obtain ⟨t, hadd, -⟩ := addEntry_first hat2.lt hat2.toWhole (by rw [hd2]; rfl)
    (by rw [show (s2.before dp).disk = s2.disk from rfl, hroom]; decide) (Name.ofList [98]) 2
  obtain ⟨s4, hlink, hn⟩ := hmade.link ok_bigSb hsec hfree1 (by decide) hat hpos
    (fun hnone => (hw.locks dp).1 hnone rfl) (.inl (by rw [hd]; decide)) hfind hadd
  obtain ⟨s', hopen, hdisk⟩ := run_openInode_taken (p := ()) (s := s4) (i := j) bigSb O_CREATE
    (fun f hf => by rw [hn.file, hw.file] at hf ⊢; exact filesOk_pipesFs f hf)
    (.inr fun fd => by rw [hn.proc, hw.proc]; exact Option.some_ne_none _)
    (by rw [hn.slot]; exact Option.some_ne_none ()) (by rw [hn.slot]; exact Nat.one_pos)
    (by rw [hn.slot]; exact (by decide : (1 : BitVec 16) ≠ 0))
  refine ⟨pipesFs, s', tree_pipesFs, filesOk_pipesFs, ?_, hfree, ?_⟩
  · have hbegin : (begin_op : FsProg Unit Unit).run () pipesFs = some ((), pipesFs) := rfl
    unfold sysOpen
    rw [run_bind hbegin, if_pos (by decide), run_bind (hbec.trans hlink)]
    exact hopen
  · rw [hdisk, hn.inode]

end Xv6.Fs
