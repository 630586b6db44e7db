import Xv6.Fs.Resolve

/-!
# A new entry in a directory

`dirlink` in a locked directory that has no such name, and `create` up to its call of `dirlink`.
-/

namespace Xv6.Fs

open Lib
open Prog (ends_run run_bind run_step)

variable {π : Type} [DecidableEq π] {sb : Superblock} {p : π} {s s0 s' : FsSt π} {i j dp : Slot}
  {e : Nat} {name : Name}

/-! ## dirlink -/

theorem find_eq_none {disk : Disk} {ip : Dinode} : find disk ip name = none ↔
    ∀ k < entries ip, (dirent disk ip k).inum ≠ 0 →
      namecmp name (dirent disk ip k).name = false := by
  unfold find
  rw [Option.map_eq_none_iff, List.find?_eq_none]
  simp only [List.mem_range, Bool.and_eq_true, decide_eq_true_eq, not_and, Bool.not_eq_true]

/-- Slot `dp` has a directory that has been read. -/
structure DirAt (sb : Superblock) (s : FsSt π) (dp : Slot) : Prop where
  own : Owner sb s.disk
  lt : (s.inode dp).inum < sb.ninodes.toNat
  loaded : Loaded sb dp s
  type : (s.inode dp).d.type = T_DIR
  whole : (s.inode dp).d.size.toNat % 16 = 0

namespace DirAt

omit [DecidableEq π] in
theorem toWhole (h : DirAt sb s dp) : Whole sb (s.inode dp).inum (s.before dp) :=
  ⟨h.own, h.loaded.symm, h.type, h.whole⟩

section

variable (hsb : sb.Ok) (h : DirAt sb s dp) (hf : find s.disk (s.inode dp).d name = none)

include hsb h hf

theorem run_dirscan_none : (dirscan sb dp name).run p s = some (none, s) := by
  have hlook : lookup sb name ⟨s.disk, (s.inode dp).d, [], []⟩ =
      .ok (find s.disk (s.inode dp).d name, ⟨s.disk, (s.inode dp).d, [], []⟩) :=
    h.toWhole.lookup_eq hsb h.lt
  rw [hf] at hlook
  refine run_step ?_
  simp only [hlook]
  rfl

theorem run_dirlookup_none : (dirlookup sb dp name).run p s = some (none, s) := by
  unfold dirlookup
  rw [run_bind (h.run_dirscan_none hsb hf)]
  rfl

theorem run_dirlink_none : (dirlink sb dp name e).run p s =
      (onInode .log dp (fun d => addEntry sb d name e) >>= fun _ => pure true).run p s :=
  run_bind (h.run_dirlookup_none hsb hf)

end

end DirAt

/-! ## create up to dirlink -/

/-- The state after `ialloc` has marked inode `e`. -/
def FsSt.probed (sb : Superblock) (p : π) (dp : Slot) (type : BitVec 16) (e : Nat) (s : FsSt π) :
    FsSt π :=
  { s.setNote p { s.note p with fresh := some (e, type), want := some (dp, e) } with
    disk := putDinode sb s.disk e { Dinode.zero with type := type }
    stamp := Function.update s.stamp e (s.clock + 1)
    clock := s.clock + 1
    logged := IBLOCK e sb :: s.logged }

theorem run_iallocFrom {type : BitVec 16} {pre : List Nat} (post : List Nat)
    (hpre : ∀ k ∈ pre, (dinode sb s.disk k).type ≠ 0) (he : (dinode sb s.disk e).type = 0) :
    (iallocFrom sb dp type (pre ++ e :: post)).run p s =
    (iget e).run p (s.probed sb p dp type e) := by
  induction pre with
  | nil =>
    have hprobe : (iprobe sb dp type e).run p s = some (true, s.probed sb p dp type e) :=
      run_step (if_pos he)
    rw [List.nil_append, iallocFrom, run_bind hprobe]
    rfl
  | cons k pre ih =>
    have hprobe : (iprobe sb dp type k).run p s = some (false, s) :=
      run_step (if_neg (hpre k List.mem_cons_self))
    rw [List.cons_append, iallocFrom, run_bind hprobe]
    exact ih fun k hk => hpre k (List.mem_cons_of_mem _ hk)

theorem run_iget_new (hnew : ∀ i, 0 < (s.inode i).ref → (s.inode i).inum ≠ e)
    (hslot : ∃ i, (s.inode i).ref = 0) : ∃ j, (s.inode j).ref = 0 ∧ (iget e).run p s =
      some (j, (s.setInode j
        { s.inode j with dev := ROOTDEV, inum := e, ref := 1, valid := false }).setNote p
        ((s.note p).take j e)) := by
  obtain ⟨i, hi⟩ := hslot
  have hsome : (findEmpty s).isSome := by
    rw [findEmpty, List.find?_isSome]
    exact ⟨i, List.mem_finRange i, by simp [hi]⟩
  obtain ⟨j, hj⟩ := Option.isSome_iff_exists.1 hsome
  refine ⟨j, findEmpty_some hj, run_step ?_⟩
  simp only [findInode_none hnew, hj]

/-- What `create` has done when it calls `dirlink`: inode `e` is allocated with the fields `d`, and
it is locked in slot `j`. -/
structure Made (sb : Superblock) (p : π) (s s' : FsSt π) (j : Slot) (e : Nat) (d : Dinode) :
    Prop where
  disk : s'.disk = putDinode sb (putDinode sb s.disk e { Dinode.zero with type := d.type }) e d
  slot : s'.inode j = ⟨ROOTDEV, e, 1, some p, true, d⟩
  empty : (s.inode j).ref = 0
  others : ∀ i, i ≠ j → s'.inode i = s.inode i
  file : s'.file = s.file
  proc : s'.proc = s.proc

/-- The last lines of `create`: the new inode `e`, in slot `j`, is linked. -/
def createEnd (sb : Superblock) (dp : Slot) (name : Name) (e : Nat) (j : Slot) :
    FsProg π (Option Slot) := do
  let ok ← dirlink sb dp name e
  if ok then do
    iunlockput sb dp
    return some j
  else panic "create: dirlink"

theorem createNew_made (dp : Slot) (name : Name) (type major minor : BitVec 16)
    {pre post : List Nat} (htype : type ≠ T_DIR) (htype' : type ≠ 0)
    (hlist : (List.range (sb.ninodes.toNat - 1)).map (· + 1) = pre ++ e :: post)
    (hpre : ∀ k ∈ pre, (dinode sb s.disk k).type ≠ 0) (he : (dinode sb s.disk e).type = 0)
    (hnew : ∀ i, 0 < (s.inode i).ref → (s.inode i).inum ≠ e) (hslot : ∃ i, (s.inode i).ref = 0)
    (hlock : ∀ i, (s.inode i).ref = 0 → (s.inode i).lock = none) :
    ∃ j s', Made sb p s s' j e
    { Dinode.zero with type := type, major := major, minor := minor, nlink := 1 } ∧
      (createNew sb dp name type major minor).run p s = (createEnd sb dp name e j).run p s' := by
  obtain ⟨j, hj, hget⟩ := run_iget_new (p := p) (s := s.probed sb p dp type e) hnew hslot
  rw [← run_iallocFrom post hpre he, ← hlist] at hget
  generalize hs2 : FsSt.setNote _ p _ = s2 at hget
  have hj2 :
    s2.inode j = { s.inode j with dev := ROOTDEV, inum := e, ref := 1, valid := false } := by
    rw [← hs2]
    exact Function.update_self ..
  have hdisk2 : s2.disk = putDinode sb s.disk e { Dinode.zero with type := type } := by
    rw [← hs2]
    rfl
  -- the lock of the new inode, and its fields
  have hlock2 : (ilock sb j).run p s2 = some ((), (s2.setInode j { s2.inode j with
      lock := some p, valid := true, d := { Dinode.zero with type := type } }).setNote p
        ((s2.note p).locked j e)) := by
    refine run_step ?_
    have hd : dinode sb s2.disk e = { Dinode.zero with type := type } := by
      rw [hdisk2, dinode_putDinode, if_pos rfl]
    have hnone : (s2.inode j).lock = none := by
      rw [hj2]
      exact hlock j hj
    rw [if_neg (by rw [hj2]; exact lt_irrefl 1), hnone]
    dsimp only
    rw [if_neg (by rw [hj2]; exact Bool.false_ne_true), show (s2.inode j).inum =
      e by rw [hj2], hd, if_neg htype']
  generalize hs3 : FsSt.setNote _ p _ = s3 at hlock2
  have hj3 : s3.inode j = ⟨ROOTDEV, e, 1, some p, true, { Dinode.zero with type := type }⟩ := by
    rw [← hs3, hj2]
    exact Function.update_self ..
  have hset :
    (setFields sb j (fun d => { d with major := major, minor := minor, nlink := 1 })).run p s3 =
      some ((), _) :=
    run_onInode (u := ⟨putDinode sb s3.disk (s3.inode j).inum { (s3.inode j).d with
      major := major, minor := minor, nlink := 1 }, { (s3.inode j).d with
      major := major, minor := minor, nlink := 1 }, [], [IBLOCK (s3.inode j).inum sb]⟩) rfl
  generalize hs4 : FsSt.after s3 j _ _ = s4 at hset
  rw [hj3] at hs4
  have hj4 : s4.inode j = ⟨ROOTDEV, e, 1, some p, true,
      { Dinode.zero with type := type, major := major, minor := minor, nlink := 1 }⟩ := by
    rw [← hs4]
    exact Function.update_self ..
  refine ⟨j, s4, ⟨?_, hj4, hj, fun i hi => ?_, ?_, ?_⟩, ?_⟩
  · rw [← hs4, ← hs3]
    change putDinode sb s2.disk e _ = _
    rw [hdisk2]
  · rw [← hs4, ← hs3, ← hs2]
    simp [FsSt.after, FsSt.setInode, FsSt.setNote, FsSt.probed, hi]
  · rw [← hs4, ← hs3, ← hs2]
    rfl
  · rw [← hs4, ← hs3, ← hs2]
    rfl
  · refine (run_bind hget).trans ((run_bind hlock2).trans
      ((run_bind hset).trans ?_))
    have hinum : (inumOf j).run p s4 = some (e, s4) := by
      refine run_step ?_
      rw [hj4]
    refine (run_bind hinum).trans ?_
    have hdots : (createDots sb dp j e type).run p s4 = some ((), s4) := by
      unfold createDots
      rw [if_neg htype]
      rfl
    exact run_bind hdots

namespace Made

variable {d : Dinode}

omit [DecidableEq π] in
theorem toSection (hsb : sb.Ok) (h : Made sb p s s' j e d) (hs : Owner sb s.disk)
    (hlt : e < sb.ninodes.toNat) (he : (dinode sb s.disk e).type = 0) (hd : d.addrs = fun _ => 0)
    (hsize : d.size = 0) : Section sb e ⟨s.disk, Dinode.zero, [], []⟩ ⟨s'.disk, d, [], []⟩ := by
  have hmark : Section sb e ⟨s.disk, Dinode.zero, [], []⟩
      ⟨putDinode sb s.disk e { Dinode.zero with type := d.type },
        { Dinode.zero with type := d.type }, [], []⟩ :=
    Owner.blank [] hsb hs hlt (.inl he) (.inr ⟨rfl, rfl⟩)
  refine hmark.trans ?_
  rw [h.disk]
  exact Owner.blank [] hsb hmark.own hlt
    (.inr (by rw [hmark.inode]; exact ⟨rfl, rfl⟩)) (.inr ⟨hd, hsize⟩)

variable (hsec : Section sb e ⟨s.disk, Dinode.zero, [], []⟩ ⟨s'.disk, d, [], []⟩)
  (he : (dinode sb s.disk e).type = 0)

include hsec he

section

variable (h : Made sb p s s' j e d) (hdp : DirAt sb s dp) (hpos : 0 < (s.inode dp).ref)

include h hdp hpos

section
omit [DecidableEq π]

theorem dirAt : DirAt sb s' dp ∧ s'.inode dp = s.inode dp ∧ ∀ k < entries (s.inode dp).d,
      dirent s'.disk (s.inode dp).d k = dirent s.disk (s.inode dp).d k := by
  have hj : dp ≠ j := fun hj => absurd h.empty (by rw [← hj]; omega)
  have hinode := h.others dp hj
  have htype : (dinode sb s.disk (s.inode dp).inum).type = T_DIR := by
    rw [← hdp.loaded]
    exact hdp.type
  have hne : (s.inode dp).inum ≠ e := by
    intro heq
    rw [heq, he] at htype
    exact absurd htype (by decide)
  have hsame : dinode sb s'.disk (s.inode dp).inum = (s.inode dp).d :=
    (hsec.dinodes _ hdp.lt hne).trans hdp.loaded.symm
  refine ⟨⟨hsec.own, ?_, ?_, ?_, ?_⟩, hinode, fun k hk => ?_⟩
  · rw [hinode]
    exact hdp.lt
  · unfold Loaded
    rw [hinode]
    exact hsame.symm
  · rw [hinode]
    exact hdp.type
  · rw [hinode]
    exact hdp.whole
  · have hdir := hsec.dirent hdp.own hne ⟨hdp.lt, by rw [htype]; decide⟩
      (show k < entries (dinode sb s.disk (s.inode dp).inum) by rw [← hdp.loaded]; exact hk)
    rw [hsame, ← hdp.loaded] at hdir
    exact hdir

theorem find_none (hf : find s.disk (s.inode dp).d name = none) :
    find s'.disk (s'.inode dp).d name = none := by
  obtain ⟨-, hinode, hents⟩ := h.dirAt hsec he hdp hpos
  rw [find_eq_none] at hf ⊢
  rw [hinode]
  intro k hk
  rw [hents k hk]
  exact hf k hk

end

end

end Made

theorem walkTo_dir {disk : Disk} {d : Nat} {names : List Name}
    (h : walkTo sb disk true e names = some (d, name)) : (dinode sb disk d).type = T_DIR := by
  induction names generalizing e with
  | nil => cases h
  | cons n rest ih =>
    unfold walkTo at h
    by_cases hdir : (dinode sb disk e).type = T_DIR
    · rw [if_neg (not_not.2 hdir)] at h
      by_cases hlast : True ∧ rest = []
      · rw [if_pos (by simpa using hlast)] at h
        cases h
        exact hdir
      · rw [if_neg (by simpa using hlast)] at h
        cases hfind : find disk (dinode sb disk e) n with
        | none =>
          rw [hfind] at h
          cases h
        | some q =>
          rw [hfind] at h
          exact ih h
    · rw [if_pos hdir] at h
      cases h

namespace Walk

omit [DecidableEq π]

theorem dirAt (ht : Tree sb s) (h : Walk sb s s' [dp] (some dp)) (hloaded : Loaded sb dp s')
    (hdir : (dinode sb s.disk (s'.inode dp).inum).type = T_DIR) : DirAt sb s' dp := by
  have hlt := (h.cache.slots dp (h.held_pos List.mem_cons_self)).2.2
  have hd : (s'.inode dp).d = dinode sb s.disk (s'.inode dp).inum := by
    rw [hloaded, h.disk]
  refine ⟨?_, hlt, hloaded, by rw [hd, hdir], ?_⟩
  · rw [h.disk]
    exact ht.own
  · rw [hd]
    exact ht.whole _ hlt hdir

/-- The inodes that are cached are in use. -/
theorem uncached (ht : Tree sb s) (h : Walk sb s s' [dp] (some dp))
    (hdir : (dinode sb s.disk (s'.inode dp).inum).type = T_DIR)
    (he : (dinode sb s.disk e).type = 0) (i : Slot) (hi : 0 < (s'.inode i).ref) :
    (s'.inode i).inum ≠ e := by
  intro hie
  by_cases hidp : i = dp
  · rw [hidp] at hie
    rw [hie, he] at hdir
    exact absurd hdir (by decide)
  · have href := h.refs i
    rw [List.count_eq_zero_of_not_mem (by simpa using hidp)] at href
    have hi0 : 0 < (s.inode i).ref := by omega
    rw [h.same i hi0] at hie
    exact ht.cached i hi0 (by rw [hie, he])

theorem unlocked (h : Walk sb s s' [dp] (some dp)) (i : Slot) (hi : (s'.inode i).ref = 0) :
    (s'.inode i).lock = none := by
  have hpos := h.held_pos List.mem_cons_self
  refine (h.locks i).2 fun heq => ?_
  cases heq
  omega

end Walk

theorem create_made {c : Slot} (path : Path) (type major minor : BitVec 16) (pre post : List Nat)
    (hsb : sb.Ok) (ht : Tree sb s) (hroom : ¬ Crowded s) (hcwd : (s.proc p).cwd = some c)
    (hc : 0 < (s.inode c).ref) (htype : type ≠ T_DIR) (htype' : type ≠ 0) {d : Nat}
    (hpath : walkTo sb s.disk true (if path.head? = some slash then ROOTINO else (s.inode c).inum)
      (splitPath path) = some (d, name))
    (hf : find s.disk (dinode sb s.disk d) name = none)
    (hlist : (List.range (sb.ninodes.toNat - 1)).map (· + 1) = pre ++ e :: post)
    (hpre : ∀ k ∈ pre, (dinode sb s.disk k).type ≠ 0) (he : (dinode sb s.disk e).type = 0) :
    ∃ dp s1 j s', Walk sb s s1 [dp] (some dp) ∧ DirAt sb s1 dp ∧ (s1.inode dp).inum = d ∧
      Made sb p s1 s' j e
        { Dinode.zero with type := type, major := major, minor := minor, nlink := 1 } ∧
      (create sb path type major minor).run p s = (createEnd sb dp name e j).run p s' := by
  obtain ⟨r, s1, hrun, harr⟩ := ends_run (ends_namex hsb ht true hcwd hc) hroom
  rw [hpath] at harr
  cases r with
  | none => exact absurd harr.2 nofun
  | some q =>
    obtain ⟨dp, name'⟩ := q
    obtain ⟨hw, heq⟩ := harr
    cases heq
    have hdir := walkTo_dir hpath
    obtain ⟨_, s2, hlock, hw2, hloaded, hinum⟩ := ends_run (E := False) (p := p)
      (ends_ilock hw List.mem_cons_self (by rw [hdir]; decide)) id
    rw [← hinum] at hdir
    have hat := hw2.dirAt ht hloaded hdir
    have hlook : (dirlookup sb dp name).run p s2 = some (none, s2) := by
      refine hat.run_dirlookup_none hsb ?_
      rw [hloaded, hw2.disk, hinum]
      exact hf
    have hslot : ∃ i, (s2.inode i).ref = 0 := by
      have hfree : ∀ i, i ≠ dp → (s.inode i).ref = 0 → (s2.inode i).ref = 0 := by
        intro i hidp hi
        rw [hw2.refs i, hi, List.count_eq_zero_of_not_mem (by simpa using hidp)]
      unfold Crowded at hroom
      push Not at hroom
      obtain ⟨a, b, ha, hb, hab⟩ := hroom
      by_cases hadp : a = dp
      · exact ⟨b, hfree b (fun hbdp => hab (hadp.trans hbdp.symm)) hb⟩
      · exact ⟨a, hfree a hadp ha⟩
    obtain ⟨j, s', hmade, hbec⟩ := createNew_made (p := p) dp name type major minor htype
      htype' hlist
      (by rwa [hw2.disk]) (by rwa [hw2.disk]) (hw2.uncached ht hdir he) hslot hw2.unlocked
    exact ⟨dp, s2, j, s', hw2, hat, hinum dp, hmade,
      (run_bind hrun).trans ((run_bind hlock).trans
        ((run_bind hlook).trans hbec))⟩

end Xv6.Fs
