import Xv6.Fs.Descriptors
import Xv6.Fs.Resolve

/-!
# No directory is open for writing

Runs of system calls one after the other. What `sys_open` has found out about the type of an inode
is true as long as the file is open, since the inode has the reference of the file.
-/

namespace Xv6.Fs

open Lib
open Prog (after_bind after_mono after_ret after_step)
open Function (update update_of_ne update_self)

variable {π : Type} [Fintype π] [DecidableEq π] {sb : Superblock} {p : π} {s s1 s' : FsSt π}
  {held held' keep : List Slot} {i j : Slot} {e : Nat} {name : Name}

/-! ## Runs -/

def Call.names : Call π → Bool
  | .open _ _ | .mkdir _ | .mknod _ _ _ | .unlink _ | .link _ _ | .close _ | .dup _ | .fork _ |
    .exec _ _ _ | .exit => true
  | .chdir _ | .read _ _ _ | .write _ _ | .pipe _ => false

/-- The processes make calls one after the other. There is no state if a call does not return. -/
def calls (sb : Superblock) : List (π × Call π) → FsSt π → Option (FsSt π)
  | [], s => some s
  | (p, c) :: cs, s =>
    match (c.prog sb).run p s with
    | some (_, s') => calls sb cs s'
    | none => none

section
omit [DecidableEq π]

theorem Moves.settled {α : Type} {x : FsProg π α} {R : α → FsSt π → Prop} (hs : Sound sb s [])
    (hx : Moves sb p s keep x (fun _ => []) R) : x.after p (fun _ s' => Settled sb s s') s :=
  after_mono hx fun _ _ h => h.1.settled hs

theorem Settled.of_loses (h : Sound sb s' [] ∧ Loses s s') : Settled sb s s' :=
  ⟨h.1, fun f i _ hf => (h.2 f i hf).2⟩

end

theorem Call.settled (hsb : sb.Ok) (h : Sound sb s []) (c : Call π) (hc : c.names = true) :
    (c.prog sb).after p (fun _ s' => Settled sb s s') s := by
  cases c with
  | «open» path omode =>
    refine after_bind (after_mono (after_open hsb h path omode) ?_)
    rintro _ s' ⟨h', hk⟩
    exact after_ret ⟨h', fun f i hf _ => (hk f i hf).2⟩
  | mkdir path => exact (moves_sysMake hsb h (.inr (.inl rfl)) path).settled h
  | mknod path major minor => exact (moves_sysMake hsb h (.inr (.inr (.inr rfl))) path).settled h
  | link old new => exact (moves_sysLink hsb h old new).settled h
  | unlink path => exact (moves_sysUnlink hsb h path).settled h
  | exec path reads stack => exact (moves_sysExec hsb h path reads stack).settled h
  | close fd => exact after_mono (after_sysClose hsb h fd) fun _ _ hs => .of_loses hs
  | dup fd => exact after_mono (after_sysDup h fd) fun _ _ hs => .of_loses hs
  | fork q => exact after_mono (after_sysFork h q) fun _ _ hs => .of_loses hs
  | exit => exact after_mono (after_sysExit hsb h) fun _ _ hs => .of_loses hs
  | chdir path => cases hc
  | read fd n con => cases hc
  | write fd src => cases hc
  | pipe mem => cases hc

theorem Sound.calls (hsb : sb.Ok) (h : Sound sb s []) {cs : List (π × Call π)}
    (hcs : ∀ c ∈ cs, c.2.names = true) (hrun : Fs.calls sb cs s = some s') : Sound sb s' [] := by
  induction cs generalizing s with
  | nil =>
    cases hrun
    exact h
  | cons c cs ih =>
    obtain ⟨p, c⟩ := c
    unfold Fs.calls at hrun
    cases hr : (c.prog sb).run p s with
    | none =>
      rw [hr] at hrun
      cases hrun
    | some r =>
      rw [hr] at hrun
      have hc := Call.settled hsb h c (hcs _ List.mem_cons_self) r.1 r.2 hr
      exact ih hc.1 (fun d hd => hcs d (List.mem_cons_of_mem _ hd)) hrun

/-- A consistent image with no files open: an inode has at least the references of the processes in
it. -/
structure Image (sb : Superblock) (s : FsSt π) : Prop where
  own : Owner sb s.disk
  super : readsb s.disk = sb
  cache : Cache sb s.disk s.inode
  names : Numbered sb s.disk
  cwd : ∀ i, cwdRefs s.proc i ≤ (s.inode i).ref
  closed : ∀ f, (s.file f).ref = 0 ∧ (s.file f).type = .none

section
omit [DecidableEq π]

theorem Image.sound (h : Image sb s) : Sound sb s [] := by
  have hno : ∀ f i, ¬ (s.file f).refersTo i := fun f i hf =>
    absurd hf.1 (by rw [(h.closed f).1]; omega)
  refine ⟨h.own, h.super, h.cache, fun i => ?_, h.names, fun f _ => (h.closed f).2,
    fun f i hf => absurd hf (hno f i)⟩
  have hzero : openRefs s.file i = 0 := Finset.sum_eq_zero fun f _ => if_neg (hno f i)
  rw [hzero, List.count_nil]
  have := h.cwd i
  omega

theorem Sound.writable (h : Sound sb s held) {f : FileId} (hf : (s.file f).refersTo i)
    (hw : (s.file f).writable = true) :
    (s.inode i).d.type = T_FILE ∨ (s.inode i).d.type = T_DEV := by
  obtain ⟨hv, hdir⟩ := h.files f i hf
  have hpos := h.pos (.inr ⟨f, hf⟩)
  obtain ⟨hlt, hip, ht⟩ := h.copy hpos hv
  have hkind : Kind (s.inode i).d.type := by
    have := h.names.kind _ hlt
    change Kind (dinode sb (s.before i).disk (s.inode i).inum).type at this
    rw [hip] at this
    exact this
  rcases hkind with h0 | h1 | h2 | h3
  · exact absurd h0 ht
  · exact absurd h1 (hdir hw)
  · exact .inl h2
  · exact .inr h3

end

/-! ## Writing -/

def DirsKept (sb : Superblock) (d d' : Disk) : Prop :=
  ∀ e < sb.ninodes.toNat, (dinode sb d e).type = T_DIR → dinode sb d' e = dinode sb d e ∧
    ∀ k < entries (dinode sb d e), dirent d' (dinode sb d e) k = dirent d (dinode sb d e) k

/-- The inodes other than `e` and the bytes of their files are the same. -/
def OthersKept (sb : Superblock) (e : Nat) (d d' : Disk) : Prop :=
  ∀ j, j ≠ e → Allocated sb (dinode sb d) j → dinode sb d' j = dinode sb d j ∧
    ∀ x < (dinode sb d j).size.toNat, fileByte d' (dinode sb d j) x = fileByte d (dinode sb d j) x

section Kept

variable {d d1 d' : Disk}

omit [Fintype π] [DecidableEq π]

theorem OthersKept.refl (d : Disk) : OthersKept sb e d d := fun _ _ _ => ⟨rfl, fun _ _ => rfl⟩

theorem OthersKept.trans (h : OthersKept sb e d d1) (h' : OthersKept sb e d1 d') :
    OthersKept sb e d d' := fun j hj hA => by
  obtain ⟨h1, h2⟩ := h j hj hA
  obtain ⟨h3, h4⟩ := h' j hj ⟨hA.1, by rw [h1]; exact hA.2⟩
  rw [h1] at h3 h4
  exact ⟨h3, fun x hx => (h4 x hx).trans (h2 x hx)⟩

theorem Section.othersKept {st u : InodeSt} (hown : Owner sb st.disk) (hsec : Section sb e st u) :
    OthersKept sb e st.disk u.disk := fun j hj hA => by
  have hsame := hsec.dinodes j hA.1 hj
  refine ⟨hsame, fun x hx => ?_⟩
  have hbyte := hsec.fileByte hown hj hA hx
  rw [hsame] at hbyte
  exact hbyte

theorem OthersKept.dirsKept (h : OthersKept sb e d d') (he : (dinode sb d e).type ≠ T_DIR) :
    DirsKept sb d d' := fun j hj ht => by
  obtain ⟨h1, h2⟩ := h j (fun hje => he (hje ▸ ht)) ⟨hj, by rw [ht]; decide⟩
  refine ⟨h1, fun k hk => dirent_congr fun x hx => h2 _ ?_⟩
  unfold entries at hk
  omega

end Kept

/-- File `f` is open for writing, with the inode in slot `i`. -/
structure Ready (sb : Superblock) (f : FileId) (i : Slot) (s : FsSt π) : Prop where
  sound : Sound sb s []
  refers : (s.file f).refersTo i
  writable : (s.file f).writable = true

/-- What a write through file `f` leaves as it was: the inodes in the slots, the other open files
and the other files on the disk. -/
structure Writes (sb : Superblock) (f : FileId) (i : Slot) (s s' : FsSt π) : Prop where
  ready : Ready sb f i s'
  inums : ∀ j, (s'.inode j).inum = (s.inode j).inum
  files : ∀ g, g ≠ f → s'.file g = s.file g
  proc : s'.proc = s.proc
  others : OthersKept sb (s.inode i).inum s.disk s'.disk

section Writing

variable {f : FileId} {fd : Fd}

section
omit [DecidableEq π]

theorem Ready.goes (h : Ready sb f i s) (hg : Goes sb s keep [] s') : Ready sb f i s' := by
  refine ⟨hg.sound, ?_, ?_⟩
  · rw [hg.stays.file]
    exact h.refers
  · rw [hg.stays.file]
    exact h.writable

theorem Writes.refl (h : Ready sb f i s) : Writes sb f i s s :=
  ⟨h, fun _ => rfl, fun _ _ => rfl, rfl, .refl s.disk⟩

theorem Writes.trans (h : Writes sb f i s s1) (h' : Writes sb f i s1 s') : Writes sb f i s s' :=
  ⟨h'.ready, fun j => (h'.inums j).trans (h.inums j),
    fun g hg => (h'.files g hg).trans (h.files g hg),
    h'.proc.trans h.proc, h.others.trans (h.inums i ▸ h'.others)⟩

theorem Ready.slot (h : Ready sb f i s) {x : Inode π} (hg : Goes sb s keep [] s')
    (hi : s'.inode = update s.inode i x) (hx : x.inum = (s.inode i).inum)
    (hd : OthersKept sb (s.inode i).inum s.disk s'.disk) : Writes sb f i s s' := by
  refine ⟨h.goes hg, fun j => ?_, fun g _ => by rw [hg.stays.file], hg.stays.proc, hd⟩
  rw [hi]
  by_cases hj : j = i
  · subst hj
    rw [update_self, hx]
  · rw [update_of_ne hj]

end

theorem Ready.after_ilock (h : Ready sb f i s) :
    (ilock sb i).after p (fun _ s' => Writes sb f i s s') s := by
  intro a s' hrun
  obtain ⟨hg, -, hd⟩ := goes_ilock h.sound (.inr ⟨f, h.refers⟩) a s' hrun
  suffices hset : (ilock sb i).after p (fun _ s' => ∃ x : Inode π,
      s'.inode = update s.inode i x ∧ x.inum = (s.inode i).inum) s by
    obtain ⟨x, hi, hx⟩ := hset a s' hrun
    exact h.slot hg hi hx (hd ▸ .refl s'.disk)
  refine after_step fun _ s' hf => ?_
  split at hf
  · cases hf
  · split at hf
    · cases hf
    · split at hf
      · cases hf
        exact ⟨_, rfl, rfl⟩
      · split at hf
        · cases hf
        · cases hf
          exact ⟨_, rfl, rfl⟩

theorem Ready.after_iunlock (h : Ready sb f i s) :
    (iunlock i).after p (fun _ s' => Writes sb f i s s') s := by
  refine after_step fun _ s' hr => ?_
  split at hr
  · cases hr
  · cases hr
    exact h.slot (h.sound.relock rfl rfl rfl rfl) rfl rfl (.refl s.disk)

omit [DecidableEq π] in
theorem Ready.after_writei (hsb : sb.Ok) (h : Ready sb f i s) (off : Nat) (src : List UInt8) :
    (onInode .log i fun e => writei sb e off src).after p (fun _ s' => Writes sb f i s s') s := by
  have hguard : Guarded s [] i := .inr ⟨f, h.refers⟩
  obtain ⟨hv, hdir⟩ := h.sound.files f i h.refers
  obtain ⟨hlt, hip, ht⟩ := h.sound.copy (h.sound.pos hguard) hv
  have hspec : Sat (writei sb (s.inode i).inum off src) (s.before i) _ Fine :=
    writei_spec hsb hlt h.sound.own hip ht
  have hsat : Sat (writei sb (s.inode i).inum off src) (s.before i)
      (fun _ u => Tidy sb (s.inode i).inum (s.before i) u ∧ True) Fine := by
    refine hspec.mono fun r u hu => ⟨?_, trivial⟩
    cases r with
    | none =>
      rw [hu.2.1]
      exact Tidy.refl h.sound.own h.sound.names hlt hip
    | some m =>
      have htype : u.ip.type = (s.inode i).d.type := by
        rw [hu.2.2.fields]
        rfl
      exact ⟨hu.1, htype, fun hd => absurd (htype ▸ hd) (hdir h.writable)⟩
  intro a s' hrun
  obtain ⟨hg, -⟩ := goes_tidy (y := fun e => writei sb e off src) (Q := fun _ => True) h.sound
    hguard hv hsat a s' hrun
  obtain ⟨u, hu, rfl⟩ := after_onInode (x := fun e => writei sb e off src) hspec a s' hrun
  have hkept : OthersKept sb (s.inode i).inum (s.before i).disk u.disk :=
    hu.1.othersKept h.sound.own
  exact h.slot hg rfl rfl hkept

theorem Ready.after_writeInode (hsb : sb.Ok) (h : Ready sb f i s) (off : Nat) (src : List UInt8) :
    (writeInode sb i off src).after p (fun _ s' => Writes sb f i s s') s := by
  refine after_bind (after_step ?_)
  rintro r _ ⟨⟩
  split
  · refine after_bind (after_bind (after_mono h.after_iunlock fun _ s1 h1 => ?_))
    refine after_mono h1.ready.after_ilock fun _ s2 h2 => ?_
    exact after_ret (h1.trans h2)
  · exact after_ret (.refl h)
  · exact Ready.after_writei hsb h off src

omit [DecidableEq π] in
theorem Ready.after_advance (h : Ready sb f i s) (hfd : (s.proc p).ofile fd = some f) (n : Nat) :
    (advance fd n).after p (fun _ s' => Writes sb f i s s') s := by
  refine after_step fun _ s' hr => ?_
  rw [hfd] at hr
  cases hr
  generalize ((s.file f).off + n) % 2 ^ 32 = off
  have hy : ∀ j, ({ s.file f with off := off } : File).refersTo j → (s.file f).refersTo j :=
    fun _ hj => hj
  have hfile : (s.setFile f { s.file f with off := off }).file f = { s.file f with off := off } :=
    update_self ..
  refine ⟨⟨h.sound.setFile (f := f) rfl rfl rfl (fun _ => rfl)
    (fun j => Nat.add_le_add_left (ite_one_le (hy j)) _) (h.sound.unused f)
    fun j hj => h.sound.files f j (hy j hj), ?_, ?_⟩, fun _ => rfl,
    fun g hg => update_of_ne hg _ _, rfl, .refl s.disk⟩
  · rw [hfile]
    exact h.refers
  · rw [hfile]
    exact h.writable

section

variable (hsb : sb.Ok) (h : Ready sb f i s) (hfd : (s.proc p).ofile fd = some f)

include hsb h hfd

theorem Ready.after_writeChunk (src : List UInt8) :
    (writeChunk sb fd i src).after p (fun _ s' => Writes sb f i s s') s := by
  refine after_bind (after_step ?_)
  rintro _ _ ⟨⟩
  refine after_bind (after_mono h.after_ilock fun _ s1 h1 => ?_)
  refine after_bind (after_mono (Q := fun _ s' => s' = s1) ?_ ?_)
  · refine after_step fun off s' hr => ?_
    split at hr <;> cases hr <;> rfl
  rintro off _ rfl
  refine after_bind (after_mono (h1.ready.after_writeInode hsb off src) fun r s2 h2 => ?_)
  have h12 := h1.trans h2
  refine after_bind (after_mono (h2.ready.after_advance
    (by rw [h12.proc]; exact hfd) (r.getD 0)) fun _ s3 h3 => ?_)
  refine after_bind (after_mono h3.ready.after_iunlock fun _ s4 h4 => ?_)
  refine after_bind (after_step ?_)
  rintro _ _ ⟨⟩
  exact after_ret ((h12.trans h3).trans h4)

theorem Ready.after_writeChunks (passes : Nat) (src : List UInt8) :
    (writeChunks sb fd i passes src).after p (fun _ s' => Writes sb f i s s') s := by
  induction passes generalizing s src with
  | zero => exact after_ret (.refl h)
  | succ passes ih =>
    unfold writeChunks
    split
    · exact after_ret (.refl h)
    refine after_bind (after_mono (h.after_writeChunk hsb hfd _) fun r s1 h1 => ?_)
    cases r with
    | none => exact after_ret h1
    | some r =>
      dsimp only
      split
      · exact after_mono (ih h1.ready (by rw [h1.proc]; exact hfd) _) fun _ _ h2 => h1.trans h2
      · refine after_step ?_
        rintro _ _ ⟨⟩

theorem Ready.after_filewrite (src : List UInt8) :
    (filewrite sb fd src).after p (fun _ s' => Writes sb f i s s') s := by
  refine after_bind (after_step fun _ s0 hf => ?_)
  rw [hfd] at hf
  cases hf
  simp only [Option.map_some, h.writable, h.refers.2.1, h.refers.2.2, Bool.true_eq_false, if_false]
  exact after_bind (after_mono (h.after_writeChunks hsb hfd _ src) fun _ _ h1 =>
    after_ret h1)

end

theorem after_filewrite (hsb : sb.Ok) (h : Sound sb s []) (fd : Fd) (src : List UInt8) :
    (filewrite sb fd src).after p (fun _ s' => DirsKept sb s.disk s'.disk) s := by
  have hrefl : DirsKept sb s.disk s.disk := fun _ _ _ => ⟨rfl, fun _ _ => rfl⟩
  cases hfd : (s.proc p).ofile fd with
  | none =>
    refine after_bind (after_step fun _ s0 hf => ?_)
    rw [hfd] at hf
    cases hf
    exact after_ret hrefl
  | some f =>
    by_cases hready : (s.file f).writable = true ∧ (s.file f).type = .inode
    · have hpos : 0 < (s.file f).ref := Nat.pos_of_ne_zero fun h0 => by
        have := h.unused f h0
        rw [hready.2] at this
        cases this
      have hr : Ready sb f (s.file f).ip s := ⟨h, ⟨hpos, hready.2, rfl⟩, hready.1⟩
      have hguard := h.pos (.inr ⟨f, hr.refers⟩)
      obtain ⟨hv, hdir⟩ := h.files f _ hr.refers
      refine after_mono (hr.after_filewrite hsb hfd src) fun _ s' h' => h'.others.dirsKept ?_
      rw [← (h.cache.coherent _ hguard hv).1]
      exact hdir hready.1
    · refine after_bind (after_step fun _ s0 hf => ?_)
      rw [hfd] at hf
      cases hf
      dsimp only [Option.map_some]
      split
      · exact after_ret hrefl
      · next hw =>
        split
        · refine after_step ?_
          rintro _ _ ⟨⟩
        · exact after_ret hrefl
        · next htype => exact absurd ⟨Bool.eq_true_of_not_eq_false hw, htype⟩ hready

end Writing

/-- In every state that calls lead to from a consistent image, a file that is open for writing has
an inode of type `T_FILE` or `T_DEV`, so that `filewrite` changes no directory; and a call does not
change the type of an inode that an open file refers to. -/
theorem no_writable_directory (hsb : sb.Ok) (h : Image sb s) {cs : List (π × Call π)}
    (hcs : ∀ c ∈ cs, c.2.names = true) (hrun : calls sb cs s = some s1) :
    (∀ f i, (s1.file f).refersTo i → (s1.inode i).d = dinode sb s1.disk (s1.inode i).inum ∧
      ((s1.file f).writable = true →
        (s1.inode i).d.type = T_FILE ∨ (s1.inode i).d.type = T_DEV)) ∧
    (∀ p fd src r s', (filewrite sb fd src).run p s1 = some (r, s') → DirsKept sb s1.disk s'.disk) ∧
    ∀ p (c : Call π) s', c.names = true → (c.prog sb).run p s1 = some ((), s') →
      ∀ f i, (s1.file f).refersTo i → (s'.file f).refersTo i →
        (s'.inode i).inum = (s1.inode i).inum ∧ (s'.inode i).d.type = (s1.inode i).d.type := by
  have hs := h.sound.calls hsb hcs hrun
  refine ⟨fun f i hf => ⟨?_, hs.writable hf⟩, fun p fd src r s' hw => ?_, fun p c s' hc hr => ?_⟩
  · exact (hs.cache.coherent i (hs.pos (.inr ⟨f, hf⟩)) (hs.files f i hf).1).1
  · exact after_filewrite hsb hs fd src r s' hw
  · exact (Call.settled hsb hs c hc () s' hr).2

/-- The disk of `rootFs` with a superblock. -/
def rootImage : FsSt Unit :=
  { rootFs with
    disk := update rootFs.disk 1 ((rootFs.disk 1).store Superblock.codec 0 bigSb) }

theorem disk_rootImage {b : Nat} (h : b ≠ 1) : rootImage.disk b = rootFs.disk b :=
  update_of_ne h _ _

theorem dinode_rootImage {e : Nat} (he : e < 8) :
    dinode bigSb rootImage.disk e = if e = ROOTINO then rootDir else Dinode.zero := by
  have hne : IBLOCK e bigSb ≠ 1 :=
    Nat.ne_of_gt (Nat.lt_of_lt_of_le (by decide) (Nat.le_add_left _ _))
  rw [dinode_congr (disk_rootImage hne)]
  change dinode bigSb (putDinode bigSb (zeroedDisk 8) ROOTINO rootDir) e = _
  rw [dinode_putDinode, dinode_zeroedDisk he]

theorem empty_rootImage {e : Nat} (he : e < 8) : (dinode bigSb rootImage.disk e).Empty := by
  rw [dinode_rootImage he]
  split <;> exact ⟨rfl, rfl⟩

theorem entries_rootImage {e : Nat} (he : e < 8) : entries (dinode bigSb rootImage.disk e) = 0 := by
  rw [entries, (empty_rootImage he).1]
  rfl

theorem tree_rootImage : Tree bigSb rootImage := by
  have hown : Owner bigSb rootImage.disk := by
    refine owner_of_empty (fun b hb => ?_) fun j hj => empty_rootImage hj
    have hne : BBLOCK b bigSb ≠ 1 :=
      Nat.ne_of_gt (Nat.lt_of_lt_of_le (by decide) (Nat.le_add_left _ _))
    rw [bit_congr (disk_rootImage hne)]
    exact bit_freshDisk (by decide) hb
  refine tree_of_owner (d := rootImage.disk) hown
    (by rw [dinode_rootImage (by decide)]; decide) fun e he => ?_
  rw [entries_rootImage he, (empty_rootImage he).1]
  exact ⟨rfl, fun k hk => absurd hk (Nat.not_lt_zero k)⟩

theorem image_rootImage : Image bigSb rootImage := by
  refine ⟨tree_rootImage.own, ?_, tree_rootImage.cache,
    ⟨fun e he => ?_, fun e he _ k hk => ?_⟩, fun i => ?_, fun _ => ⟨rfl, rfl⟩⟩
  · have hsuper : rootImage.disk 1 = (rootFs.disk 1).store Superblock.codec 0 bigSb := by
      simp only [rootImage, update_self]
    rw [readsb, hsuper]
    exact Bytes.load_store_same _ _ _ (by decide)
  · rw [dinode_rootImage he]
    split
    · exact .inr (.inl rfl)
    · exact .inl rfl
  · rw [entries_rootImage he] at hk
    exact absurd hk (Nat.not_lt_zero k)
  · unfold cwdRefs
    rw [Fintype.sum_unique]
    by_cases hi : i = 0
    · subst hi
      decide
    · have hne : (rootImage.proc default).cwd ≠ some i := fun he => hi (Option.some.inj he).symm
      rw [if_neg hne]
      exact Nat.zero_le _

/-- A device is open for reading and writing, and its name is gone. -/
theorem no_writable_directory_device : ∃ s', calls bigSb
      [((), .mknod (some [slash, 99]) 1 1), ((), .open (some [slash, 99]) O_RDWR),
        ((), .unlink (some [slash, 99])), ((), .mkdir (some [slash, 100]))] rootImage = some s' ∧
    (s'.file 0).refersTo 1 ∧ (s'.file 0).writable = true ∧
    ((s'.inode 1).d.type = T_FILE ∨ (s'.inode 1).d.type = T_DEV) := by
  have hrun : ((calls bigSb
      [((), .mknod (some [slash, 99]) 1 1), ((), .open (some [slash, 99]) O_RDWR),
        ((), .unlink (some [slash, 99])), ((), .mkdir (some [slash, 100]))] rootImage).map fun s =>
      decide ((s.file 0).refersTo 1 ∧ (s.file 0).writable = true)) = some true := by
    decide +kernel
  obtain ⟨s', hs, hopen⟩ := Option.map_eq_some_iff.1 hrun
  obtain ⟨hf, hw⟩ := of_decide_eq_true hopen
  have hmain := no_writable_directory ok_bigSb image_rootImage (by decide) hs
  exact ⟨s', hs, hf, hw, (hmain.1 0 1 hf).2 hw⟩

end Xv6.Fs
