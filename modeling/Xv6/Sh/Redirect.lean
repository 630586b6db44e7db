import Xv6.Fs.Filewrite
import Xv6.Fs.Open
import Xv6.Fs.Writable
import Xv6.Sh.Parse

/-!
# Output redirection

`>` and `>>` open the file with the same mode. An existing file keeps its bytes and the offset of
the new descriptor is 0; a new file is empty. What the command writes then replaces the bytes from
the beginning of the file on, and the bytes behind it stay.
-/

namespace Xv6.Sh

open Lib Fs
open Function (update update_of_ne update_self)
open Prog (after_bind after_mono after_of_run after_ret after_step ends_after)

variable {π : Type} [DecidableEq π] {sb : Superblock} {p : π} {s s0 s1 s' : FsSt π} {i j dp : Slot}
  {c : Slot} {path : Path} {f : FileId} {fd : Fd} {e : Nat} {name : Name}

def writeAll (sb : Superblock) (fd : Fd) : List (List UInt8) → FsProg π Bool
  | [] => return true
  | out :: outs => do
    let r ← filewrite sb fd out
    if r = some out.length then writeAll sb fd outs else return false

/-- `runcmd` for a redirection, and a command that writes through descriptor 1. -/
def redirect (sb : Superblock) (r : Redir Path) (outs : List (List UInt8)) :
    FsProg π (Option Bool) := do
  sysClose sb (Fin.ofNat NOFILE r.fd)
  match ← sysOpen sb (some r.file) r.mode with
  | none => return none
  | some _ => do
    let all ← writeAll sb 1 outs
    return some all

/-- The bytes of the file that a path names, none if there is no such file. -/
def previous (sb : Superblock) (s : FsSt π) (c : Slot) (path : Path) : List UInt8 :=
  match walkTo sb s.disk true (startInum s c path) (splitPath path) with
  | none => []
  | some (d, name) =>
    match find s.disk (dinode sb s.disk d) name with
    | none => []
    | some (e, _) => contents s.disk (dinode sb s.disk e)

/-! ## A new file is empty -/

section Frames

structure Others (i : Slot) (s s' : FsSt π) : Prop where
  inode : ∀ j, j ≠ i → s'.inode j = s.inode j
  proc : s'.proc = s.proc

section
omit [DecidableEq π]

theorem Others.trans (h : Others i s s1) (h' : Others i s1 s') : Others i s s' :=
  ⟨fun j hj => (h'.inode j hj).trans (h.inode j hj), h'.proc.trans h.proc⟩

theorem others_set {x : Inode π} (hi : s'.inode = update s.inode i x)
    (hp : s'.proc = s.proc) : Others i s s' :=
  ⟨fun j hj => by rw [hi, update_of_ne hj], hp⟩

theorem after_onInode_others {α : Type} {l : Lab} {x : Nat → FsM α} :
    (onInode l i x).after p (fun _ s' => Others i s s') s := by
  refine after_step fun a s' hf => ?_
  split at hf
  · cases hf
    exact others_set rfl rfl
  · cases hf

end

theorem after_iputAcquire_others : (iputAcquire i).after p (fun _ s' => Others i s s') s := by
  refine after_step fun unlinked s' hf => ?_
  split at hf
  · cases hf
  · cases hf
    exact others_set rfl rfl

theorem after_iputDecide_others {unlinked : Bool} :
    (iputDecide sb i unlinked).after p (fun _ s' => Others i s s') s := by
  unfold iputDecide
  split
  · refine after_bind (after_step fun r s1 hf => ?_)
    cases hf
    split
    · refine after_step fun _ s2 hf => ?_
      split at hf
      · cases hf
        exact others_set rfl rfl
      · cases hf
    · exact after_ret ⟨fun _ _ => rfl, rfl⟩
  · exact after_ret ⟨fun _ _ => rfl, rfl⟩

theorem after_iput_others : (iput sb i).after p (fun _ s' => Others i s s') s := by
  refine after_bind (after_mono after_iputAcquire_others fun unlinked s1 h1 => ?_)
  refine after_bind (after_mono after_iputDecide_others fun _ s2 h2 => ?_)
  refine after_bind (after_step fun _ s3 hf => ?_)
  have h3 : Others i s2 s3 := by
    cases hf
    exact others_set rfl rfl
  refine after_step fun _ s4 hf => ?_
  have h4 : Others i s3 s4 := by
    cases hf
    exact others_set rfl rfl
  exact ((h1.trans h2).trans h3).trans h4

theorem after_iunlockput_others : (iunlockput sb i).after p (fun _ s' => Others i s s') s := by
  refine after_bind (after_step fun _ s1 hf => ?_)
  have h1 : Others i s s1 := by
    split at hf
    · cases hf
    · cases hf
      exact others_set rfl rfl
  exact after_mono after_iput_others fun _ s2 h2 => h1.trans h2

theorem after_sysClose_closed :
    (sysClose sb fd).after p (fun _ s' => (s'.proc p).ofile fd = none) s := by
  refine after_bind (after_mono (Q := fun _ s1 => (s1.proc p).ofile fd = none) ?_ ?_)
  · refine after_step fun put s1 hf => ?_
    dsimp only at hf
    split at hf
    · next hnone =>
      cases hf
      exact hnone
    · split at hf
      · cases hf
      · split at hf
        · cases hf
          simp [FsSt.setProc, FsSt.setFile]
        · split at hf <;> cases hf <;> simp [FsSt.setProc, FsSt.setFile, FsSt.setNote]
  · intro put s1 h1
    unfold putClosed
    split
    · exact after_ret h1
    · refine after_bind (after_step fun _ s2 hf => ?_)
      cases hf
      refine after_bind (after_mono after_iput_others fun _ s2 h2 => ?_)
      refine after_step fun _ s3 hf => ?_
      cases hf
      rw [h2.proc]
      exact h1

theorem after_dirlink_others :
    (dirlink sb dp name e).after p (fun ok s' => ok = true → Others dp s s') s := by
  refine after_bind (after_bind (after_step fun r s1 hf => ?_))
  split at hf
  · cases hf
    refine after_bind fun k s2 _ => after_ret ?_
    exact after_bind fun _ _ _ => after_ret nofun
  · cases hf
    refine after_ret (after_bind (after_mono after_onInode_others fun _ s2 h2 => ?_))
    exact after_ret fun _ => ⟨h2.inode, h2.proc⟩
  · cases hf

end Frames

variable [Fintype π]

theorem after_iallocFrom_size (hsb : sb.Ok) {type : BitVec 16} (hkind : Kind type)
    {held : List Slot}
    (es : List Nat) (hes : ∀ e ∈ es, 0 < e ∧ e < sb.ninodes.toNat) (h : Sound sb s held) :
    (iallocFrom sb dp type es).after p
      (fun i s' => (dinode sb s'.disk (s'.inode i).inum).size = 0) s := by
  induction es generalizing s with
  | nil =>
    refine after_step fun _ s' hf => ?_
    cases hf
  | cons e es ih =>
    obtain ⟨hpos, hlt⟩ := hes e List.mem_cons_self
    refine after_bind fun free s1 hrun => ?_
    have h1 := (moves_iprobe hsb h hkind hlt free s1 hrun).1
    cases free with
    | false => exact ih (fun d hd => hes d (List.mem_cons_of_mem e hd)) h1.sound
    | true =>
      refine after_mono (goes_iget h1.sound hpos hlt) ?_
      rintro i s2 ⟨-, hinum, hdisk⟩
      rw [hinum, hdisk]
      -- the inode has just been cleared
      have hprobe : (iprobe sb dp type e).after p
          (fun free s' => free = true → (dinode sb s'.disk e).size = 0) s := by
        refine after_step fun b s' hf => ?_
        split at hf
        · cases hf
          rw [dinode_putDinode, if_pos rfl]
          exact fun _ => rfl
        · cases hf
          exact nofun
      exact hprobe true s1 hrun rfl

omit [DecidableEq π] [Fintype π] in
theorem after_setFields_size {g : Dinode → Dinode} (hg : ∀ d, (g d).size = d.size) :
    (setFields sb i g).after p (fun _ s' => (s'.inode i).d.size = (s.inode i).d.size) s := by
  refine after_step fun _ s' hf => ?_
  cases hf
  simp [FsSt.setInode, hg]

theorem after_createNew_size (hsb : sb.Ok) (h : Sound sb s [dp]) (hv : Typed s dp T_DIR) :
    (createNew sb dp name T_FILE 0 0).after p
      (fun r s' => ∀ ip, r = some ip → (s'.inode ip).d.size = 0) s := by
  have hkind : Kind T_FILE := .inr (.inr (.inl rfl))
  refine after_bind fun ip s1 hrun1 => ?_
  obtain ⟨h1, ht1⟩ := moves_ialloc hsb hkind h ip s1 hrun1
  have hsize : (dinode sb s1.disk (s1.inode ip).inum).size = 0 := by
    refine after_iallocFrom_size hsb hkind _ (fun e he => ?_) h ip s1 hrun1
    obtain ⟨k, hk, rfl⟩ := List.mem_map.1 he
    rw [List.mem_range] at hk
    omega
  have hip : ip ∈ [ip, dp] := List.mem_cons_self
  refine after_bind fun _ s2 hrun2 => ?_
  obtain ⟨h2, hread, hdisk⟩ := moves_ilock h1.sound hip _ s2 hrun2
  have hd : (s2.inode ip).d = dinode sb s1.disk (s1.inode ip).inum := by
    rw [(h2.sound.cache.coherent ip (h2.sound.pos (.inl hip)) hread).1, hdisk,
      h2.stays.inum ip (.inl hip)]
  -- the directory is in another slot
  have hne : ip ≠ dp := by
    rintro rfl
    have hdir := (h2.typed hip (h1.typed List.mem_cons_self hv)).2
    rw [hd, ht1] at hdir
    exact absurd hdir (by decide)
  refine after_bind (after_mono (after_setFields_size fun _ => rfl) fun _ s3 h3 => ?_)
  refine after_bind (after_step fun e s4 hf => ?_)
  cases hf
  refine after_bind (after_ret ?_)
  refine after_bind (after_mono after_dirlink_others fun ok s5 h5 => ?_)
  split
  · next hok =>
    refine after_bind (after_mono after_iunlockput_others fun _ s6 h6 => ?_)
    refine after_ret ?_
    rintro _ ⟨⟩
    rw [h6.inode ip hne, (h5 hok).inode ip hne, h3, hd, hsize]
  · refine after_step fun _ s' hf => ?_
    cases hf

theorem after_create_size (hsb : sb.Ok) (ht : Tree sb s) (h : Sound sb s [])
    (hcwd : (s.proc p).cwd = some c) (hc : 0 < (s.inode c).ref)
    (hno : ∀ d name, walkTo sb s.disk true (startInum s c path) (splitPath path) = some (d, name) →
      find s.disk (dinode sb s.disk d) name = none) :
    (create sb path T_FILE 0 0).after p
      (fun r s' => ∀ ip, r = some ip → (s'.inode ip).d.size = 0) s := by
  refine after_bind fun r s1 hrun1 => ?_
  have harr := ends_after (ends_namex hsb ht true hcwd hc) r s1 hrun1
  obtain ⟨h1, -⟩ := moves_namex hsb h true path r s1 hrun1
  cases r with
  | none => exact after_ret nofun
  | some q =>
    obtain ⟨dp, name⟩ := q
    obtain ⟨hw1, hpath⟩ := harr
    have htarget := walkTo_target ht (ht.start hc) hpath
    have hdir := walkTo_dir hpath
    refine after_bind fun _ s2 hrun2 => ?_
    obtain ⟨hw2, hloaded, hinum⟩ := ends_after (E := False)
      (ends_ilock hw1 List.mem_cons_self htarget.type) _ s2 hrun2
    obtain ⟨h2, hread, -⟩ := moves_ilock h1.sound List.mem_cons_self _ s2 hrun2
    have htype : (s2.inode dp).d.type = T_DIR := by
      rw [hloaded, hinum, hw2.disk, hdir]
    refine after_bind fun r s3 hrun3 => ?_
    obtain ⟨-, hr⟩ := ends_after (ends_dirlookup hsb ht hw2 hloaded htype) r s3 hrun3
    obtain ⟨h3, -⟩ := moves_dirlookup hsb h2.sound List.mem_cons_self hread r s3 hrun3
    cases r with
    | none =>
      exact after_createNew_size hsb h3.sound (h3.typed List.mem_cons_self ⟨hread, htype⟩)
    | some q =>
      rw [hinum] at hr
      rw [hno _ _ hpath] at hr
      exact absurd hr.2 nofun

/-! ## The descriptor -/

omit [Fintype π] in
theorem after_openInode_ok {omode : BitVec 32} (hfiles : FilesOk s) :
    (openInode sb i omode).after p (fun r s' => ∀ fd, r = some fd → ∃ f,
      ((List.finRange NOFILE).find? fun fd => ((s.proc p).ofile fd).isNone) = some fd ∧
      (s.file f).ref = 0 ∧
      s'.file = update s.file f ⟨.inode, 1, omode &&& O_WRONLY = 0,
        omode &&& O_WRONLY ≠ 0 ∨ omode &&& O_RDWR ≠ 0, i, 0⟩ ∧
      s'.proc = update s.proc p { s.proc p with ofile := update (s.proc p).ofile fd (some f) } ∧
      s'.disk = s.disk ∧ s'.inode = update s.inode i { s.inode i with lock := none }) s := by
  rcases hfiles.run_openFile p with ⟨-, hrun⟩ | ⟨f, fd, href, hfd, hrun⟩ <;>
    refine after_bind (after_of_run hrun ?_)
  · exact after_bind fun _ _ _ => after_bind fun _ _ _ => after_bind fun _ _ _ => after_ret nofun
  · refine after_bind (after_step fun _ s2 hf => ?_)
    split at hf
    · cases hf
    cases hf
    refine after_bind (after_step fun _ s3 hf => ?_)
    cases hf
    refine after_bind (after_step fun _ s4 hf => ?_)
    cases hf
    refine after_ret ?_
    rintro _ ⟨⟩
    refine ⟨f, hfd, href, ?_, rfl, rfl, rfl⟩
    simp [FsSt.setInode, FsSt.setNote, FsSt.setFile, FsSt.setProc]

/-- What an open for output comes to: the descriptor's file is the one that the path names, with the
bytes that it had, or a new one. -/
structure Output (sb : Superblock) (s : FsSt π) (c : Slot) (path : Path) (f : FileId) (i : Slot)
    (s' : FsSt π) : Prop where
  regular : Regular sb f i s'
  off : (s'.file f).off = 0
  data : data sb i s' = previous sb s c path
  named : ∀ d name e off, walkTo sb s.disk true (startInum s c path) (splitPath path) =
    some (d, name) →
    find s.disk (dinode sb s.disk d) name = some (e, off) → (s'.inode i).inum = e

theorem after_create_previous (hsb : sb.Ok) (ht : Tree sb s) (h : Sound sb s [])
    (hcwd : (s.proc p).cwd = some c) (hc : 0 < (s.inode c).ref) :
    (create sb path T_FILE 0 0).after p (fun r s' => ∀ ip, r = some ip →
      contents s'.disk (dinode sb s'.disk (s'.inode ip).inum) = previous sb s c path ∧
      ∀ d name e off, walkTo sb s.disk true (startInum s c path) (splitPath path) = some (d, name) →
        find s.disk (dinode sb s.disk d) name = some (e, off) → (s'.inode ip).inum = e) s := by
  rintro r s' hrun ip rfl
  obtain ⟨h', htyped⟩ := moves_create hsb h (.inr (.inr (.inl rfl))) path _ s' hrun
  by_cases hno : ∀ d name,
      walkTo sb s.disk true (startInum s c path) (splitPath path) = some (d, name) →
      find s.disk (dinode sb s.disk d) name = none
  · have hsize := after_create_size hsb ht h hcwd hc hno _ s' hrun ip rfl
    have hpos := h'.sound.pos (.inl (List.mem_append_left _ List.mem_cons_self))
    rw [(h'.sound.cache.coherent ip hpos (htyped ip rfl).1).1] at hsize
    have hnil : contents s'.disk (dinode sb s'.disk (s'.inode ip).inum) = [] := by
      rw [← List.length_eq_zero_iff, length_contents, hsize]
      rfl
    refine ⟨?_, fun d name e off hpath hf => ?_⟩
    · rw [hnil, previous]
      split
      · rfl
      · next hpath =>
        rw [hno _ _ hpath]
    · rw [hno d name hpath] at hf
      cases hf
  · push Not at hno
    obtain ⟨d0, name0, hpath0, hf0⟩ := hno
    have hw := after_create hsb ht hcwd hc (fun d name hpath hf => hf0 (by
      rw [hpath0] at hpath
      cases hpath
      exact hf)) _ s' hrun
    obtain ⟨hw, -, d, name, off, hpath, hf⟩ := hw
    refine ⟨?_, fun d' name' e off' hpath' hf' => ?_⟩
    · simp only [previous, hpath, hf, hw.disk]
    · rw [hpath] at hpath'
      cases hpath'
      rw [hf] at hf'
      cases hf'
      rfl

theorem after_sysOpen_output (hsb : sb.Ok) (ht : Tree sb s) (h : Sound sb s [])
    (hcwd : (s.proc p).cwd = some c) (hc : 0 < (s.inode c).ref) {omode : BitVec 32}
    (hcreate : omode &&& O_CREATE ≠ 0) (hwrite : omode &&& O_WRONLY ≠ 0 ∨ omode &&& O_RDWR ≠ 0) :
    (sysOpen sb (some path) omode).after p (fun r s' => ∀ fd, r = some fd →
      ((List.finRange NOFILE).find? fun fd => ((s.proc p).ofile fd).isNone) = some fd ∧
      ∃ f i, (s.file f).ref = 0 ∧ Output sb s c path f i s' ∧ Ready sb f i s' ∧
        (∀ g, g ≠ f → s'.file g = s.file g) ∧
        s'.proc =
          update s.proc p { s.proc p with ofile := update (s.proc p).ofile fd (some f) }) s := by
  intro r s' hrun
  have hsound := (after_open hsb h (some path) omode r s' hrun).1
  revert hsound
  revert r s'
  refine after_bind (after_step ?_)
  rintro _ _ ⟨⟩
  rw [if_pos hcreate]
  refine after_bind fun r s1 hrun => ?_
  obtain ⟨h1, htyped⟩ := moves_create hsb h (.inr (.inr (.inl rfl))) path r s1 hrun
  cases r with
  | none =>
    exact after_bind fun _ _ _ => after_ret nofun
  | some ip =>
    obtain ⟨hdata, hnamed⟩ := after_create_previous hsb ht h hcwd hc _ s1 hrun ip rfl
    obtain ⟨hread, htype⟩ := htyped ip rfl
    have hpos := h1.sound.pos (.inl (List.mem_append_left _ List.mem_cons_self))
    have hd := (h1.sound.cache.coherent ip hpos hread).1
    refine after_mono (after_openInode_ok h1.sound.unused) fun r s' hr hsound fd hfd => ?_
    obtain ⟨f, hfirst, hfree, hfile, hproc, hdisk, hinode⟩ := hr fd hfd
    rw [h1.stays.proc] at hfirst hproc
    rw [h1.stays.file] at hfree hfile
    have hf : s'.file f = _ := congrFun hfile f
    rw [update_self] at hf
    have hip : s'.inode ip = _ := congrFun hinode ip
    rw [update_self] at hip
    have hw : (s'.file f).writable = true := by
      rw [hf]
      exact decide_eq_true hwrite
    refine ⟨hfirst, f, ip, hfree, ⟨⟨?_, ?_, hw, ?_, ?_, ?_, fun _ => ?_, ?_⟩, ?_, ?_, ?_⟩,
      ⟨hsound, ?_, hw⟩, fun g hg => ?_, hproc⟩
    · rw [hdisk]
      exact h1.sound.own
    · rw [hf]
    · rw [hf]
    · rw [hf]
      exact Nat.two_pow_pos 32
    · rw [hip]
      exact (h1.sound.cache.slots ip hpos).2.2
    · rw [hip, hdisk]
      exact hd
    · rw [hdisk, hip, ← hd, htype]
    · rw [hf]
    · rw [data, onDisk, hdisk, hip, hdata]
    · rw [hip]
      exact hnamed
    · rw [hf]
      exact ⟨Nat.one_pos, rfl, rfl⟩
    · rw [hfile, update_of_ne hg]

/-! ## The writes -/

section Writes

omit [Fintype π]

theorem after_writeChunks_regular (hsb : sb.Ok) {passes : Nat} {src : List UInt8}
    (hr : Regular sb f i s) (hfd : (s.proc p).ofile fd = some f) :
    (writeChunks sb fd i passes src).after p (fun _ s' => Regular sb f i s') s := by
  induction passes generalizing src s with
  | zero => exact after_ret hr
  | succ passes ih =>
    unfold writeChunks
    split
    · exact after_ret hr
    · refine after_bind (after_mono (after_writeChunk hsb hr hfd) fun r s1 hc => ?_)
      cases r with
      | none => exact after_ret hc.regular
      | some n =>
        dsimp only
        split
        · exact ih hc.regular (by rw [hc.proc]; exact hfd)
        · refine after_step fun _ s' hf => ?_
          cases hf

theorem after_filewrite (hsb : sb.Ok) {src : List UInt8} (hr : Regular sb f i s)
    (hfd : (s.proc p).ofile fd = some f) :
    (filewrite sb fd src).after p (fun r s' => Regular sb f i s' ∧
      ((s.file f).off ≤ (data sb i s).length ∧ (s.file f).off + src.length ≤ MAXFILE * BSIZE →
        r = some src.length) ∧
      (r = some src.length → (s'.file f).off = (s.file f).off + src.length ∧
        data sb i s' = splice (data sb i s) (s.file f).off src)) s := by
  refine after_mono (after_filewrite_of hr hfd fun all s1 hrun =>
    And.intro (after_writeChunks hsb hr hfd le_rfl all s1 hrun)
      (after_writeChunks_regular hsb hr hfd all s1 hrun)) ?_
  rintro _ s1 ⟨all, ⟨⟨m, hl⟩, hreg⟩, rfl⟩
  refine ⟨hreg, fun hfits => ?_, fun hans => ?_⟩
  · rw [if_pos (hl.fits.2 (.inr hfits))]
  · cases all with
    | false => cases hans
    | true =>
      have hm := hl.complete.1 rfl
      have hdata := hl.data
      rw [hm, List.take_length] at hdata
      exact ⟨by rw [hl.off, hm], hdata⟩

end Writes

theorem after_writeAll (hsb : sb.Ok) {outs : List (List UInt8)} (hr : Regular sb f i s)
    (hw : Ready sb f i s) (hfd : (s.proc p).ofile fd = some f)
    (hoff : (s.file f).off ≤ (data sb i s).length) :
    (writeAll sb fd outs).after p (fun all s' => all = true →
      Writes sb f i s s' ∧ data sb i s' = splice (data sb i s) (s.file f).off outs.flatten) s := by
  induction outs generalizing s with
  | nil => exact after_ret fun _ => ⟨.refl hw, splice_nil.symm⟩
  | cons out outs ih =>
    refine after_bind fun r s1 hrun => ?_
    obtain ⟨hr1, -, hdone⟩ := after_filewrite hsb hr hfd r s1 hrun
    have h1 := hw.after_filewrite hsb hfd out r s1 hrun
    split
    · next hans =>
      obtain ⟨hoff1, hdata1⟩ := hdone hans
      have hlen :
        (data sb i s1).length = max (data sb i s).length ((s.file f).off + out.length) := by
        rw [hdata1, length_splice hoff]
      refine after_mono (ih hr1 h1.ready (by rw [h1.proc]; exact hfd) (by omega)) ?_
      intro all s' h' hall
      obtain ⟨h2, hdata2⟩ := h' hall
      refine ⟨h1.trans h2, ?_⟩
      rw [hdata2, hdata1, hoff1, splice_splice hoff, List.flatten_cons]
    · exact after_ret nofun

/-! ## Redirection -/

theorem splice_zero (l src : List UInt8) : splice l 0 src = src ++ l.drop src.length := by
  unfold splice
  rw [List.take_zero, List.nil_append, Nat.zero_add]

theorem overwrite_eq {o l : List UInt8} : o ++ l.drop o.length = o ↔ l.length ≤ o.length := by
  rw [← List.drop_eq_nil_iff]
  exact List.append_right_eq_self

theorem overwrite_eq_append {o l : List UInt8} : o ++ l.drop o.length = l ++ o ↔ l = [] ∨
    o = [] := by
  constructor
  · intro h
    have hlen := congrArg List.length h
    rw [List.length_append, List.length_append, List.length_drop] at hlen
    rw [← List.length_eq_zero_iff, ← List.length_eq_zero_iff]
    omega
  · rintro (rfl | rfl)
    · simp
    · simp

/-- A command whose writes through descriptor 1 are all accepted, with the output redirected to a
file. The file has the output in the place of its first bytes, and its other bytes stay. So `>`
leaves the output alone if and only if the file was no longer than that, and `>>` appends it if and
only if one of the two is empty. -/
theorem redirect_contents (hsb : sb.Ok) {op : Tok} {r : Redir Path} (hr : r ∈ redirOf op path)
    (hop : op = .gt ∨ op = .app) (hclose : (sysClose sb 1).run p s0 = some ((), s)) (ht : Tree sb s)
    (hs : Sound sb s []) (hcwd : (s.proc p).cwd = some c) (hc : 0 < (s.inode c).ref)
    (hin : (s.proc p).ofile 0 ≠ none) {outs : List (List UInt8)}
    (hrun : (redirect sb r outs).run p s0 = some (some true, s')) :
    ∃ f i, (s'.proc p).ofile 1 = some f ∧ (s'.file f).ip = i ∧
      (∀ d name e off, walkTo sb s.disk true (startInum s c path) (splitPath path) =
        some (d, name) →
        find s.disk (dinode sb s.disk d) name = some (e, off) → (s'.inode i).inum = e) ∧
      data sb i s' = outs.flatten ++ (previous sb s c path).drop outs.flatten.length ∧
      (op = .gt → (data sb i s' = outs.flatten ↔
        (previous sb s c path).length ≤ outs.flatten.length)) ∧
      (op = .app → (data sb i s' = previous sb s c path ++ outs.flatten ↔
        previous sb s c path = [] ∨ outs.flatten = [])) := by
  -- the redirection is one for output
  obtain ⟨rfl⟩ : r = ⟨path, O_WRONLY ||| O_CREATE, 1⟩ := by
    rcases hop with rfl | rfl <;> exact List.mem_singleton.1 hr
  have hout := after_sysClose_closed () s hclose
  have hfirst : ((List.finRange NOFILE).find? fun fd => ((s.proc p).ofile fd).isNone) = some 1 := by
    have hlist : List.finRange NOFILE = 0 :: 1 :: (List.finRange NOFILE).drop 2 := by decide
    have h0 : ((s.proc p).ofile 0).isNone = false := by
      rw [← Option.not_isSome, Bool.not_eq_false', Option.isSome_iff_ne_none]
      exact hin
    rw [hlist, List.find?_cons_of_neg (by rw [h0]; nofun),
      List.find?_cons_of_pos (by rw [hout]; rfl)]
  unfold redirect at hrun
  replace hrun := (Prog.run_bind (x := sysClose sb 1) hclose).symm.trans hrun
  have hafter : (do
      match ← sysOpen sb (some path) (O_WRONLY ||| O_CREATE) with
      | none => return none
      | some _ => do
        let all ← writeAll sb 1 outs
        return some all : FsProg π (Option Bool)).after p (fun r s' => r = some true →
      ∃ f i, (s'.proc p).ofile 1 = some f ∧ (s'.file f).ip = i ∧
        (∀ d name e off, walkTo sb s.disk true (startInum s c path) (splitPath path) =
          some (d, name) →
          find s.disk (dinode sb s.disk d) name = some (e, off) → (s'.inode i).inum = e) ∧
        data sb i s' = splice (previous sb s c path) 0 outs.flatten) s := by
    refine after_bind (after_mono (after_sysOpen_output hsb ht hs hcwd hc (by decide)
      (.inl (by decide))) fun r s1 h1 => ?_)
    cases r with
    | none => exact after_ret nofun
    | some fd =>
      obtain ⟨hfd, f, i, -, ho, hready, -, hproc⟩ := h1 fd rfl
      obtain rfl : 1 = fd := Option.some.inj (hfirst.symm.trans hfd)
      have hofile : (s1.proc p).ofile 1 = some f := by
        simp only [hproc, update_self]
      refine after_bind (after_mono (after_writeAll hsb ho.regular hready hofile
        (by rw [ho.off]; exact Nat.zero_le _)) fun all s2 h2 => ?_)
      refine after_ret fun hall => ?_
      obtain ⟨hw, hdata⟩ := h2 (Option.some.inj hall)
      refine ⟨f, i,
        by rw [hw.proc]; exact hofile, hw.ready.refers.2.2, fun d name e off hpath hf => ?_, ?_⟩
      · rw [hw.inums i]
        exact ho.named d name e off hpath hf
      · rw [hdata, ho.data, ho.off]
  obtain ⟨f, i, hofile, hip, hnamed, hdata⟩ := hafter _ s' hrun rfl
  rw [splice_zero] at hdata
  refine ⟨f, i, hofile, hip, hnamed, hdata, fun _ => ?_, fun _ => ?_⟩
  · rw [hdata, overwrite_eq]
  · rw [hdata, overwrite_eq_append]

/-! ## A small disk -/

def superBlock : Block := Bytes.store Superblock.codec Bytes.zero 0 bigSb

/-- The empty root directory on a disk with a superblock, and a process that has descriptor 0
open. -/
def shFs : FsSt Unit :=
  { rootFs with
    disk := update rootFs.disk 1 superBlock
    file := fun f => if f = 0 then ⟨.pipe, 1, true, false, 0, 0⟩ else ⟨.none, 0, false, false, 0, 0⟩
    proc := fun _ => ⟨true, some 0, fun fd => if fd = 0 then some 0 else none⟩ }

theorem disk_shFs : shFs.disk = rootImage.disk := rfl

theorem tree_shFs : Tree bigSb shFs := tree_rootImage.congr disk_shFs rfl

theorem sound_shFs : Sound bigSb shFs [] := by
  have hno : ∀ f i, ¬ (shFs.file f).refersTo i := by
    intro f i h
    have := h.2.1
    unfold shFs at this
    dsimp only at this
    split at this <;> cases this
  refine ⟨tree_shFs.own, image_rootImage.super, tree_shFs.cache, fun i => ?_,
    image_rootImage.names, fun f hf => ?_, fun f i h => absurd h (hno f i)⟩
  · have hopen : openRefs shFs.file i = 0 := Finset.sum_eq_zero fun f _ => if_neg (hno f i)
    rw [hopen, List.count_nil, Nat.zero_add]
    exact image_rootImage.cwd i
  · unfold shFs at hf ⊢
    dsimp only at hf ⊢
    split at hf
    · cases hf
    · next h0 => rw [if_neg h0]

def shown (s : FsSt Unit) : Option (List UInt8) :=
  ((s.proc ()).ofile 1).map fun f => data bigSb (s.file f).ip s

/-- The new file `b`, written in two pieces. -/
theorem redirect_contents_new :
    ∃ s', (redirect bigSb ⟨[98], O_WRONLY ||| O_CREATE, 1⟩ [[1], [2, 3]]).run ()
      shFs = some (some true, s') ∧ shown s' = some [1, 2, 3] := by
  have hclose : (sysClose bigSb 1).run () shFs = some ((), shFs) := rfl
  have hrun : (((redirect bigSb ⟨[98], O_WRONLY ||| O_CREATE, 1⟩ [[1], [2, 3]]).run () shFs).map
      fun r => r.1) = some (some true) := by
    decide +kernel
  obtain ⟨⟨a, s'⟩, hs', rfl⟩ := Option.map_eq_some_iff.1 hrun
  have hr : (⟨[98], O_WRONLY ||| O_CREATE, 1⟩ : Redir Path) ∈ redirOf .gt [98] :=
    List.mem_singleton.2 rfl
  obtain ⟨f, i, hofile, rfl, -, hdata, -⟩ := redirect_contents (c := 0) ok_bigSb hr
    (.inl rfl) hclose
    tree_shFs sound_shFs rfl (by decide) nofun hs'
  refine ⟨s', hs', ?_⟩
  have hprev : previous bigSb shFs 0 [98] = [] := by decide +kernel
  rw [hprev] at hdata
  rw [shown, hofile, Option.map_some, hdata]
  rfl

/-- The file `b` has the bytes 1, 2, 3 when the output 9 is redirected to it: then it has 9, 2, 3,
after `>` and after `>>`. -/
theorem redirect_overwrites : ∃ r s s',
    redirOf .gt ([98] : Path) = [r] ∧ redirOf .app ([98] : Path) = [r] ∧
    (redirect bigSb r [[1, 2, 3]]).run () shFs = some (some true, s) ∧ shown s = some [1, 2, 3] ∧
    (redirect bigSb r [[9]]).run () s = some (some true, s') ∧ shown s' = some [9, 2, 3] := by
  have hrun :
    (((redirect bigSb ⟨[98], O_WRONLY ||| O_CREATE, 1⟩ [[1, 2, 3]]).run () shFs).bind fun q =>
      ((redirect bigSb ⟨[98], O_WRONLY ||| O_CREATE, 1⟩ [[9]]).run () q.2).map fun q' =>
        (q.1, shown q.2, q'.1, shown q'.2)) =
      some (some true, some [1, 2, 3], some true, some [9, 2, 3]) := by
    decide +kernel
  obtain ⟨⟨a, s⟩, hs, hrest⟩ := Option.bind_eq_some_iff.1 hrun
  obtain ⟨⟨b, s'⟩, hs', hshown⟩ := Option.map_eq_some_iff.1 hrest
  simp only [Prod.mk.injEq] at hshown
  obtain ⟨rfl, h1, rfl, h2⟩ := hshown
  exact ⟨_, s, s', rfl, rfl, hs, h1, hs', h2⟩

end Xv6.Sh
