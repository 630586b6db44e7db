import Mathlib.Algebra.BigOperators.Ring.Finset
import Xv6.Fs.Demand
import Xv6.Fs.Txn

/-!
# The references of system calls that are under way

Every system call gives back the references it takes, or leaves them in an open file or in its
current directory, and never has more than three of them in its variables.
-/

namespace Xv6.Fs.Demand

open Lib
open Function (update update_eq_self update_idem update_of_ne update_self)
open Finset (card_filter sum_add_distrib sum_comm sum_congr sum_eq_zero sum_le_sum)
open Multiset (card_cons cons_swap)

variable {π : Type} [DecidableEq π] [Fintype π] {p : π} {α : Type} {sb : Superblock} {i dp : Slot}
  {fd : Fd} {x : Proc} {m : Multiset Slot} {t : Fd → Option FdType} {v : View} {name : Name}

/-! ## Panics of code under the lock of an inode -/

section Panics

variable {β : Type} {y : FsM α} {g : α → FsM β} {e k n off : Nat} {src : List UInt8} {msg : String}

/-- The code panics, if it does, not as `iget` does. -/
def Spares (y : FsM α) : Prop := ∀ u, Sat y u (fun _ _ => True) fun m => m ≠ noInodes

theorem Spares.bind (hy : Spares y) (hg : ∀ a, Spares (g a)) : Spares (y >>= g) := fun u =>
  (hy u).bind fun a u' _ => hg a u'

theorem spares_pure (a : α) : Spares (pure a) := fun _ => trivial

theorem spares_get {g : InodeSt → FsM α} (h : ∀ u, Spares (g u)) : Spares (get >>= g) := fun u =>
  sat_get (h u u)

theorem spares_modify (g : InodeSt → InodeSt) : Spares (modify g) := fun _ => trivial

theorem spares_halt (h : msg ≠ noInodes) : Spares (halt msg : FsM α) := fun _ => h

theorem spares_balloc : Spares (balloc sb) := fun u => by
  unfold Sat balloc
  cases firstFree sb u.disk with
  | none => exact (by decide : "balloc: out of blocks" ≠ noInodes)
  | some b => trivial

theorem spares_bfree : Spares (bfree k) := fun u => by
  unfold Sat bfree
  by_cases h : bit (readsb u.disk) u.disk k = true
  · simp only [h, if_true]
  · simp only [h, Bool.false_eq_true, if_false]
    decide

theorem spares_addrOrAlloc : Spares (addrOrAlloc sb k) := by
  refine spares_get fun u => ?_
  split
  · exact spares_balloc.bind fun b => (spares_modify _).bind fun _ => spares_pure b
  · exact spares_pure _

theorem spares_bmap : Spares (bmap sb k) := by
  unfold bmap
  split
  · exact spares_addrOrAlloc
  · split
    · refine spares_addrOrAlloc.bind fun ind => spares_get fun u => ?_
      split
      · exact spares_balloc.bind fun b => (spares_modify _).bind fun _ => spares_pure b
      · exact spares_pure _
    · exact spares_halt (by decide)

theorem spares_freeAll {g : Nat → FsM Unit} (h : ∀ k, Spares (g k)) (ks : List Nat) :
    Spares (freeAll g ks) := by
  induction ks with
  | nil => exact spares_pure _
  | cons k ks ih => exact (h k).bind fun _ => ih

theorem spares_freeDirect : Spares (freeDirect k) := by
  refine spares_get fun u => ?_
  split
  · exact spares_pure _
  · exact spares_bfree.bind fun _ => spares_modify _

theorem spares_freeEntry {ind : Nat} : Spares (freeEntry ind k) := by
  refine spares_get fun u => ?_
  split
  · exact spares_pure _
  · exact spares_bfree

theorem spares_freeIndirect : Spares freeIndirect := by
  refine spares_get fun u => ?_
  split
  · exact spares_pure _
  · exact (spares_freeAll (fun _ => spares_freeEntry) _).bind fun _ =>
      spares_bfree.bind fun _ => spares_modify _

theorem spares_ifree : Spares (ifree sb e) :=
  have htrunc :
    Spares (itrunc sb e) := (spares_freeAll (fun _ => spares_freeDirect) _).bind fun _ =>
    spares_freeIndirect.bind fun _ => (spares_modify _).bind fun _ => spares_modify _
  htrunc.bind fun _ => (spares_modify _).bind fun _ => spares_modify _

theorem spares_readLoop (passes : Nat) : Spares (readLoop sb passes off n) := by
  induction passes generalizing off n with
  | zero => exact spares_pure _
  | succ passes ih =>
    unfold readLoop
    split
    · exact spares_pure _
    · exact spares_bmap.bind fun b => spares_get fun u => ih.bind fun _ => spares_pure _

theorem spares_readi : Spares (readi sb off n) := by
  refine spares_get fun u => ?_
  dsimp only
  split
  · exact spares_pure _
  · exact (spares_readLoop _).bind fun _ => spares_pure _

theorem spares_writeLoop (passes : Nat) : Spares (writeLoop sb passes off src) := by
  induction passes generalizing off src with
  | zero => exact spares_pure _
  | succ passes ih =>
    unfold writeLoop
    split
    · exact spares_pure _
    · exact spares_bmap.bind fun b => (spares_modify _).bind fun _ => ih

theorem spares_writei : Spares (writei sb e off src) := by
  refine spares_get fun u => ?_
  split
  · exact spares_pure _
  · split
    · exact spares_pure _
    · refine (spares_writeLoop _).bind fun _ => Spares.bind (spares_get fun u => ?_) fun _ =>
        spares_pure _
      split
      · exact (spares_modify _).bind fun _ => spares_modify _
      · exact spares_pure _

theorem spares_scan (hm : msg ≠ noInodes) {want : Dirent → Bool} (entries : Nat) :
    Spares (scan sb msg want entries k) := by
  induction entries generalizing k with
  | zero => exact spares_pure _
  | succ entries ih =>
    refine spares_get fun u => ?_
    split
    · refine Spares.bind (spares_readi.bind fun r => ?_) fun de => ?_
      · cases r with
        | none => exact spares_halt hm
        | some l =>
          dsimp only
          split
          · exact spares_pure _
          · exact spares_halt hm
      · split
        · exact spares_pure _
        · exact ih
    · exact spares_pure _

theorem spares_lookup : Spares (lookup sb name) := by
  refine spares_get fun u => ?_
  split
  · exact spares_halt (by decide)
  · exact (spares_scan (by decide) _).bind fun _ => spares_pure _

theorem spares_addEntry : Spares (addEntry sb e name n) := by
  refine spares_get fun u => (spares_scan (by decide) _).bind fun r =>
    spares_writei.bind fun w => ?_
  cases w with
  | none => exact spares_halt (by decide)
  | some _ => exact spares_pure _

theorem spares_eraseEntry : Spares (eraseEntry sb e off) := by
  refine spares_writei.bind fun w => ?_
  cases w with
  | none => exact spares_halt (by decide)
  | some _ => exact spares_pure _

theorem spares_isdirempty : Spares (isdirempty sb) :=
  spares_get fun _ => (spares_scan (by decide) _).bind fun _ => spares_pure _

end Panics

/-! ## Code that has nothing to do with references -/

variable {Q : Unit → View → Prop} {type : BitVec 16}

section Silent

theorem toks_locked (n : Note) (i : Slot) (e : Nat) : (n.locked i e).toks = n.toks := by
  unfold Note.locked
  split
  · split <;> rfl
  · rfl

variable {l : Lab}

variable (hlive : v.proc.live = true)

include hlive

theorem wp_onInode {y : Nat → FsM α} {Q : α → View → Prop}
    (hy : ∀ e, Spares (y e)) (h : ∀ a, Q a v) : wp refProto p (onInode l i y) Q v := by
  refine wp_silent hlive (fun s => ?_) h
  dsimp only
  split
  · exact .slot rfl (update_eq_self p s.note).symm rfl rfl rfl rfl rfl
  · rename_i msg he
    exact (hy _ _).error he

theorem wp_ilock (h : Q () v) : wp refProto p (ilock sb i) Q v := by
  refine wp_silent hlive (fun s => ?_) fun _ => h
  dsimp only
  split
  · exact (by decide : "ilock" ≠ noInodes)
  · split
    · trivial
    · split
      · exact .slot rfl rfl rfl rfl rfl rfl (toks_locked _ _ _)
      · split
        · exact (by decide : "ilock: no type" ≠ noInodes)
        · exact .slot rfl rfl rfl rfl rfl rfl (toks_locked _ _ _)

theorem wp_iunlock (h : Q () v) : wp refProto p (iunlock i) Q v := by
  refine wp_silent hlive (fun s => ?_) fun _ => h
  dsimp only
  split
  · exact (by decide : "iunlock" ≠ noInodes)
  · exact .slot rfl rfl rfl rfl rfl rfl rfl

theorem wp_iputAcquire {Q : Bool → View → Prop} (h : ∀ r, Q r v) :
    wp refProto p (iputAcquire i) Q v := by
  refine wp_silent hlive (fun s => ?_) h
  dsimp only
  split
  · trivial
  · exact .slot rfl rfl rfl rfl rfl rfl rfl

theorem wp_iputRef {Q : Nat → View → Prop} (h : ∀ r, Q r v) :
    wp refProto p (iputRef i) Q v :=
  wp_silent hlive (fun _ => .noted rfl rfl rfl rfl rfl) h

theorem wp_iputFree (h : Q () v) :
    wp refProto p (iputFree sb i) Q v := by
  refine wp_silent hlive (fun s => ?_) fun _ => h
  dsimp only
  split
  · exact .slot rfl (update_eq_self p s.note).symm rfl rfl rfl rfl rfl
  · rename_i msg he
    exact (spares_ifree _).error he

theorem wp_iputRelease (h : Q () v) :
    wp refProto p (iputRelease i) Q v :=
  wp_silent hlive (fun _ => .slot rfl rfl rfl rfl rfl rfl rfl) fun _ => h

theorem wp_iprobe {Q : Bool → View → Prop} {e : Nat} (h : ∀ r, Q r v) :
    wp refProto p (iprobe sb dp type e) Q v := by
  refine wp_silent hlive (fun s => ?_) h
  dsimp only
  split
  · exact .noted rfl rfl rfl rfl rfl
  · exact .refl p s

theorem wp_dirscan {Q : Option (Nat × Nat) → View → Prop}
    (h : ∀ r, Q r v) : wp refProto p (dirscan sb dp name) Q v := by
  refine wp_silent hlive (fun s => ?_) h
  dsimp only
  split
  · exact .noted rfl rfl rfl rfl rfl
  · exact .noted rfl (update_eq_self p s.note).symm rfl rfl rfl
  · rename_i msg he
    exact (spares_lookup _).error he

theorem wp_typeOf {Q : BitVec 16 → View → Prop} {mark : Bool}
    (h : ∀ r, Q r v) : wp refProto p (typeOf mark i) Q v :=
  wp_silent hlive (fun _ => .noted rfl rfl rfl rfl rfl) h

theorem wp_look {g : FsSt π → π → α} {Q : α → View → Prop}
    (h : ∀ a, Q a v) : wp refProto p (.step l fun p s => .done (g s p) s) Q v :=
  wp_silent hlive (fun s => .refl p s) h

theorem wp_begin_op (h : Q () v) :
    wp refProto p begin_op Q v := wp_look hlive fun _ => h

theorem wp_end_op (h : Q () v) :
    wp refProto p end_op Q v := wp_look hlive fun _ => h

theorem wp_inumOf {Q : Nat → View → Prop} (h : ∀ e, Q e v) :
    wp refProto p (inumOf i) Q v := wp_look hlive h

theorem wp_advance {k : Nat} (h : Q () v) :
    wp refProto p (advance fd k) Q v := by
  refine wp_silent hlive (fun s => ?_) fun _ => h
  dsimp only
  split
  · exact .setFile ⟨rfl, rfl, rfl⟩
  · exact .refl p s

theorem wp_offOf {Q : Nat → View → Prop} (h : ∀ k, Q k v) :
    wp refProto p (offOf fd) Q v := by
  refine wp_silent hlive (fun s => ?_) h
  split <;> exact .refl p s

theorem wp_fileOf {Q : Option File → View → Prop} (h : ∀ r, Q r v) :
    wp refProto p (fileOf fd) Q v := wp_look hlive h

theorem wp_devOf {Q : Option Bool → View → Prop} (h : ∀ r, Q r v) :
    wp refProto p (devOf i) Q v := wp_look hlive h

/-! ## Reading and writing -/

theorem wp_console (h : Q () v) :
    wp refProto p (console sb i) Q v := wp_bind (wp_iunlock hlive (wp_ilock hlive h))

variable {con : Option Nat}

theorem wp_readInode {Q : Option Nat → View → Prop} {off n : Nat}
    (h : ∀ r, Q r v) : wp refProto p (readInode sb i off n con) Q v := by
  refine wp_bind (wp_devOf hlive fun r => ?_)
  match r with
  | some true => exact wp_bind (wp_console hlive (h con))
  | some false => exact h none
  | none => exact wp_bind (wp_onInode hlive (fun _ => spares_readi) fun l => h _)

theorem wp_writeInode {Q : Option Nat → View → Prop} {off : Nat} {src : List UInt8}
    (h : ∀ r, Q r v) :
    wp refProto p (writeInode sb i off src) Q v := by
  refine wp_bind (wp_devOf hlive fun r => ?_)
  match r with
  | some true => exact wp_bind (wp_console hlive (h _))
  | some false => exact h none
  | none => exact wp_onInode hlive (fun _ => spares_writei) h

theorem wp_writeChunk {Q : Option Nat → View → Prop} {src : List UInt8}
    (h : ∀ r, Q r v) : wp refProto p (writeChunk sb fd i src) Q v := by
  refine wp_bind (wp_begin_op hlive (wp_bind (wp_ilock hlive ?_)))
  refine wp_bind (wp_offOf hlive fun off => ?_)
  refine wp_bind (wp_writeInode hlive fun r => wp_bind (wp_advance hlive ?_))
  exact wp_bind (wp_iunlock hlive (wp_bind (wp_end_op hlive (h r))))

theorem wp_writeChunks {Q : Bool → View → Prop} (h : ∀ r, Q r v)
    (passes : Nat) (src : List UInt8) : wp refProto p (writeChunks sb fd i passes src) Q v := by
  induction passes generalizing src with
  | zero => exact h _
  | succ passes ih =>
    unfold writeChunks
    split
    · exact h true
    · refine wp_bind (wp_writeChunk hlive fun r => ?_)
      cases r with
      | none => exact h false
      | some r =>
        dsimp only
        split
        · exact ih _
        · exact wp_panic hlive (by decide)

theorem wp_filewrite {Q : Option Nat → View → Prop} {src : List UInt8}
    (h : ∀ r, Q r v) : wp refProto p (filewrite sb fd src) Q v := by
  refine wp_bind (wp_fileOf hlive fun r => ?_)
  cases r with
  | none => exact h none
  | some f =>
    dsimp only
    split
    · exact h none
    · split
      · exact wp_panic hlive (by decide)
      · exact h none
      · exact wp_bind (wp_writeChunks hlive (fun _ => h _) _ _)

theorem wp_sysRead {k : Nat} (h : Q () v) :
    wp refProto p (sysRead sb fd k con) Q v := by
  refine wp_bind (wp_fileOf hlive fun r => ?_)
  cases r with
  | none => exact h
  | some f =>
    dsimp only
    split
    · exact h
    · split
      · exact wp_panic hlive (by decide)
      · exact h
      · refine wp_bind (wp_ilock hlive (wp_bind (wp_offOf hlive fun off => ?_)))
        exact wp_bind (wp_readInode hlive fun r => wp_bind (wp_advance hlive (wp_iunlock hlive h)))

theorem wp_sysFstat (h : Q () v) :
    wp refProto p (sysFstat sb fd) Q v := by
  refine wp_bind (wp_fileOf hlive fun r => ?_)
  cases r with
  | none => exact h
  | some f =>
    dsimp only
    split
    · exact h
    · exact h
    · exact wp_bind (wp_ilock hlive (wp_iunlock hlive h))

theorem wp_execReads {Q : Bool → View → Prop} (h : ∀ good, Q good v)
    (reads : List (Nat × Nat × Bool)) :
    wp refProto p (execReads sb i reads) Q v := by
  induction reads with
  | nil => exact h true
  | cons r reads ih =>
    refine wp_bind (wp_readInode hlive fun _ => ?_)
    split
    · exact ih
    · exact h false

end Silent

/-! ## Paths -/

section Paths

variable (hlive : x.live = true)

include hlive

theorem wp_iput (h : Q () ⟨x, m, t⟩) :
    wp refProto p (iput sb i) Q ⟨x, i ::ₘ m, t⟩ := by
  refine wp_bind (wp_iputAcquire hlive fun unlinked => wp_bind ?_)
  have hrest : wp refProto p (iputRelease i >>= fun _ => iputDrop i) Q ⟨x, i ::ₘ m, t⟩ :=
    wp_bind (wp_iputRelease hlive (wp_iputDrop hlive h))
  unfold iputDecide
  split
  · refine wp_bind (wp_iputRef hlive fun r => ?_)
    split
    · exact wp_iputFree hlive hrest
    · exact hrest
  · exact hrest

theorem wp_iunlockput (h : Q () ⟨x, m, t⟩) :
    wp refProto p (iunlockput sb i) Q ⟨x, i ::ₘ m, t⟩ :=
  wp_bind (wp_iunlock hlive (wp_iput hlive h))

theorem wp_dirlookup {Q : Option (Slot × Nat) → View → Prop}
    (hm : m.card < callRefs) (hnone : Q none ⟨x, m, t⟩)
    (hsome : ∀ i off, Q (some (i, off)) ⟨x, i ::ₘ m, t⟩) :
    wp refProto p (dirlookup sb dp name) Q ⟨x, m, t⟩ := by
  refine wp_bind (wp_dirscan hlive fun r => ?_)
  cases r with
  | none => exact hnone
  | some r => exact wp_bind (wp_iget hlive hm fun i => hsome i r.2)

theorem wp_dirlink {Q : Bool → View → Prop} {e : Nat}
    (hm : m.card < callRefs) (h : ∀ r, Q r ⟨x, m, t⟩) :
    wp refProto p (dirlink sb dp name e) Q ⟨x, m, t⟩ := by
  refine wp_bind (wp_dirlookup hlive hm ?_ fun i off => ?_)
  · exact wp_bind (wp_onInode hlive (fun _ => spares_addEntry) fun _ => h true)
  · exact wp_bind (wp_iput hlive (h false))

variable {parent : Bool}

theorem wp_walkFrom {Q : Option (Slot × Name) → View → Prop}
    (hm : m.card + 1 < callRefs) (hnone : Q none ⟨x, m, t⟩)
    (hsome : ∀ i name, Q (some (i, name)) ⟨x, i ::ₘ m, t⟩) (path : List Name) (ip : Slot) :
    wp refProto p (walkFrom sb parent ip path) Q ⟨x, ip ::ₘ m, t⟩ := by
  induction path generalizing ip with
  | nil =>
    unfold walkFrom
    split
    · exact wp_bind (wp_iput hlive hnone)
    · exact hsome ip dot
  | cons name rest ih =>
    unfold walkFrom
    refine wp_bind (wp_ilock hlive (wp_bind (wp_typeOf hlive fun type => ?_)))
    split
    · exact wp_bind (wp_iunlockput hlive hnone)
    · split
      · exact wp_bind (wp_iunlock hlive (hsome ip name))
      · refine wp_bind (wp_dirlookup hlive (by rwa [card_cons]) ?_ fun next off => ?_)
        · exact wp_bind (wp_iunlockput hlive hnone)
        · rw [cons_swap]
          exact wp_bind (wp_iunlockput hlive (ih next))

theorem wp_namex {Q : Option (Slot × Name) → View → Prop} {path : Path}
    (hm : m.card + 1 < callRefs) (hnone : Q none ⟨x, m, t⟩)
    (hsome : ∀ i name, Q (some (i, name)) ⟨x, i ::ₘ m, t⟩) :
    wp refProto p (namex sb parent path) Q ⟨x, m, t⟩ := by
  have hm' : m.card < callRefs := (Nat.lt_succ_self _).trans hm
  refine wp_bind ?_
  unfold startOf
  split
  · exact wp_iget hlive hm' fun i => wp_walkFrom hlive hm hnone hsome _ i
  · exact wp_idupCwd hlive hm' fun i => wp_walkFrom hlive hm hnone hsome _ i

theorem wp_namei {Q : Option Slot → View → Prop} {path : Path}
    (hm : m.card + 1 < callRefs) (hnone : Q none ⟨x, m, t⟩)
    (hsome : ∀ i, Q (some i) ⟨x, i ::ₘ m, t⟩) : wp refProto p (namei sb path) Q ⟨x, m, t⟩ :=
  wp_bind (wp_namex hlive hm hnone fun i _ => hsome i)

/-! ## Creating and removing entries -/

omit hlive in
theorem wp_setFields {g : Dinode → Dinode} (hlive : v.proc.live = true) (h : Q () v) :
    wp refProto p (setFields sb i g) Q v :=
  wp_onInode hlive (fun _ => (spares_modify _).bind fun _ => spares_modify _) fun _ => h

theorem wp_iallocFrom {Q : Slot → View → Prop} (hm : m.card < callRefs)
    (h : ∀ i, Q i ⟨x, i ::ₘ m, t⟩) (es : List Nat) :
    wp refProto p (iallocFrom sb dp type es) Q ⟨x, m, t⟩ := by
  induction es with
  | nil => exact wp_panic hlive (by decide)
  | cons e es ih =>
    refine wp_bind (wp_iprobe hlive fun free => ?_)
    split
    · exact wp_iget hlive hm h
    · exact ih

variable {ip : Slot}

theorem wp_createDots {e : Nat} (hm : m.card < callRefs) (h : Q () ⟨x, m, t⟩) :
    wp refProto p (createDots sb dp ip e type) Q ⟨x, m, t⟩ := by
  unfold createDots
  split
  · refine wp_bind (wp_setFields hlive (wp_bind (wp_dirlink hlive hm fun ok => ?_)))
    split
    · refine wp_bind (wp_inumOf hlive fun de => wp_bind (wp_dirlink hlive hm fun ok => ?_))
      split
      · exact h
      · exact wp_panic hlive (by decide)
    · exact wp_panic hlive (by decide)
  · exact h

variable {major minor : BitVec 16}

theorem wp_createNew {Q : Option Slot → View → Prop}
    (hm : m.card + 2 < callRefs) (h : ∀ i, Q (some i) ⟨x, i ::ₘ m, t⟩) :
    wp refProto p (createNew sb dp name type major minor) Q ⟨x, dp ::ₘ m, t⟩ := by
  have hone : (dp ::ₘ m).card < callRefs := by
    rw [card_cons]
    omega
  have htwo : ∀ ip : Slot, (ip ::ₘ dp ::ₘ m).card < callRefs := fun ip => by
    rw [card_cons, card_cons]
    omega
  refine wp_bind (wp_iallocFrom hlive hone (fun ip => ?_) _)
  refine wp_bind (wp_ilock hlive (wp_bind (wp_setFields hlive ?_)))
  refine wp_bind (wp_inumOf hlive fun e => ?_)
  refine wp_bind (wp_createDots hlive (htwo ip) (wp_bind (wp_dirlink hlive (htwo ip) fun ok => ?_)))
  split
  · rw [cons_swap]
    exact wp_bind (wp_iunlockput hlive (h ip))
  · exact wp_panic hlive (by decide)

theorem wp_create {Q : Option Slot → View → Prop} {path : Path}
    (hm : m.card + 2 < callRefs) (hnone : Q none ⟨x, m, t⟩)
    (hsome : ∀ i, Q (some i) ⟨x, i ::ₘ m, t⟩) :
    wp refProto p (create sb path type major minor) Q ⟨x, m, t⟩ := by
  refine wp_bind (wp_namex hlive (by omega) hnone fun dp name => ?_)
  have hone : (dp ::ₘ m).card < callRefs := by
    rw [card_cons]
    omega
  refine wp_bind (wp_ilock hlive (wp_bind (wp_dirlookup hlive hone ?_ fun ip off => ?_)))
  · exact wp_createNew hlive hm hsome
  · rw [cons_swap]
    refine wp_bind (wp_iunlockput hlive (wp_bind (wp_ilock hlive ?_)))
    refine wp_bind (wp_typeOf hlive fun type' => ?_)
    split
    · exact hsome ip
    · exact wp_bind (wp_iunlockput hlive hnone)

theorem wp_unlinkBack (h : Q () ⟨x, m, t⟩) :
    wp refProto p (unlinkBack sb i) Q ⟨x, i ::ₘ m, t⟩ :=
  wp_bind (wp_ilock hlive (wp_bind (wp_setFields hlive
    (wp_bind (wp_iunlockput hlive (wp_end_op hlive h))))))

theorem wp_linkInto {Q : Bool → View → Prop} (hm : m.card < callRefs)
    (h : ∀ r, Q r ⟨x, m, t⟩) : wp refProto p (linkInto sb dp ip name) Q ⟨x, m, t⟩ := by
  refine wp_bind (wp_ilock hlive (wp_bind (wp_look hlive fun other => ?_)))
  split
  · exact h false
  · exact wp_bind (wp_inumOf hlive fun e => wp_dirlink hlive hm h)

omit hlive in
theorem wp_checkUnlink {Q : Bool × Bool → View → Prop} (hlive : v.proc.live = true)
    (h : ∀ r, Q r v) : wp refProto p (checkUnlink sb i) Q v := by
  refine wp_onInode hlive (fun _ => spares_get fun u => ?_) h
  split
  · exact spares_halt (by decide)
  · split
    · exact spares_isdirempty.bind fun _ => spares_pure _
    · exact spares_pure _

theorem wp_unlinkBad (h : Q () ⟨x, m, t⟩) :
    wp refProto p (unlinkBad sb i) Q ⟨x, i ::ₘ m, t⟩ :=
  wp_bind (wp_iunlockput hlive (wp_end_op hlive h))

theorem wp_unlinkEntry {off : Nat} {dir : Bool} (h : Q () ⟨x, m, t⟩) :
    wp refProto p (unlinkEntry sb dp ip off dir) Q ⟨x, ip ::ₘ dp ::ₘ m, t⟩ := by
  refine wp_bind (wp_onInode hlive (fun _ => spares_eraseEntry) fun _ => wp_bind ?_)
  have hrest : wp refProto p (do
      iunlockput sb dp
      setFields sb ip fun d => { d with nlink := d.nlink - 1 }
      iunlockput sb ip
      end_op) Q ⟨x, ip ::ₘ dp ::ₘ m, t⟩ := by
    rw [cons_swap]
    exact wp_bind (wp_iunlockput hlive (wp_bind (wp_setFields hlive
      (wp_bind (wp_iunlockput hlive (wp_end_op hlive h))))))
  unfold dropDotdot
  split
  · exact wp_setFields hlive hrest
  · exact hrest

end Paths

/-! ## System calls -/

section Calls

variable {ip : Slot} {major minor : BitVec 16} (hlive : x.live = true)
  (ht : ∀ fd, t fd ≠ some .none)

include hlive ht

theorem wp_sysLink {old new : Option Path} :
    wp refProto p (sysLink sb old new) (fun _ => Idle) ⟨x, 0, t⟩ := by
  have hdone : Idle ⟨x, 0, t⟩ := ⟨rfl, ht⟩
  unfold sysLink
  match old, new with
  | none, _ => exact hdone
  | some old, none => exact hdone
  | some old, some new =>
    refine wp_bind (wp_begin_op hlive (wp_bind (wp_namei hlive (by decide) (wp_end_op hlive hdone)
      fun ip => wp_bind (wp_ilock hlive (wp_bind (wp_typeOf hlive fun type => ?_))))))
    split
    · exact wp_bind (wp_iunlockput hlive (wp_end_op hlive hdone))
    · refine wp_bind (wp_setFields hlive (wp_bind (wp_iunlock hlive ?_)))
      -- the inode stays in a variable while the second path is looked up
      refine wp_bind (wp_namex (m := ip ::ₘ 0) hlive (by simp [callRefs])
        (wp_unlinkBack hlive hdone) fun dp name => ?_)
      refine wp_bind (wp_linkInto (m := dp ::ₘ ip ::ₘ 0) hlive (by simp [callRefs]) fun linked =>
        wp_bind (wp_iunlockput hlive ?_))
      split
      · exact wp_bind (wp_iput hlive (wp_end_op hlive hdone))
      · exact wp_unlinkBack hlive hdone

variable {path : Option Path}

theorem wp_sysUnlink : wp refProto p (sysUnlink sb path) (fun _ => Idle) ⟨x, 0, t⟩ := by
  have hdone : Idle ⟨x, 0, t⟩ := ⟨rfl, ht⟩
  cases path with
  | none => exact hdone
  | some path =>
    refine wp_bind (wp_begin_op hlive (wp_bind (wp_namex hlive (by decide) (wp_end_op hlive hdone)
      fun dp name => wp_bind (wp_ilock hlive ?_))))
    split
    · exact wp_unlinkBad hlive hdone
    · refine wp_bind (wp_dirlookup (m := dp ::ₘ 0) hlive (by simp [callRefs])
        (wp_unlinkBad hlive hdone) fun ip off => ?_)
      refine wp_bind (wp_ilock hlive (wp_bind (wp_checkUnlink hlive fun ⟨dir, empty⟩ => ?_)))
      dsimp only
      split
      · exact wp_unlinkEntry hlive hdone
      · exact wp_bind (wp_iunlockput hlive (wp_unlinkBad hlive hdone))

theorem wp_sysMake :
    wp refProto p (sysMake sb path type major minor) (fun _ => Idle) ⟨x, 0, t⟩ := by
  have hdone : Idle ⟨x, 0, t⟩ := ⟨rfl, ht⟩
  refine wp_bind (wp_begin_op hlive ?_)
  cases path with
  | none => exact wp_end_op hlive hdone
  | some path =>
    exact wp_bind (wp_create hlive (by decide) (wp_end_op hlive hdone) fun ip =>
      wp_bind (wp_iunlockput hlive (wp_end_op hlive hdone)))

variable {omode : BitVec 32}

theorem wp_openInode : wp refProto p (openInode sb ip omode) (fun _ => Idle) ⟨x, ip ::ₘ 0, t⟩ := by
  refine wp_bind (wp_openFile hlive ?_ fun f fd => ?_)
  · exact wp_bind (wp_bind (wp_iunlockput hlive (wp_bind (wp_end_op hlive ⟨rfl, ht⟩))))
  · refine wp_bind (wp_iunlock hlive (wp_bind (wp_end_op hlive ?_)))
    refine wp_bind (wp_fillFile hlive (update_self ..) (update_self ..) ?_)
    rw [update_idem]
    exact Idle.update (v := ⟨x, 0, t⟩) ⟨rfl, ht⟩ (by decide) fd _

theorem wp_sysOpen : wp refProto p (sysOpen sb path omode) (fun _ => Idle) ⟨x, 0, t⟩ := by
  have hdone : Idle ⟨x, 0, t⟩ := ⟨rfl, ht⟩
  cases path with
  | none => exact hdone
  | some path =>
    refine wp_bind (wp_begin_op hlive ?_)
    split
    · exact wp_bind (wp_create hlive (by decide) (wp_bind (wp_end_op hlive hdone)) fun ip =>
        wp_openInode hlive ht)
    · refine wp_bind (wp_namei hlive (by decide) (wp_bind (wp_end_op hlive hdone)) fun ip => ?_)
      refine wp_bind (wp_ilock hlive (wp_bind (wp_typeOf hlive fun type => ?_)))
      split
      · exact wp_bind (wp_iunlockput hlive (wp_bind (wp_end_op hlive hdone)))
      · exact wp_openInode hlive ht

theorem wp_sysChdir : wp refProto p (sysChdir sb path) (fun _ => Idle) ⟨x, 0, t⟩ := by
  have hdone : Idle ⟨x, 0, t⟩ := ⟨rfl, ht⟩
  refine wp_bind (wp_begin_op hlive ?_)
  cases path with
  | none => exact wp_end_op hlive hdone
  | some path =>
    refine wp_bind (wp_namei hlive (by decide) (wp_end_op hlive hdone) fun ip => ?_)
    refine wp_bind (wp_ilock hlive (wp_bind (wp_typeOf hlive fun type => ?_)))
    split
    · exact wp_bind (wp_iunlockput hlive (wp_end_op hlive hdone))
    · refine wp_bind (wp_iunlock hlive (wp_bind
        (wp_leaveCwd (m := ip ::ₘ 0) hlive (by simp [callRefs]) fun old => ?_)))
      exact wp_bind (wp_iput hlive (wp_bind (wp_end_op hlive (wp_enterCwd hlive rfl ⟨rfl, ht⟩))))

theorem wp_sysExec {reads : List (Nat × Nat × Bool)} {stack : Bool} :
    wp refProto p (sysExec sb path reads stack) (fun _ => Idle) ⟨x, 0, t⟩ := by
  have hdone : Idle ⟨x, 0, t⟩ := ⟨rfl, ht⟩
  cases path with
  | none => exact hdone
  | some path =>
    refine wp_bind (wp_begin_op hlive (wp_bind (wp_namei hlive (by decide) (wp_end_op hlive hdone)
      fun ip => ?_)))
    refine wp_bind (wp_ilock hlive (wp_bind (wp_execReads hlive (fun good => ?_) reads)))
    split
    · refine wp_bind (wp_iunlockput hlive (wp_bind (wp_end_op hlive ?_)))
      split <;> exact hdone
    · exact wp_bind (wp_iunlockput hlive (wp_end_op hlive hdone))

omit ht in
theorem wp_sysClose (h : Q () ⟨{ x with ofile := update x.ofile fd none }, 0, update t fd none⟩) :
    wp refProto p (sysClose sb fd) Q ⟨x, 0, t⟩ := by
  refine wp_bind (wp_closeFile hlive (by decide) h fun i => ?_)
  exact wp_bind (wp_begin_op hlive (wp_bind (wp_iput hlive (wp_end_op hlive h))))

omit ht in
theorem wp_closeAll
    (h : ∀ y u, y.live = true → (∀ fd, y.ofile fd = none) → (∀ fd, u fd ≠ some .none) →
      Q () ⟨y, 0, u⟩) (fds : List Fd) (hx : ∀ fd, fd ∉ fds → x.ofile fd = none)
    (ht : ∀ fd, t fd ≠ some .none) : wp refProto p (closeAll sb fds) Q ⟨x, 0, t⟩ := by
  induction fds generalizing x t with
  | nil => exact h x t hlive (fun fd => hx fd (List.not_mem_nil)) ht
  | cons fd fds ih =>
    refine wp_bind (wp_sysClose hlive (ih hlive (fun k hk => ?_) fun k => ?_))
    · by_cases hkf : k = fd
      · subst hkf
        exact update_self ..
      · exact (update_of_ne hkf _ _).trans (hx k (by simp [hkf, hk]))
    · by_cases hkf : k = fd
      · subst hkf
        simp
      · rw [update_of_ne hkf]
        exact ht k

theorem wp_sysExit : wp refProto p (sysExit sb) (fun _ => Idle) ⟨x, 0, t⟩ := by
  refine wp_bind (wp_closeAll hlive (fun y u hy hclosed hu => ?_) _
    (fun fd hfd => absurd (List.mem_finRange fd) hfd) ht)
  refine wp_bind (wp_begin_op hy (wp_bind (wp_leaveCwd hy (by decide) fun i => ?_)))
  exact wp_bind (wp_iput hy (wp_bind (wp_end_op hy (wp_retire hy rfl hclosed ⟨rfl, hu⟩))))

theorem wp_sysPipe {mem : Bool} : wp refProto p (sysPipe sb mem) (fun _ => Idle) ⟨x, 0, t⟩ := by
  refine wp_bind (wp_mono (wp_openPipe hlive ⟨rfl, ht⟩) fun r v h => ?_)
  obtain ⟨rfl, -, hv⟩ := h
  exact hv

theorem wp_call (c : Call π) : wp refProto p (c.prog sb) (fun _ => Idle) ⟨x, 0, t⟩ := by
  have hdone : Idle ⟨x, 0, t⟩ := ⟨rfl, ht⟩
  cases c with
  | «open» path omode => exact wp_bind (wp_sysOpen hlive ht)
  | mkdir path => exact wp_sysMake hlive ht
  | mknod path major minor => exact wp_sysMake hlive ht
  | link old new => exact wp_sysLink hlive ht
  | unlink path => exact wp_sysUnlink hlive ht
  | chdir path => exact wp_sysChdir hlive ht
  | exec path reads stack => exact wp_sysExec hlive ht
  | read fd k con => exact wp_sysRead hlive hdone
  | write fd src => exact wp_bind (wp_filewrite hlive fun _ => hdone)
  | close fd =>
    refine wp_sysClose hlive ⟨rfl, fun k => ?_⟩
    by_cases hk : k = fd
    · simp [hk]
    · simpa [update_of_ne hk] using ht k
  | dup fd => exact wp_sysDup hlive hdone
  | pipe mem => exact wp_sysPipe hlive ht
  | fork q => exact wp_sysFork hlive hdone
  | exit => exact wp_sysExit hlive ht

end Calls

/-! ## Every interleaving -/

/-- A process that lives may make any system call. Of these, `fstat` is not a `Call`. -/
def fsSys (sb : Superblock) : Sys π (FsSt π) Lab where
  calls p s x := (s.proc p).live = true ∧ ((∃ c : Call π, x = c.prog sb) ∨ ∃ fd, x = sysFstat sb fd)
  env _ _ := False

theorem refProto_sound : (refProto (π := π)).Sound (fsSys sb) where
  calls p s x _ hidle hx := by
    obtain ⟨hlive, ⟨c, rfl⟩ | ⟨fd, rfl⟩⟩ := hx
    · have hv : (view p s).refs = 0 := hidle.1
      rw [show refProto.view p s = ⟨s.proc p, 0, (view p s).types⟩ by rw [← hv]; rfl]
      exact wp_call hlive hidle.2 c
    · exact wp_sysFstat hlive hidle
  env s s' _ h := h.elim

/-- The file system when `userinit` has run, over the disk `d`: the process `init` has the root as
its current directory. -/
def boot (d : Disk) (init : π) : FsSt π where
  disk := d
  inode := update (fun _ => ⟨0, 0, 0, none, false, Dinode.zero⟩) 0
    ⟨ROOTDEV, ROOTINO, 1, none, false, Dinode.zero⟩
  file _ := ⟨.none, 0, false, false, 0, 0⟩
  proc := update (fun _ => ⟨false, none, fun _ => none⟩) init ⟨true, some 0, fun _ => none⟩
  note _ := Note.none
  stamp _ := 0
  clock := 0
  given := []
  logged := []

omit [Fintype π] in
theorem ofile_boot (d : Disk) (init p : π) (fd : Fd) : ((boot d init).proc p).ofile fd = none := by
  unfold boot
  by_cases hp : p = init
  · subst hp
    simp
  · simp [update_of_ne hp]

theorem inv_boot (d : Disk) (init : π) : Inv (boot d init) where
  refs j := by
    have hopen : openRefs (boot d init).file j = 0 :=
      sum_eq_zero fun f _ => if_neg fun h => absurd h.1 (Nat.lt_irrefl 0)
    have hown := sum_eq_off (f := fun p => ownRefs ((boot d init).proc p) Note.none j)
      (g := fun _ => 0) init fun p hp => by
        simp [boot, update_of_ne hp, ownRefs, Note.slots, Note.none]
    have hroot : ownRefs ((boot d init).proc init) Note.none j = one 0 j := by
      simp [boot, ownRefs, Note.slots, Note.none, one, eq_comm]
    have hslot : ((boot d init).inode j).ref = one 0 j := by
      by_cases hj : j = 0
      · simp [boot, hj, one]
      · simp [boot, hj, one]
    simp only [Finset.sum_const_zero] at hown
    unfold refsTo
    rw [hopen, hslot]
    have hnote : ∀ p, (boot d init).note p = Note.none := fun _ => rfl
    simp only [hnote]
    omega
  toks p u hu := by cases hu
  opens := by
    refine ⟨fun f => ?_, fun _ _ => Nat.zero_le 1, fun _ _ => rfl⟩
    refine (sum_eq_zero fun p _ => ?_).symm
    rw [opens_eq_sum]
    exact sum_eq_zero fun fd _ => by rw [ofile_boot, pointsTo]; rfl
  gone p hd := by
    refine ⟨rfl, ?_, ofile_boot d init p⟩
    by_cases hp : p = init
    · subst hp
      simp [boot] at hd
    · simp [boot, update_of_ne hp]
  few _ := Nat.zero_le _

omit [Fintype π] in
theorem idle_boot (d : Disk) (init p : π) : Idle (view p (boot d init)) :=
  ⟨rfl, fun fd => by simp [view, ofile_boot]⟩

variable {d : Disk} {init : π} {c : Config π (FsSt π) Lab}

theorem holds_of_reach (h : Reach (fsSys sb) (.start (boot d init)) c) : refProto.Holds c :=
  reach_sound refProto_sound (fun _ _ _ _ _ => trivial)
    (Proto.Holds.start (inv_boot d init) (idle_boot d init)) h

/-! ## The demand for slots -/

def openInodes (s : FsSt π) : Nat :=
  (Finset.univ.filter fun f => 0 < (s.file f).ref ∧ (s.file f).type = .inode).card

def cwds (s : FsSt π) : Nat := (Finset.univ.filter fun p => (s.proc p).cwd.isSome = true).card

def inCall (c : Config π (FsSt π) Lab) : Nat :=
  (Finset.univ.filter fun p => (c.next p).isSome = true).card

theorem sum_ownRefs (y : Proc) (n : Note) :
    ∑ i, ownRefs y n i = (held n).card + if y.cwd.isSome = true then 1 else 0 := by
  have hheld : ∑ i, (held n).count i = (held n).card :=
    Multiset.sum_count_eq_card fun i _ => Finset.mem_univ i
  simp only [ownRefs_eq, sum_add_distrib]
  rw [hheld]
  cases y.cwd with
  | none => simp
  | some j => simp

theorem sum_opensSlot (y : File) :
    ∑ i, opensSlot y i = if 0 < y.ref ∧ y.type = .inode then 1 else 0 := by
  by_cases h : 0 < y.ref ∧ y.type = .inode
  · simp [opensSlot, File.refersTo, h.1, h.2]
  · rw [if_neg h]
    exact sum_eq_zero fun i _ => if_neg fun hr => h ⟨hr.1, hr.2.1⟩

variable {s : FsSt π}

section
omit [DecidableEq π]

theorem sum_refs (hs : Inv s) :
    ∑ i, (s.inode i).ref = ∑ p, (held (s.note p)).card + cwds s + openInodes s := by
  have hown : ∑ i, ∑ p, ownRefs (s.proc p) (s.note p) i = ∑ p, (held (s.note p)).card + cwds s := by
    rw [sum_comm, cwds, card_filter, ← sum_add_distrib]
    exact sum_congr rfl fun p _ => sum_ownRefs _ _
  have hopen : ∑ i, openRefs s.file i = openInodes s := by
    have hswap : ∑ i, openRefs s.file i = ∑ f, ∑ i, opensSlot (s.file f) i := sum_comm
    rw [hswap, openInodes, card_filter]
    exact sum_congr rfl fun f _ => sum_opensSlot _
  have hall : ∑ i, (s.inode i).ref = ∑ i, refsTo s.file s.proc s.note i :=
    sum_congr rfl fun i _ => hs.refs i
  rw [hall, ← hown, ← hopen, ← sum_add_distrib]
  rfl

theorem sum_held (h : refProto.Holds c) :
    ∑ p, (held (c.shared.note p)).card ≤ callRefs * inCall c := by
  rw [inCall, card_filter, Finset.mul_sum]
  refine sum_le_sum fun p _ => ?_
  cases hn : c.next p with
  | none =>
    have hidle : held (c.shared.note p) = 0 := (h.idle_next hn).1
    simp [hidle]
  | some l => simpa using h.1.few p

end

omit [DecidableEq π] [Fintype π] in
theorem findEmpty_of_lt (h : ∑ i, (s.inode i).ref < NINODE) : ∃ i, findEmpty s = some i := by
  cases hf : findEmpty s with
  | some i => exact ⟨i, rfl⟩
  | none =>
    have hall : ∀ i, 1 ≤ (s.inode i).ref := fun i => by
      have := List.find?_eq_none.1 hf i (List.mem_finRange i)
      simp only [beq_iff_eq] at this
      omega
    have hsum : ∑ _i : Slot, 1 ≤ ∑ i, (s.inode i).ref := sum_le_sum fun i _ => hall i
    rw [← Finset.card_eq_sum_ones, Finset.card_univ, Fintype.card_fin] at hsum
    omega

/-- In every state that system calls reach, `iget` finds a slot as long as the open files, the
current directories and three references for every call under way are fewer than the slots, and no
system call can panic for want of one. -/
theorem iget_finds (h : Reach (fsSys sb) (.start (boot d init)) c)
    (hfew : openInodes c.shared + cwds c.shared + callRefs * inCall c < NINODE) (p : π) :
    (∀ e, (iget e).panicOf p c.shared = none) ∧ ¬ c.Panics p noInodes := by
  have hH := holds_of_reach h
  have h1 := sum_refs hH.1
  have h2 := sum_held hH
  obtain ⟨i, hi⟩ := findEmpty_of_lt (s := c.shared) (by omega)
  refine ⟨fun e => ?_, fun hp => ?_⟩
  · simp only [iget, Prog.step, Prog.panicOf]
    cases findInode c.shared e with
    | some j => rfl
    | none => simp [hi]
  · have hnone := hH.panics_of (fun _ _ => trivial) hp rfl
    rw [hi] at hnone
    cases hnone

end Xv6.Fs.Demand
