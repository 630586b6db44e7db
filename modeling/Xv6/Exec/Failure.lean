import Xv6.Fs.Calls
import Xv6.Vm.Stack

/-!
# A failed exec

`exec` as a whole, running alone: the lookup of the path, the transaction, the file, the new address
space and the commit. It has a dozen ways to fail, before and after the inode has been given back.
Whichever it is, the references to inodes, the count of transactions and the free pages are as they
were before the call, and nothing of the process has changed.
-/

namespace Xv6.Exec

open Lib Fs Vm
open Prog (after_bind after_mono after_ret after_step)

/-- The two registers of the trap frame that `exec` sets. -/
structure Trapframe where
  eip : Nat
  esp : Nat

/-- All that `exec` reads and writes: memory and the process table, the file system,
`log.outstanding`, and for each process the trap frame and the name. -/
structure World (N : Nat) where
  sys : Vm.Sys N
  fs : FsSt (Fin N)
  outstanding : Nat
  tf : Fin N → Trapframe
  name : Fin N → List UInt8

structure Program where
  image : Image
  entry : Nat

variable {N : Nat}

namespace World

def begin_op (w : World N) : World N := { w with outstanding := w.outstanding + 1 }

def end_op (w : World N) : World N := { w with outstanding := w.outstanding - 1 }

def setKmem (w : World N) (k : Kmem) : World N := { w with sys := { w.sys with kmem := k } }

/-- The name for debugging: the last element of the path, in 16 bytes with the zero. -/
def lastElem (path : Path) : List UInt8 := (path.reverse.takeWhile (· ≠ slash)).reverse.take 15

def commit (w : World N) (p : Fin N) (path : Path) (sz : Nat) (t : Pgdir) (tf : Trapframe) :
    World N :=
  { w with
    sys := Vm.commit p sz t w.sys
    tf := Function.update w.tf p tf
    name := Function.update w.name p (lastElem path) }

end World

/-- `exec` by process `p`; none if it does not return. The file that it finds is given by what its
reads of the inode answer. -/
def exec (ly : Layout) (sb : Superblock) (prog : FsSt (Fin N) → Slot → Program) (p : Fin N)
    (path : Path) (args : List (List Byte)) (w : World N) : Option (Int × World N) := do
  let w := w.begin_op
  let (r, fs) ← (namei sb path).run p w.fs
  let w := { w with fs := fs }
  match r with
  | none => return (-1, w.end_op)
  | some ip =>
    let (_, fs) ← (ilock sb ip).run p w.fs
    let w := { w with fs := fs }
    let file := prog fs ip
    -- on the way to `bad` the new address space is freed before the inode is put
    let (r, k) ← (load ly file.image w.sys.kmem).toOption
    let w := w.setKmem k
    let (_, fs) ← (iunlockput sb ip).run p w.fs
    let w := { w with fs := fs }.end_op
    match r with
    | none => return (-1, w)
    | some (sz, t) =>
      let (r, t, k) ← (makeStack sz t w.sys.kmem).toOption
      match r with
      | none => return (-1, w.setKmem (freevm t k))
      | some sz =>
        let (r, k) ← (pushStack args sz t k).toOption
        match r with
        | none => return (-1, w.setKmem (freevm t k))
        | some sp => return (0, (w.setKmem k).commit p path sz t ⟨file.entry, sp⟩)

/-! ## References to inodes -/

section Refs

variable {π : Type} {s s' s1 : FsSt π} {i j : Slot}

def SameRefs (s s' : FsSt π) : Prop := ∀ j, (s'.inode j).ref = (s.inode j).ref

theorem SameRefs.trans (h : SameRefs s s1) (h' : SameRefs s1 s') : SameRefs s s' :=
  fun j => (h' j).trans (h j)

theorem sameRefs_setInode {x : Inode π} (h : x.ref = (s.inode i).ref) :
    SameRefs s (s.setInode i x) := by
  intro j
  by_cases hj : j = i
  · subst hj
    simp [FsSt.setInode, h]
  · simp [FsSt.setInode, hj]

variable [DecidableEq π] {sb : Superblock} {p : π} {α β : Type}

def Still (p : π) (x : FsProg π α) : Prop := ∀ s, x.after p (fun _ s' => SameRefs s s') s

section
omit [DecidableEq π]

theorem Still.bind {x : FsProg π α} {g : α → FsProg π β} (hx : Still p x)
    (hg : ∀ a, Still p (g a)) : Still p (x >>= g) := fun s =>
  after_bind (after_mono (hx s) fun a s1 h1 =>
    after_mono (hg a s1) fun _ _ h2 => h1.trans h2)

theorem Still.ret (a : α) : Still p (.ret a : FsProg π α) := fun _ => after_ret fun _ => rfl

theorem Still.andThen {x : FsProg π α} {g : α → FsProg π β} {Q : β → FsSt π → Prop}
    (hx : Still p x) (h : ∀ a s1, SameRefs s s1 → (g a).after p Q s1) : (x >>= g).after p Q s :=
  after_bind (after_mono (hx s) h)

end

theorem still_ilock (i : Slot) : Still p (ilock sb i) := by
  refine fun s => after_step fun _ s' h => ?_
  split at h
  · cases h
  split at h
  · cases h
  split at h
  · cases h
    exact sameRefs_setInode rfl
  split at h
  · cases h
  · cases h
    exact sameRefs_setInode rfl

theorem still_iunlock (i : Slot) : Still p (iunlock i) := by
  refine fun s => after_step fun _ s' h => ?_
  split at h
  · cases h
  · cases h
    exact sameRefs_setInode rfl

theorem still_typeOf (mark : Bool) (i : Slot) : Still p (typeOf mark i) := by
  refine fun s => after_step fun _ s' h => ?_
  cases h
  exact fun _ => rfl

theorem still_dirscan (dp : Slot) (name : Name) : Still p (dirscan sb dp name) := by
  refine fun s => after_step fun _ s' h => ?_
  split at h <;> cases h <;> exact fun _ => rfl

theorem after_iget (e : Nat) (s : FsSt π) :
    (iget e).after p (fun i s' => ∀ j, (s'.inode j).ref = (s.inode j).ref + one i j) s := by
  refine after_step fun i s' h j => ?_
  split at h
  · cases h
    exact ref_setInode_add (s := s) (i := i) rfl j
  split at h
  · next he =>
    cases h
    have hz : (s.inode i).ref = 0 := by simpa using List.find?_some he
    exact ref_setInode_add (s := s) (i := i) (by rw [hz]) j
  · cases h

theorem after_idupCwd (s : FsSt π) :
    (idupCwd : FsProg π Slot).after p
      (fun i s' => ∀ j, (s'.inode j).ref = (s.inode j).ref + one i j) s := by
  refine after_step fun i s' h j => ?_
  split at h
  · cases h
    exact ref_setInode_add (s := s) (i := i) rfl j
  · cases h

theorem still_iputDecide (i : Slot) (unlinked : Bool) : Still p (iputDecide sb i unlinked) := by
  unfold iputDecide
  split
  · refine .bind (fun s => after_step fun _ s' h => ?_) fun r => ?_
    · cases h
      exact fun _ => rfl
    · split
      · refine fun s => after_step fun _ s' h => ?_
        split at h
        · cases h
          exact sameRefs_setInode rfl
        · cases h
      · exact .ret ()
  · exact .ret ()

theorem after_iput (hi : 1 ≤ (s.inode i).ref) :
    (iput sb i).after p (fun _ s' => ∀ j, (s'.inode j).ref + one i j = (s.inode j).ref) s := by
  have hacq : Still p (iputAcquire i) := by
    refine fun s => after_step fun _ s' h => ?_
    split at h
    · cases h
    · cases h
      exact sameRefs_setInode rfl
  have hrel : Still p (iputRelease i) := by
    refine fun s => after_step fun _ s' h => ?_
    cases h
    exact sameRefs_setInode rfl
  refine hacq.andThen fun unlinked s1 h1 => (still_iputDecide i unlinked).andThen fun _ s2 h2 =>
    hrel.andThen fun _ s3 h3 => after_step fun _ s' h j => ?_
  have hsame := (h1.trans h2).trans h3
  cases h
  have hpos : 1 ≤ (s3.inode i).ref := by rw [hsame i]; exact hi
  rw [← hsame j]
  exact ref_setInode_sub (s := s3) (i := i) (Nat.sub_add_cancel hpos) j

theorem after_iunlockput (hi : 1 ≤ (s.inode i).ref) :
    (iunlockput sb i).after p
    (fun _ s' => ∀ j, (s'.inode j).ref + one i j = (s.inode j).ref) s := by
  refine (still_iunlock i).andThen fun _ s1 h1 => ?_
  refine after_mono (after_iput (by rw [h1 i]; exact hi)) fun _ s' h j => ?_
  rw [h j, h1 j]

theorem after_walkFrom (parent : Bool) (names : List Name) (ip : Slot) (s : FsSt π)
    (hip : 1 ≤ (s.inode ip).ref) :
    (walkFrom sb parent ip names).after p (fun r s' => ∀ j, (s'.inode j).ref + one ip j
      = (s.inode j).ref + r.elim 0 fun x => one x.1 j) s := by
  induction names generalizing ip s with
  | nil =>
    unfold walkFrom
    split
    · exact after_bind (after_mono (after_iput hip) fun _ s' h => after_ret h)
    · exact after_ret fun _ => rfl
  | cons name rest ih =>
    unfold walkFrom
    refine (still_ilock ip).andThen fun _ s1 h1 => (still_typeOf false ip).andThen fun t s2 h2 => ?_
    have hsame := h1.trans h2
    have hip2 : 1 ≤ (s2.inode ip).ref := by rw [hsame ip]; exact hip
    have hput : ∀ {s3 : FsSt π}, SameRefs s s3 → (iunlockput sb ip >>= fun _ =>
        (pure none : FsProg π (Option (Slot × Name)))).after p (fun r s' => ∀ j,
          (s'.inode j).ref + one ip j = (s.inode j).ref + r.elim 0 fun x => one x.1 j) s3 := by
      intro s3 h₃
      refine after_bind (after_mono (after_iunlockput (by rw [h₃ ip]; exact hip))
        fun _ s' h => after_ret fun j => ?_)
      rw [h j, h₃ j]
      rfl
    split
    · exact hput hsame
    split
    · refine (still_iunlock ip).andThen fun _ s3 h₃ => after_ret fun j => ?_
      rw [h₃ j, hsame j]
      rfl
    -- the next inode is got before the last one is given back
    refine after_bind ((still_dirscan ip name).andThen fun o s3 h₃ => ?_)
    have hsame3 := hsame.trans h₃
    cases o with
    | none => exact after_ret (hput hsame3)
    | some x =>
      refine after_bind (after_mono (after_iget x.1 s3) fun next s4 h₄ =>
        after_ret ?_)
      dsimp only
      refine after_bind (after_mono (after_iunlockput ?_) fun _ s5 h₅ => ?_)
      · have := h₄ ip
        have := hsame3 ip
        omega
      · refine after_mono (ih next s5 ?_) fun r s' h j => ?_
        · have h4 := h₄ next
          have h5 := h₅ next
          by_cases hn : next = ip
          · subst hn
            have := hsame3 next
            omega
          · simp only [one, if_neg hn, if_true] at h4 h5
            omega
        · have h4 := h₄ j
          have h5 := h₅ j
          have h6 := h j
          have h3 := hsame3 j
          omega

theorem after_namei (path : Path) (s : FsSt π) :
    (namei sb path).after p (fun r s' => ∀ j, (s'.inode j).ref
      = (s.inode j).ref + r.elim 0 fun i => one i j) s := by
  have hstart : (startOf path : FsProg π Slot).after p
      (fun i s' => ∀ j, (s'.inode j).ref = (s.inode j).ref + one i j) s := by
    unfold startOf
    split
    · exact after_iget ROOTINO s
    · exact after_idupCwd s
  refine after_bind (after_bind (after_mono hstart fun ip s1 h₁ => ?_))
  have hip : 1 ≤ (s1.inode ip).ref := by
    have := h₁ ip
    simp only [one, if_true] at this
    omega
  refine after_mono (after_walkFrom false _ ip s1 hip) fun r s' h => after_ret fun j => ?_
  have h1 := h₁ j
  have h2 := h j
  cases r <;> simp only [Option.map_none, Option.map_some, Option.elim_none, Option.elim_some]
    at h2 ⊢ <;> omega

end Refs

/-! ## Memory -/

/-- The new address space is sound, and nothing but free pages has been written to. -/
structure New (k : Kmem) (sz : Nat) (t : Pgdir) (k' : Kmem) : Prop where
  ok : t.Ok
  size : sz ≤ KERNBASE
  above : Above t sz
  below : Below t sz
  pages : k'.free + t.pages = k.free
  mem : ∀ q, q ∉ k.free → k'.mem q = k.mem q

/-- The free pages are the same, and nothing but free pages has been written to. -/
structure Undone (k k' : Kmem) : Prop where
  free : k'.free = k.free
  mem : ∀ q, q ∉ k.free → k'.mem q = k.mem q

variable {ly : Layout} {k k' k1 : Kmem} {t t' : Pgdir} {sz : Nat}

theorem New.undo (h : New k sz t k1) (hw : Within k1 t k' t') (ht : t'.Ok) :
    Undone k (freevm t' k') := by
  obtain ⟨hfree, hmem⟩ := hw.freevm ht
  refine ⟨hfree.trans h.pages, fun q hq => ?_⟩
  rw [hmem q (by rwa [h.pages]), h.mem q hq]

theorem load_spec {img : Image} {r : Option (Nat × Pgdir)} (hnd : k.free.Nodup)
    (h : load ly img k = .ok (r, k')) :
    (r = none → Undone k k') ∧ ∀ sz t, r = some (sz, t) → New k sz t k' := by
  unfold load at h
  split at h
  · cases h
    exact ⟨fun _ => ⟨rfl, fun _ _ => rfl⟩, nofun⟩
  obtain ⟨o, k1, hset, hmem, ⟨d, rfl, hd, -, -, hlow, -, hc⟩ | ⟨rfl, hfree, -⟩⟩ :=
    setupkvm_spec ly k
  · simp only [hset, bind, Except.bind] at h
    have hnew : New k 0 d k1 := by
      refine ⟨hd, Nat.zero_le _, fun v _ hv => hlow v hv, fun v hv => ?_, hc, hmem⟩
      exact absurd hv (Nat.not_lt_zero v)
    have hnd1 : (k1.free + d.pages).Nodup := by rwa [hc]
    cases hseg : loadSegments img.segments 0 d k1 with
    | error e =>
      rw [hseg] at h
      cases h
    | ok x =>
      obtain ⟨r1, t, k2⟩ := x
      obtain ⟨ht, -, hspec⟩ :=
        loadSegments_spec hd hnew.size hnew.above hnew.below hnd1 hseg
      have hw := loadSegments_within hd hnew.size hnew.above hnew.below hnd1 hseg
      rw [hseg] at h
      cases r1 with
      | none =>
        cases h
        exact ⟨fun _ => hnew.undo hw ht, nofun⟩
      | some sz =>
        cases h
        refine ⟨nofun, ?_⟩
        rintro _ _ ⟨⟩
        obtain ⟨hsz, hab, hbel⟩ := hspec sz rfl
        refine ⟨ht, hsz, hab, hbel, hw.pages.trans hc, fun q hq => ?_⟩
        rw [hw.mem q (by rwa [hc]), hmem q hq]
  · simp only [hset, bind, Except.bind] at h
    cases h
    exact ⟨fun _ => ⟨hfree, hmem⟩, nofun⟩

/-! ## The whole call -/

variable {sb : Superblock} {prog : FsSt (Fin N) → Slot → Program} {p : Fin N} {path : Path}
  {args : List (List Byte)} {w w' : World N}

/-- What a failed call leaves: all but the memory and the inodes is equal. -/
structure Left (w w' : World N) : Prop where
  proc : w'.sys.proc = w.sys.proc
  tf : w'.tf = w.tf
  name : w'.name = w.name
  outstanding : w'.outstanding = w.outstanding
  refs : SameRefs w.fs w'.fs
  kmem : Undone w.sys.kmem w'.sys.kmem

theorem ok_of_toOption {ε α : Type} {x : Except ε α} {a : α} (h : x.toOption = some a) :
    x = .ok a := by
  cases x with
  | error e => cases h
  | ok b =>
    cases h
    rfl

theorem finish_left (hnd : w.sys.kmem.free.Nodup) {w₁ : World N} {e : Nat}
    (hnew : New w.sys.kmem sz t w₁.sys.kmem)
    (hleft : ∀ k, Undone w.sys.kmem k → Left w (w₁.setKmem k))
    (h : (do
      let (r, t, k) ← (makeStack sz t w₁.sys.kmem).toOption
      match r with
      | none => return (-1, w₁.setKmem (freevm t k))
      | some sz =>
        let (r, k) ← (pushStack args sz t k).toOption
        match r with
        | none => return (-1, w₁.setKmem (freevm t k))
        | some sp => return (0, (w₁.setKmem k).commit p path sz t ⟨e, sp⟩) : Option (Int × World N))
      = some (-1, w')) : Left w w' := by
  have hnd1 : (w₁.sys.kmem.free + t.pages).Nodup := by rwa [hnew.pages]
  obtain ⟨⟨r, t1, k1⟩, hst, h⟩ := Option.bind_eq_some_iff.1 h
  have hst := ok_of_toOption hst
  obtain ⟨ht1, -, -⟩ := makeStack_spec hnew.ok hnew.above hnew.below hnd1 hst
  have hw := makeStack_within hnew.ok hnew.above hnd1 hst
  cases r with
  | none =>
    cases h
    exact hleft _ (hnew.undo hw ht1)
  | some sz' =>
    obtain ⟨⟨r, k2⟩, hpush, h⟩ := Option.bind_eq_some_iff.1 h
    have hw2 := pushStack_within ht1 (ok_of_toOption hpush)
    cases r with
    | none =>
      cases h
      exact hleft _ (hnew.undo (hw.trans hw2) ht1)
    | some sp => cases h

theorem exec_left (hnd : w.sys.kmem.free.Nodup)
    (h : exec ly sb prog p path args w = some (-1, w')) : Left w w' := by
  obtain ⟨⟨r, fs1⟩, hnamei, h⟩ := Option.bind_eq_some_iff.1 h
  have href := after_namei path w.fs r fs1 hnamei
  have hout : w.outstanding + 1 - 1 = w.outstanding := Nat.add_sub_cancel ..
  cases r with
  | none =>
    cases h
    exact ⟨rfl, rfl, rfl, hout, href, rfl, fun _ _ => rfl⟩
  | some ip =>
    obtain ⟨⟨_, fs2⟩, hlock, h⟩ := Option.bind_eq_some_iff.1 h
    have hsame := still_ilock ip fs1 _ fs2 hlock
    obtain ⟨⟨r, k1⟩, hload, h⟩ := Option.bind_eq_some_iff.1 h
    obtain ⟨hnone, hsome⟩ := load_spec hnd (ok_of_toOption hload)
    obtain ⟨⟨_, fs3⟩, hput, h⟩ := Option.bind_eq_some_iff.1 h
    -- the reference that `namei` got is the one given back
    have hrefs : SameRefs w.fs fs3 := by
      have hip : 1 ≤ (fs2.inode ip).ref := by
        have := href ip
        rw [hsame ip]
        simp only [Option.elim_some, one, if_true] at this
        omega
      intro j
      have h1 := href j
      have h2 := hsame j
      have h3 := after_iunlockput hip _ fs3 hput j
      simp only [Option.elim_some] at h1
      omega
    cases r with
    | none =>
      cases h
      exact ⟨rfl, rfl, rfl, hout, hrefs, hnone rfl⟩
    | some x =>
      let w1 : World N := ({ w.begin_op with fs := fs3 }.setKmem k1).end_op
      have hleft : ∀ k, Undone w.sys.kmem k → Left w (w1.setKmem k) :=
        fun _ hk => ⟨rfl, rfl, rfl, hout, hrefs, hk⟩
      exact finish_left hnd (hsome x.1 x.2 rfl) hleft h

/-- In a memory in which no page is in two places, with the address space `t` of the process and any
others `ts`: if `exec` returns −1, wherever it failed, then the process table, the trap frames and
the names are as before; so are the page table and the contents of the address space and of the
others; and the free pages, the references to every inode and the count of outstanding transactions
are those before the call. -/
theorem exec_failed {ts : List Pgdir} (hpg : (w.sys.proc p).pgdir = some t)
    (hD : Distinct w.sys.kmem (t :: ts)) (h : exec ly sb prog p path args w = some (-1, w')) :
    w'.sys.proc = w.sys.proc ∧ w'.tf = w.tf ∧ w'.name = w.name ∧
    (w'.sys.proc p).pgdir = some t ∧
    (∀ t' ∈ t :: ts, ∀ q ∈ t'.pages, w'.sys.kmem.mem q = w.sys.kmem.mem q) ∧
    w'.sys.kmem.free = w.sys.kmem.free ∧
    (∀ i, (w'.fs.inode i).ref = (w.fs.inode i).ref) ∧
    w'.outstanding = w.outstanding := by
  have hl := exec_left (Multiset.nodup_add.1 hD).1 h
  refine ⟨hl.proc, hl.tf, hl.name, by rw [hl.proc, hpg], fun t' ht' q hq => ?_, hl.kmem.free,
    hl.refs, hl.outstanding⟩
  exact hl.kmem.mem q (hD.not_free ht' hq)

def lone : World 1 where
  sys :=
    { proc := fun _ => ⟨.RUNNING, 1, 2, none, some onePage, PGSIZE, none, 0, 0,
      fun _ => none, some 0⟩
      nextpid := 2
      kmem := ⟨List.range' 4 100, fun _ _ => 0⟩
      kpgdir := onePage
      pipes := []
      file := fun _ => 0
      inode := fun _ => 0 }
  fs :=
    { disk := fun _ _ => 0
      inode := fun _ => ⟨ROOTDEV, 1, 1, none, true, ⟨T_FILE, 0, 0, 1, 0, fun _ => 0⟩⟩
      file := fun _ => ⟨.none, 0, false, false, 0, 0⟩
      proc := fun _ => ⟨true, some 0, fun _ => none⟩
      note := fun _ => .none
      stamp := fun _ => 0
      clock := 0
      given := []
      logged := [] }
  outstanding := 0
  tf := fun _ => ⟨0, 0⟩
  name := fun _ => []

/-- `exec` of a program without segments, for which there is memory enough. -/
theorem exec_lone (ly : Layout) {args : List (List Byte)} {k : Kmem} (ok : Bool)
    (hnd : k.free.Nodup) (hF : 1100 < k.freelist.length)
    (hpush : ∀ t k', StackPage t (2 * PGSIZE) → t.User (2 * PGSIZE / PGSIZE - 1) →
      ∃ r k'', pushStack args (2 * PGSIZE) t k' = .ok (r, k'') ∧ r.isSome = ok) :
    ∃ w', exec ly ⟨0, 0, 0, 0, 0, 0, 0⟩ (fun _ _ => ⟨⟨true, []⟩, 0⟩) 0 [] args (lone.setKmem k) =
      some (if ok then 0 else -1, w') := by
  obtain ⟨d, k1, t, k2, hset, hstack, -⟩ := emptyImage_enough ly hnd hF
  have hload : load ly ⟨true, []⟩ k = .ok (some (0, d), k1) := by
    simp only [load, hset, bind, Except.bind]
    rfl
  have hnew := (load_spec hnd hload).2 0 d rfl
  have hpage := makeStack_stackPage hnew.ok hnew.above hnew.below
    (by rw [hnew.pages]; exact hnd) hstack
  obtain ⟨r, k3, hrun, rfl⟩ := hpush t k2 hpage (makeStack_user hnew.ok hstack)
  obtain ⟨fs1, fs2, fs3, hname, hlock, hput⟩ : ∃ fs1 fs2 fs3,
      (namei ⟨0, 0, 0, 0, 0, 0, 0⟩ []).run 0 lone.fs = some (some (0 : Slot), fs1) ∧
      (ilock ⟨0, 0, 0, 0, 0, 0, 0⟩ 0).run 0 fs1 = some ((), fs2) ∧
      (iunlockput ⟨0, 0, 0, 0, 0, 0, 0⟩ 0).run 0 fs2 = some ((), fs3) :=
    ⟨_, _, _, rfl, rfl, rfl⟩
  simp only [exec, World.begin_op, World.end_op, World.setKmem, hname, hlock, hload, hput,
    hstack, hrun, bind, Option.bind, Except.toOption]
  cases r <;> exact ⟨_, rfl⟩

/-- A file that does not begin with the header of a program; and, when the inode has been given
back, an argument that does not fit in the page of the stack. -/
theorem exec_failed_lone : ∃ w1 w2,
    exec someLayout ⟨0, 0, 0, 0, 0, 0, 0⟩ (fun _ _ => ⟨⟨false, []⟩, 0⟩) 0 [] []
      (lone.setKmem (freePages 4)) = some (-1, w1) ∧ (w1.fs.inode 0).ref = 1 ∧
    exec someLayout ⟨0, 0, 0, 0, 0, 0, 0⟩ (fun _ _ => ⟨⟨true, []⟩, 0⟩) 0 []
      [List.replicate PGSIZE 1] (lone.setKmem (freePages 4)) = some (-1, w2) ∧
    (w2.fs.inode 0).ref = 1 ∧ w2.sys.kmem.free = (freePages 4).free := by
  have hD : Distinct (freePages 4) [onePage] := distinct_onePage 2000
  have hlen : (freePages 4).freelist.length = 2000 := List.length_range'
  generalize freePages 4 = k at hD hlen ⊢
  obtain ⟨w1, h1⟩ : ∃ w1, exec someLayout ⟨0, 0, 0, 0, 0, 0, 0⟩ (fun _ _ => ⟨⟨false, []⟩, 0⟩) 0 []
      [] (lone.setKmem k) = some (-1, w1) := ⟨_, rfl⟩
  obtain ⟨w2, h2⟩ := exec_lone someLayout false (Multiset.nodup_add.1 hD).1 (by omega)
    fun t k' hpage hu => ⟨none, k', hpage.pushStack_long hu List.length_replicate, rfl⟩
  obtain ⟨-, -, -, -, -, -, href1, -⟩ := exec_failed rfl hD h1
  obtain ⟨-, -, -, -, -, hfree, href2, -⟩ := exec_failed rfl hD h2
  exact ⟨w1, w2, h1, href1 0, h2, href2 0, hfree⟩

end Xv6.Exec
