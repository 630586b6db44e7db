import Xv6.Fs.Exhaust

/-!
# The last reference to an unlinked inode

Processes take and give back references to cached inodes with `iget`, `idup` and `iput`, and change
the number of links under the lock. `iput` tests `ip->ref` and decrements it in two critical
sections. If in between another process makes the same test, both read 2, both decrement, and the
inode stays allocated although nobody refers to it.

This is all that can go wrong: if whoever reads `ip->ref` as more than 1 leaves a reference behind
that does not belong to such a process, an unlinked inode that is loaded has a reference.
-/

namespace Xv6.Fs.LastPut

open Lib
open Function (update update_eq_self update_self)

/-! ## The system -/

section System

variable {π : Type} [DecidableEq π]

def idup (i : Slot) : FsProg π Slot :=
  .step .other fun p s =>
    .done i ((s.setInode i { s.inode i with ref := (s.inode i).ref + 1 }).setNote p
      ((s.note p).take i (s.inode i).inum))

inductive Call where
  | get (e : Nat)
  | dup (i : Slot)
  | put (i : Slot)
  | load (i : Slot)
  | setLinks (i : Slot) (n : BitVec 16)

def Call.slot? : Call → Option Slot
  | .get _ => none
  | .dup i => some i
  | .put i => some i
  | .load i => some i
  | .setLinks i _ => some i

def Call.prog (sb : Superblock) : Call → FsProg π Unit
  | .get e => iget e >>= fun _ => pure ()
  | .dup i => idup i >>= fun _ => pure ()
  | .put i => iput sb i
  | .load i => ilock sb i >>= fun _ => iunlock i
  | .setLinks i n => do
    ilock sb i
    setFields sb i fun d => { d with nlink := n }
    iunlock i

def Call.Allowed (c : Call) (p : π) (s : FsSt π) : Prop := ∀ i ∈ c.slot?, i ∈ (s.note p).slots

instance (c : Call) (p : π) (s : FsSt π) : Decidable (c.Allowed p s) := by
  unfold Call.Allowed
  infer_instance

def cacheSys (sb : Superblock) : Sys π (FsSt π) Lab where
  calls p s x := ∃ c : Call, c.Allowed p s ∧ x = c.prog sb
  env _ _ := False

def start (d : Disk) : FsSt π where
  disk := d
  inode _ := ⟨0, 0, 0, none, false, Dinode.zero⟩
  file _ := ⟨.none, 0, false, false, 0, 0⟩
  proc _ := ⟨true, none, fun _ => none⟩
  note _ := Note.none
  stamp _ := 0
  clock := 0
  given := []
  logged := []

def callOf (sb : Superblock) (p : π) (s : FsSt π) (c : Call) : Option (FsProg π Unit) :=
  if c.Allowed p s then some (c.prog sb) else none

theorem callOf_calls (sb : Superblock) (p : π) (s : FsSt π) (c : Call) (x : FsProg π Unit)
    (h : callOf sb p s c = some x) : (cacheSys sb).calls p s x := by
  simp only [callOf, Option.ite_none_right_eq_some, Option.some.injEq] at h
  exact ⟨c, h.1, h.2.symm⟩

variable [Fintype π]

instance (s : FsSt π) (i : Slot) : Decidable (Leaves s i) := by
  unfold Leaves
  infer_instance

/-- If process `p` is about to read `ip->ref` in `iput`, it reads 1 or leaves a reference that does
not belong to a process which is about to decrement `ip->ref`. -/
def Careful (c : Config π (FsSt π) Lab) (p : π) : Prop :=
  match c.next p with
  | some (.readRef i) => Leaves c.shared i
  | _ => True

instance (c : Config π (FsSt π) Lab) (p : π) : Decidable (Careful c p) := by
  unfold Careful
  split <;> infer_instance

end System

/-! ## The protocol -/

variable {π : Type} [DecidableEq π] [Fintype π] {sb : Superblock} {p : π} {s s' : FsSt π} {i : Slot}
  {x : Inode π} {n : Note} {e : Nat} {v : View} {α : Type}

structure Inv (s : FsSt π) : Prop where
  tallies : Tallies s.inode s.file s.proc s.note
  opens : Opens s.file s.proc
  holding : Holding s.inode s.file s.proc s.note
  unlinked : Unlinked s.inode s.note
  live : ∀ p, (s.proc p).live = true

def putProto : Proto π (FsSt π) Lab View where
  inv := Inv
  guar _ _ := True
  view := view
  lab _ _ _ := True
  cond _ l s :=
    match l with
    | .readRef i => Leaves s i
    | _ => True
  panics _ _ := True
  faults := False
  idle _ v := v.note.put = none

omit [Fintype π] in
theorem view_content {P : View → Prop} (hi : s'.inode = update s.inode i x)
    (hn : s'.note = s.note) (hf : s'.file = s.file) (hp : s'.proc = s.proc)
    (h : P ((view p s).setHeld i (x.heldBy p))) : P (view p s') := by
  have hview : view p s' = (view p s).setHeld i (x.heldBy p) := by
    have hslot := view_slot s p i x (s.note p)
    unfold view View.setNote View.setHeld FsSt.setInode FsSt.setNote at hslot
    unfold view View.setHeld
    rw [update_eq_self] at hslot
    rw [hi, hn, hf, hp]
    exact hslot
  rw [hview]
  exact h

theorem keeps (hs : Inv s) (hi : s'.inode = update s.inode i x)
    (hn : s'.note = update s.note p n) (hf : s'.file = s.file) (hp : s'.proc = s.proc)
    (h : SlotChange p s i x n)
    (unlinked : Unlinked (update s.inode i x) (update s.note p n)) :
    putProto.Keeps p s s' := by
  have hc := h.change hs.tallies hs.holding
  refine ⟨⟨?_, ?_, ?_, ?_, ?_⟩, fun q hq => .inl ?_, trivial⟩
  · rw [hi, hn, hf, hp]
    exact hs.tallies.move hc.proc hc.note hc.bal hc.toks hc.put hc.inum
  · rw [hf, hp]
    exact hs.opens
  · rw [hi, hn, hf, hp]
    exact hs.holding.move hc.proc hc.note (fun j q hq => (hc.lock j q hq).1)
      (fun _ _ _ _ _ => ⟨rfl, rfl⟩) hc.uses
  · rw [hi, hn]
    exact unlinked
  · rw [hp]
    exact hs.live
  · refine view_congr (by rw [hp]) ?_ (fun j => ?_) (fun j hl => ?_) (fun _ _ _ => by rw [hf])
    · rw [hn]
      exact hc.note q hq
    · rw [hi]
      exact hc.lock j q hq
    · rw [hi]
      exact hc.type j q hq hl

omit [DecidableEq π] in
theorem dropping_lt (hs : Inv s) (hput : (s.note p).put = none) (hi : i ∈ (s.note p).slots) :
    dropping s.note i < (s.inode i).ref :=
  hs.tallies.dropping_lt hs.opens (by simp [hput]) (.inl hi)

/-! ## References -/

theorem keeps_take (hs : Inv s) (href : x.ref = (s.inode i).ref + 1)
    (hlock : x.lock = (s.inode i).lock)
    (hold : 0 < (s.inode i).ref → x.inum = (s.inode i).inum ∧ x.type? = (s.inode i).type?)
    (he : x.inum = e)
    (hd : x.valid = true → (s.inode i).valid = true ∧ (s.inode i).d.nlink = x.d.nlink) :
    putProto.Keeps p s ((s.setInode i x).setNote p ((s.note p).take i e)) := by
  exact keeps hs rfl rfl rfl rfl
    (.take hs.tallies hs.opens hs.holding (hs.live p) href hlock hold he) (hs.unlinked.take href hd)

theorem wp_iget {Q : Slot → View → Prop} (hput : v.note.put = none)
    (h : ∀ i v', v'.note.put = none → Q i v') : wp putProto p (iget e) Q v := by
  refine wp_step trivial fun s hs hv _ => ?_
  subst hv
  cases hf : findInode s e with
  | some i =>
    obtain ⟨-, -, rfl⟩ := findInode_some hf
    refine ⟨keeps_take hs rfl rfl (fun _ => ⟨rfl, rfl⟩) rfl (fun hv => ⟨hv, rfl⟩), ?_⟩
    change Q i (view p _)
    rw [view_slot]
    exact h i _ hput
  | none =>
    dsimp only
    cases hg : findEmpty s with
    | none => trivial
    | some i =>
      have hz := findEmpty_some hg
      refine ⟨keeps_take hs (by rw [hz]) rfl (fun hpos => by omega) rfl (fun hv => nomatch hv), ?_⟩
      change Q i (view p _)
      rw [view_slot]
      exact h i _ hput

theorem wp_idup {Q : Slot → View → Prop} (hput : v.note.put = none)
    (h : ∀ v', v'.note.put = none → Q i v') : wp putProto p (idup i) Q v := by
  refine wp_step trivial fun s hs hv _ => ?_
  subst hv
  refine ⟨keeps_take hs rfl rfl (fun _ => ⟨rfl, rfl⟩) rfl (fun hv => ⟨hv, rfl⟩), ?_⟩
  change Q i (view p _)
  rw [view_slot]
  exact h _ hput

/-! ## Locks -/

/-- The process holds the lock of slot `i`, to which it refers, outside of `iput`. -/
def HoldsLock (i : Slot) (v : View) : Prop :=
  v.note.put = none ∧ i ∈ v.note.slots ∧ v.held i ≠ none

omit [Fintype π] in
theorem lock_of_held (h : (view p s).held i ≠ none) : (s.inode i).lock = some p := by
  by_contra hl
  exact h (heldBy_none.2 hl)

theorem keeps_locked (hs : Inv s) (hinode : s'.inode = update s.inode i x)
    (hnote : s'.note = update s.note p n) (hf : s'.file = s.file) (hp : s'.proc = s.proc)
    (hput : (s.note p).put = none) (hi : i ∈ (s.note p).slots)
    (hfree : ∀ q, q ≠ p → (s.inode i).lock ≠ some q)
    (hx : ∀ q, q ≠ p → x.lock ≠ some q) (href : x.ref = (s.inode i).ref)
    (hinum : x.inum = (s.inode i).inum) (htoks : n.toks = (s.note p).toks) (hn : n.put = none) :
    putProto.Keeps p s s' := by
  have hc : SlotChange p s i x n := by
    refine .same (hs.live p) htoks href hinum (fun q hq => ?_) (fun q hq hl => ?_)
      (fun j st hj => ?_) fun _ => .inl hi
    · exact iff_of_false (hx q hq) (hfree q hq)
    · exact absurd hl (hfree q hq)
    · rw [hn] at hj
      cases hj
  refine keeps hs hinode hnote hf hp hc (hs.unlinked.set (fun j _ hj => ?_) fun _ _ => ?_)
  · rw [hn] at hj
    cases hj
  · rw [hn, hput, href]
    exact Nat.add_lt_add_right (dropping_lt hs hput hi) _

variable {Q : Unit → View → Prop}

theorem wp_ilock (hput : v.note.put = none) (hi : i ∈ v.note.slots)
    (h : ∀ v', HoldsLock i v' → Q () v') : wp putProto p (ilock sb i) Q v := by
  refine wp_step trivial fun s hs hv _ => ?_
  subst hv
  have hslots : i ∈ ((s.note p).locked i (s.inode i).inum).slots := by
    rw [Note.slots, Note.toks_locked]
    exact hi
  have hlocked : ((s.note p).locked i (s.inode i).inum).put = none :=
    (Note.put_locked _ _ _).trans hput
  dsimp only
  split
  · trivial
  · cases hl : (s.inode i).lock with
    | some q => trivial
    | none =>
      have hfree : ∀ q, q ≠ p → (s.inode i).lock ≠ some q := fun q _ => by
        simp [hl]
      have hmine : ∀ q, q ≠ p → some p ≠ some q := fun q hq he => hq (Option.some.inj he).symm
      dsimp only
      split
      · refine ⟨keeps_locked hs rfl rfl rfl rfl hput hi hfree hmine rfl rfl (Note.toks_locked _ _ _)
          hlocked, ?_⟩
        change Q () (view p _)
        rw [view_locked (x := { s.inode i with lock := some p }) _ rfl rfl]
        exact h _ ⟨hlocked, hslots, by simp⟩
      · split
        · trivial
        · refine ⟨keeps_locked hs rfl rfl rfl rfl hput hi hfree hmine rfl rfl
            (Note.toks_locked _ _ _) hlocked, ?_⟩
          change Q () (view p _)
          rw [view_locked _ rfl rfl]
          exact h _ ⟨hlocked, hslots, by simp⟩

theorem wp_setFields {g : Dinode → Dinode} (hv : HoldsLock i v) (h : ∀ v', HoldsLock i v' →
    Q () v') :
    wp putProto p (setFields sb i g) Q v := by
  refine wp_step trivial fun s hs hv' _ => ?_
  subst hv'
  obtain ⟨hput, hi, hheld⟩ := hv
  have hl := lock_of_held hheld
  have hmine : ∀ q, q ≠ p → (s.inode i).lock ≠ some q := fun q hq he => by
    rw [hl] at he
    exact hq (Option.some.inj he).symm
  dsimp only
  split
  · refine ⟨keeps_locked hs rfl (update_eq_self p s.note).symm rfl rfl hput hi hmine hmine
      rfl rfl rfl hput, ?_⟩
    refine view_content (P := Q ()) (s := s) (i := i) rfl rfl rfl rfl (h _ ⟨hput, hi, ?_⟩)
    rw [View.held_setHeld, update_self]
    exact fun hnone => heldBy_none.1 hnone hl
  · trivial

theorem wp_iunlock (hv : HoldsLock i v) (h : ∀ v', v'.note.put = none → Q () v') :
    wp putProto p (iunlock i) Q v := by
  refine wp_step trivial fun s hs hv' _ => ?_
  subst hv'
  obtain ⟨hput, hi, hheld⟩ := hv
  have hl := lock_of_held hheld
  dsimp only
  split
  · trivial
  · refine ⟨keeps_locked hs rfl rfl rfl rfl hput hi (fun q hq he => ?_) (fun _ _ => nofun) rfl rfl
      rfl hput, ?_⟩
    · rw [hl] at he
      exact hq (Option.some.inj he).symm
    · change Q () (view p _)
      rw [view_slot]
      exact h _ hput

/-! ## `iput` -/

/-- Where a process is in `iput` while it has the lock of slot `i`, and the type of the inode if
that is valid. -/
def Putting (i : Slot) (st : Stage) (o : Option (BitVec 16)) (v : View) : Prop :=
  v.note.put = some (i, st) ∧ v.held i = some o

theorem wp_iputAcquire {Q : Bool → View → Prop} (hput : v.note.put = none) (hi : i ∈ v.note.slots)
    (h : ∀ r o v', Putting i (if r then .testing else .dropping) o v' → Q r v') :
    wp putProto p (iputAcquire i) Q v := by
  refine wp_step trivial fun s hs hv _ => ?_
  subst hv
  have hput' : (s.note p).put = none := hput
  dsimp only
  cases hl : (s.inode i).lock with
  | some q => trivial
  | none =>
    dsimp only
    generalize hr : ((s.inode i).valid && (s.inode i).d.nlink == 0) = r
    refine ⟨keeps hs rfl rfl rfl rfl (.testing (hs.live p) hi hl)
      (hs.unlinked.testing hput' hr), ?_⟩
    change Q r (view p _)
    rw [view_locked (x := { s.inode i with lock := some p }) _ rfl rfl]
    exact h r _ _ ⟨rfl, update_self _ _ _⟩

variable {st : Stage} {o : Option (BitVec 16)}

theorem wp_iputRef {Q : Nat → View → Prop} (hv : Putting i st o v)
    (h : ∀ r v', Putting i (if r = 1 then .freeing else .dropping) o v' → Q r v') :
    wp putProto p (iputRef i) Q v := by
  refine wp_step trivial fun s hs hv' hcond => ?_
  subst hv'
  obtain ⟨hput, hheld⟩ := hv
  have hi := hs.tallies.puts p i st hput
  have hl := (heldBy_some.1 hheld).1
  have hc : SlotChange p s i (s.inode i) { s.note p with
      put := some (i, if (s.inode i).ref = 1 then .freeing else .dropping) } := by
    refine .same (hs.live p) rfl rfl rfl (fun _ _ => Iff.rfl) (fun _ _ _ => rfl) (fun j st hp => ?_)
      (fun _ => .inl hi)
    cases hp
    exact hi
  refine ⟨keeps hs (update_eq_self i s.inode).symm rfl rfl rfl hc ?_, ?_⟩
  · refine hs.unlinked.set (fun j hj hp => ?_) fun hv hn => ?_
    · exact absurd (congrArg Prod.fst (Option.some.inj hp)).symm hj
    · have hlt := hs.unlinked i hv hn
      rcases hcond with hone | hmore
      · simp only [hone, if_true, Option.some.injEq, Prod.mk.injEq, reduceCtorEq, and_false,
          if_false]
        omega
      · have hne : (s.inode i).ref ≠ 1 := by omega
        simp only [hne, if_false, if_true]
        omega
  · change Q _ (view p _)
    rw [view_setNote]
    exact h _ _ ⟨rfl, hheld⟩

theorem wp_iputFree (hv : Putting i st o v) (h : ∀ v', Putting i st none v' → Q () v') :
    wp putProto p (iputFree sb i) Q v := by
  refine wp_step trivial fun s hs hv' _ => ?_
  subst hv'
  obtain ⟨hput, hheld⟩ := hv
  have hi := hs.tallies.puts p i st hput
  have hl := (heldBy_some.1 hheld).1
  dsimp only
  split
  · rename_i t _
    have hc : SlotChange p s i { s.inode i with d := t.ip, valid := false } (s.note p) := by
      refine .same (hs.live p) rfl rfl rfl (fun _ _ => Iff.rfl) (fun q hq he => ?_)
        (hs.tallies.puts p) (fun _ => .inl hi)
      rw [hl] at he
      exact absurd (Option.some.inj he).symm hq
    refine ⟨keeps hs rfl (update_eq_self p s.note).symm rfl rfl hc ?_, ?_⟩
    · exact hs.unlinked.set (fun _ _ hj => hj) nofun
    · refine view_content (P := Q ()) (s := s) (i := i) rfl rfl rfl rfl (h _ ⟨hput, ?_⟩)
      rw [View.held_setHeld, update_self]
      exact heldBy_some.2 ⟨hl, rfl⟩
  · trivial

theorem wp_iputRelease (hv : Putting i st o v) (hst : st = .dropping ∨ o = none)
    (h : ∀ v', v'.note.put = some (i, .dropping) → v'.held i = none → Q () v') :
    wp putProto p (iputRelease i) Q v := by
  refine wp_step trivial fun s hs hv' _ => ?_
  subst hv'
  obtain ⟨hput, hheld⟩ := hv
  have hput' : (s.note p).put = some (i, st) := hput
  have hi := hs.tallies.puts p i st hput
  obtain ⟨hl, ho⟩ := heldBy_some.1 hheld
  refine ⟨keeps hs rfl rfl rfl rfl (.release (hs.live p) hi hl)
    (hs.unlinked.release hput' (hst.imp_right ho.trans)), ?_⟩
  change Q () (view p _)
  rw [view_unlocked (x := { s.inode i with lock := none }) _ nofun]
  exact h _ rfl (update_self _ _ _)

theorem wp_iputDrop (hput : v.note.put = some (i, .dropping)) (hheld : v.held i = none)
    (h : ∀ v', v'.note.put = none → Q () v') : wp putProto p (iputDrop i) Q v := by
  refine wp_step trivial fun s hs hv _ => ?_
  subst hv
  have hput' : (s.note p).put = some (i, .dropping) := hput
  have hi := hs.tallies.puts p i .dropping hput'
  have hpos := hs.tallies.pos_of_mem hi
  have hlock : (s.inode i).lock ≠ some p := heldBy_none.1 hheld
  refine ⟨keeps hs rfl rfl rfl rfl (.drop (hs.live p) hpos (hs.tallies.mem_toks hi) hlock)
    (hs.unlinked.drop hput'), ?_⟩
  change Q () (view p _)
  rw [view_slot]
  exact h _ rfl

theorem wp_iput (hput : v.note.put = none) (hi : i ∈ v.note.slots)
    (h : ∀ v', v'.note.put = none → Q () v') : wp putProto p (iput sb i) Q v := by
  refine wp_bind (wp_iputAcquire hput hi fun r o v1 hv1 => wp_bind ?_)
  have hrest : ∀ st o' v2, Putting i st o' v2 → st = .dropping ∨ o' = none →
      wp putProto p (iputRelease i >>= fun _ => iputDrop i) Q v2 := fun st o' v2 hv2 hst =>
    wp_bind (wp_iputRelease hv2 hst fun v3 hp hh => wp_iputDrop hp hh h)
  cases r with
  | false => exact hrest _ _ _ hv1 (.inl rfl)
  | true =>
    refine wp_bind (wp_iputRef hv1 fun r v2 hv2 => ?_)
    split
    · exact wp_iputFree hv2 fun v3 hv3 => hrest _ _ _ hv3 (.inr rfl)
    · next hr =>
      rw [if_neg hr] at hv2
      exact hrest _ _ _ hv2 (.inl rfl)

/-! ## Runs -/

theorem putProto_sound : (putProto (π := π)).Sound (cacheSys sb) := by
  refine ⟨fun p s x _ hidle hx => ?_, fun _ _ _ he => he.elim⟩
  obtain ⟨c, hc, rfl⟩ := hx
  cases c with
  | get e => exact wp_bind (wp_iget hidle fun _ _ h => h)
  | dup i => exact wp_bind (wp_idup hidle fun _ h => h)
  | put i => exact wp_iput hidle (hc i rfl) fun _ h => h
  | load i =>
    exact wp_bind (wp_ilock hidle (hc i rfl) fun _ hl => wp_iunlock hl fun _ h => h)
  | setLinks i n =>
    exact wp_bind (wp_ilock hidle (hc i rfl) fun _ hl => wp_bind (wp_setFields hl fun _ hl' =>
      wp_iunlock hl' fun _ h => h))

omit [DecidableEq π] in
theorem inv_start (d : Disk) : Inv (start d : FsSt π) where
  tallies := by
    refine ⟨fun i => ?_, nofun, nofun⟩
    simp [start, refsTo, ownRefs, openRefs, File.refersTo, Note.slots, Note.none]
  opens := by
    refine ⟨fun f => ?_, fun _ _ => Nat.zero_le _, fun _ _ => rfl⟩
    simp [start, Proc.opens]
  holding := nofun
  unlinked := nofun
  live _ := rfl

/-- An inode that is cached and loaded and has no links has a reference, as long as nobody who reads
`ip->ref` as more than 1 leaves it to processes that have done the same. -/
theorem unlinked_referred (sb : Superblock) (d : Disk) (c : Config π (FsSt π) Lab)
    (hr : Run (cacheSys sb) Careful (.start (start d)) c) (i : Slot)
    (hvalid : (c.shared.inode i).valid = true) (hlinks : (c.shared.inode i).d.nlink = 0) :
    0 < (c.shared.inode i).ref := by
  have hok : ∀ (c : Config π (FsSt π) Lab) p, Careful c p → putProto.Allows c p := by
    intro c p hc l hl
    unfold Careful at hc
    rw [hl] at hc
    cases l <;> exact hc
  have hH := reach_sound putProto_sound hok (Proto.Holds.start (inv_start d) fun _ => rfl) hr
  exact Nat.zero_lt_of_lt (hH.1.unlinked i hvalid hlinks)

theorem unlinked_referred_one_put : ∃ c : Config (Fin 2) (FsSt (Fin 2)) Lab,
    Run (cacheSys Demand.mkfsSb) Careful (.start (start Demand.treeDisk)) c ∧
    (c.shared.inode 0).valid = true ∧ (c.shared.inode 0).d.nlink = 0 ∧
    0 < (c.shared.inode 0).ref := by
  obtain ⟨c, hc, hvalid, hlinks⟩ := Run.of_play (cacheSys Demand.mkfsSb) Careful
    (callOf_calls Demand.mkfsSb) (c := .start (start Demand.treeDisk))
    [.call (0 : Fin 2) (.get 6), .act 0 1, .call 1 (.get 6), .act 1 1, .call 0 (.setLinks 0 0),
      .act 0 3, .call 1 (.put 0), .act 1 4]
    (P := fun c => (c.shared.inode 0).valid = true ∧ (c.shared.inode 0).d.nlink = 0)
    (by decide +kernel)
  exact ⟨c, hc, hvalid, hlinks, unlinked_referred _ _ c hc 0 hvalid hlinks⟩

/-- Two processes give back their references to an unlinked inode. The first reads `ip->ref` as 2,
and so does the second before the first has decremented it: the inode stays allocated. -/
theorem unlinked_lost : ∃ c : Config (Fin 2) (FsSt (Fin 2)) Lab,
    Reach (cacheSys Demand.mkfsSb) (.start (start Demand.treeDisk)) c ∧
    (c.shared.inode 0).valid = true ∧ (c.shared.inode 0).d.nlink = 0 ∧
    (c.shared.inode 0).inum = 6 ∧ (dinode Demand.mkfsSb c.shared.disk 6).type ≠ 0 ∧
    (dinode Demand.mkfsSb c.shared.disk 6).nlink = 0 ∧ (c.shared.inode 0).ref = 0 :=
  Run.of_play (cacheSys Demand.mkfsSb) (fun _ _ => True) (callOf_calls Demand.mkfsSb)
    (c := .start (start Demand.treeDisk))
    [.call (0 : Fin 2) (.get 6), .act 0 1, .call 1 (.get 6), .act 1 1, .call 0 (.setLinks 0 0),
      .act 0 3, .call 0 (.put 0), .act 0 3, .call 1 (.put 0), .act 1 4, .act 0 1]
    (P := fun c => (c.shared.inode 0).valid = true ∧ (c.shared.inode 0).d.nlink = 0 ∧
      (c.shared.inode 0).inum = 6 ∧ (dinode Demand.mkfsSb c.shared.disk 6).type ≠ 0 ∧
      (dinode Demand.mkfsSb c.shared.disk 6).nlink = 0 ∧ (c.shared.inode 0).ref = 0)
    (by decide +kernel)

end Xv6.Fs.LastPut
