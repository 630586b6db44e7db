import Xv6.Fs.Parts

/-!
# The actions keep the invariant

For each kind of action, that it keeps the invariant of the file system and what the other
processes see.
-/

namespace Xv6.Fs

open Lib
open Function (update update_of_ne update_self)

variable {π : Type} {sb : Superblock} {strict tree : Prop} {s s' : FsSt π} {p q : π} {i j : Slot}
  {x : Inode π}

/-! ## What the others see -/

section

variable [DecidableEq π]

omit [DecidableEq π] in
theorem type?_eq (h : x.valid = true) : x.type? = some x.d.type := if_pos h

theorem heldBy_none : x.heldBy p = none ↔ x.lock ≠ some p := by
  unfold Inode.heldBy
  split
  · next h => simp [h]
  · next h => simp [h]

theorem heldBy_some {o : Option (BitVec 16)} :
    x.heldBy p = some o ↔ x.lock = some p ∧ x.type? = o := by
  unfold Inode.heldBy
  split
  · next h => simp [h]
  · next h => simp [h]

theorem view_congr (hproc : s'.proc q = s.proc q) (hnote : s'.note q = s.note q)
    (hheld : ∀ i, (s'.inode i).lock = some q ↔ (s.inode i).lock = some q)
    (htype : ∀ i, (s.inode i).lock = some q → (s'.inode i).type? = (s.inode i).type?)
    (hkeys : ∀ fd f, (s.proc q).ofile fd = some f → (s'.file f).key = (s.file f).key) :
    view q s' = view q s := by
  unfold view
  have h1 : (fun i => (s'.inode i).heldBy q) = fun i => (s.inode i).heldBy q := by
    funext i
    by_cases hl : (s.inode i).lock = some q
    · rw [heldBy_some.2 ⟨hl, rfl⟩, heldBy_some.2 ⟨(hheld i).2 hl, htype i hl⟩]
    · rw [heldBy_none.2 hl, heldBy_none.2 (fun h => hl ((hheld i).1 h))]
  have h2 : (fun fd => ((s'.proc q).ofile fd).map fun f => (s'.file f).key) =
      fun fd => ((s.proc q).ofile fd).map fun f => (s.file f).key := by
    funext fd
    rw [hproc]
    cases hf : (s.proc q).ofile fd with
    | none => rfl
    | some f => exact congrArg some (hkeys fd f hf)
  rw [h1, h2, hproc, hnote]

end

variable [Fintype π]

/-! ## Changes by one process -/

variable [DecidableEq π]

/-- A change by process `p`: the others keep what belongs to them, their locks and their open
files, the references are still counted, and `p` refers to what it locks. -/
structure Change (p : π) (s s' : FsSt π) : Prop where
  proc : ∀ q, q ≠ p → s'.proc q = s.proc q
  note : ∀ q, q ≠ p → s'.note q = s.note q
  lock : ∀ j q, q ≠ p → ((s'.inode j).lock = some q ↔ (s.inode j).lock = some q)
  type : ∀ j q, q ≠ p → (s.inode j).lock = some q → (s'.inode j).type? = (s.inode j).type?
  inum : ∀ j, 0 < (s.inode j).ref → (s'.inode j).inum = (s.inode j).inum
  key : ∀ q, q ≠ p → ∀ fd f, (s.proc q).ofile fd = some f → (s'.file f).key = (s.file f).key
  bal : ∀ j, (s'.inode j).ref + (ownRefs (s.proc p) (s.note p) j + openRefs s.file j) =
    (s.inode j).ref + (ownRefs (s'.proc p) (s'.note p) j + openRefs s'.file j)
  toks : ∀ t ∈ (s'.note p).toks, (s'.inode t.1).inum = t.2
  put : ∀ j st, (s'.note p).put = some (j, st) → j ∈ (s'.note p).slots
  uses : ∀ j, (s'.inode j).lock = some p → Uses s'.file (s'.proc p) (s'.note p) j
  dead : Dead (s'.proc p) (s'.note p)

/-! ## Changes of one slot -/

section
omit [Fintype π]

theorem view_setNote (s : FsSt π) (p : π) (n : Note) :
    view p (s.setNote p n) = (view p s).setNote n := by
  unfold view View.setNote FsSt.setNote
  dsimp only
  rw [update_self]

theorem view_slot (s : FsSt π) (p : π) (i : Slot) (x : Inode π) (n : Note) :
    view p ((s.setInode i x).setNote p n) =
      ((view p s).setNote n).setHeld i (x.heldBy p) := by
  unfold view View.setNote View.setHeld FsSt.setInode FsSt.setNote
  dsimp only
  rw [update_self]
  congr 1
  funext j
  by_cases hj : j = i
  · subst hj
    rw [update_self, update_self]
  · rw [update_of_ne hj, update_of_ne hj]

theorem view_locked {o : Option (BitVec 16)} (n : Note) (hl : x.lock = some p) (ho : x.type? = o) :
    view p ((s.setInode i x).setNote p n) = ((view p s).setNote n).setHeld i (some o) := by
  rw [view_slot, heldBy_some.2 ⟨hl, ho⟩]

theorem view_unlocked (n : Note) (hl : x.lock ≠ some p) :
    view p ((s.setInode i x).setNote p n) = ((view p s).setNote n).setHeld i none := by
  rw [view_slot, heldBy_none.2 hl]

end

/-- Process `p` changes slot `i`, not the inode in it unless it is free, and its own note. -/
structure SlotChange (p : π) (s : FsSt π) (i : Slot) (x : Inode π) (n : Note) : Prop where
  live : (s.proc p).live = true
  lock : ∀ q, q ≠ p → (x.lock = some q ↔ (s.inode i).lock = some q)
  type : ∀ q, q ≠ p → (s.inode i).lock = some q → x.type? = (s.inode i).type?
  inum : 0 < (s.inode i).ref → x.inum = (s.inode i).inum
  ref : x.ref + (s.note p).slots.count i = (s.inode i).ref + n.slots.count i
  refs : ∀ j, j ≠ i → n.slots.count j = (s.note p).slots.count j
  toks : ∀ t ∈ n.toks, t ∈ (s.note p).toks ∨ t = (i, x.inum)
  put : ∀ j st, n.put = some (j, st) → j ∈ n.slots
  uses : x.lock = some p → Uses s.file (s.proc p) n i

theorem SlotChange.change {n : Note} (h : SlotChange p s i x n)
    (ht : Tallies s.inode s.file s.proc s.note) (hh : Holding s.inode s.file s.proc s.note) :
    Change p s ((s.setInode i x).setNote p n) := by
  have hinode : ∀ j, j ≠ i → ((s.setInode i x).setNote p n).inode j = s.inode j := fun j hj =>
    update_of_ne hj _ _
  have hnote : ((s.setInode i x).setNote p n).note p = n := update_self _ _ _
  have hinum : ∀ j, 0 < (s.inode j).ref →
      (((s.setInode i x).setNote p n).inode j).inum = (s.inode j).inum := by
    intro j hj
    by_cases hji : j = i
    · subst hji
      rw [show ((s.setInode j x).setNote p n).inode j = x from update_self _ _ _]
      exact h.inum hj
    · rw [hinode j hji]
  have hself : ((s.setInode i x).setNote p n).inode i = x := update_self _ _ _
  refine ⟨fun _ _ => rfl, fun q hq => update_of_ne hq _ _, fun j q hq => ?_,
    fun j q hq hl => ?_, hinum, fun _ _ _ _ _ => rfl, fun j => ?_, fun t hmem => ?_,
    fun j st hp => ?_, fun j hl => ?_, fun hd => ?_⟩
  · by_cases hji : j = i
    · subst hji
      rw [hself]
      exact h.lock q hq
    · rw [hinode j hji]
  · by_cases hji : j = i
    · subst hji
      rw [hself]
      exact h.type q hq hl
    · rw [hinode j hji]
  · change _ + (_ + openRefs s.file j) = _ + (ownRefs (s.proc p) _ j + openRefs s.file j)
    rw [hnote]
    unfold ownRefs
    by_cases hji : j = i
    · subst hji
      have := h.ref
      rw [hself]
      omega
    · rw [hinode j hji, h.refs j hji]
  · rw [hnote] at hmem
    rcases h.toks t hmem with hm | rfl
    · rw [hinum t.1 (ht.pos_of_mem (List.mem_map_of_mem hm)), ht.toks p t hm]
    · rw [hself]
  · rw [hnote] at hp ⊢
    exact h.put j st hp
  · rw [hnote]
    by_cases hji : j = i
    · subst hji
      rw [hself] at hl
      exact h.uses hl
    · rw [hinode j hji] at hl
      rcases hh j p hl with hm | hf
      · refine .inl (List.count_pos_iff.1 ?_)
        rw [h.refs j hji]
        exact List.count_pos_iff.2 hm
      · exact .inr hf
  · exact absurd h.live (by rw [show (s.proc p).live = false from hd]; decide)

theorem Unlinked.set {inode : Slot → Inode π} {note : π → Note} {n : Note}
    (h : Unlinked inode note)
    (hput : ∀ j, j ≠ i → n.put = some (j, .dropping) → (note p).put = some (j, .dropping))
    (hx : x.valid = true → x.d.nlink = 0 →
      dropping note i + (if n.put = some (i, .dropping) then 1 else 0) <
        x.ref + if (note p).put = some (i, .dropping) then 1 else 0) :
    Unlinked (update inode i x) (update note p n) := by
  intro j hv hn
  have h2 := dropping_move (p := p)
    (show ∀ q, q ≠ p → update note p n q = note q from
      fun q hq => update_of_ne hq _ _) j
  rw [update_self] at h2
  by_cases hji : j = i
  · subst hji
    rw [update_self] at hv hn ⊢
    have := hx hv hn
    omega
  · rw [update_of_ne hji] at hv hn ⊢
    have h1 := h j hv hn
    have h3 := hput j hji
    split at h2 <;> split at h2
    · omega
    · omega
    · next h4 h5 => exact absurd (h3 h5) h4
    · omega

end Xv6.Fs
