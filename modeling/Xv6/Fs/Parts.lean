import Xv6.Fs.Inv

/-!
# How the parts of the invariant change

An action of process `p` changes what belongs to `p`, at most one slot of the cache and at most
one inode on the disk. For each part of the invariant, what has to be shown of such a change.
-/

namespace Xv6.Fs

open Lib
open Function (update update_of_ne update_self)

variable {π : Type} {sb : Superblock} {disk disk' : Disk} {inode inode' : Slot → Inode π}
  {file file' : FileId → File} {proc proc' : π → Proc} {note note' : π → Note}
  {stamp stamp' : Nat → Nat} {p q : π} {i j : Slot} {x : Inode π}

/-! ## The cache -/

theorem findInode_some {s : FsSt π} {e : Nat} (h : findInode s e = some i) :
    0 < (s.inode i).ref ∧ (s.inode i).dev = ROOTDEV ∧ (s.inode i).inum = e := by
  have := List.find?_some h
  simpa [and_assoc] using this

theorem findEmpty_some {s : FsSt π} (h : findEmpty s = some i) : (s.inode i).ref = 0 := by
  have := List.find?_some h
  simpa using this

theorem findInode_none {s : FsSt π} {e : Nat}
    (h : ∀ i, 0 < (s.inode i).ref → (s.inode i).inum ≠ e) : findInode s e = none := by
  refine List.find?_eq_none.2 fun i _ hi => ?_
  simp only [Bool.and_eq_true, decide_eq_true_eq, beq_iff_eq] at hi
  exact h i hi.1.1 hi.2

theorem Cache.not_found {s : FsSt π} {e : Nat} (h : Cache sb disk s.inode)
    (hf : findInode s e = none) (j : Slot) (hj : 0 < (s.inode j).ref) : (s.inode j).inum ≠ e := by
  intro hje
  have := List.find?_eq_none.1 hf j (List.mem_finRange j)
  simp [hj, (h.slots j hj).1, hje] at this

theorem Cache.set (h : Cache sb disk inode)
    (hx : 0 < x.ref → x.dev = ROOTDEV ∧ 0 < x.inum ∧ x.inum < sb.ninodes.toNat ∧
      (∀ j, j ≠ i → 0 < (inode j).ref → (inode j).inum ≠ x.inum) ∧
      (x.valid = true → x.d = dinode sb disk x.inum ∧ x.d.type ≠ 0)) :
    Cache sb disk (update inode i x) := by
  refine ⟨fun j hj => ?_, fun j k hj hk he => ?_, fun j hj hv => ?_⟩
  · by_cases hji : j = i
    · subst hji
      rw [update_self] at hj ⊢
      obtain ⟨h1, h2, h3, -, -⟩ := hx hj
      exact ⟨h1, h2, h3⟩
    · rw [update_of_ne hji] at hj ⊢
      exact h.slots j hj
  · by_cases hji : j = i <;> by_cases hki : k = i
    · rw [hji, hki]
    · subst hji
      rw [update_self] at hj he
      rw [update_of_ne hki] at hk he
      exact absurd he.symm ((hx hj).2.2.2.1 k hki hk)
    · subst hki
      rw [update_self] at hk he
      rw [update_of_ne hji] at hj he
      exact absurd he ((hx hk).2.2.2.1 j hji hj)
    · rw [update_of_ne hji] at hj he
      rw [update_of_ne hki] at hk he
      exact h.uniq j k hj hk he
  · by_cases hji : j = i
    · subst hji
      rw [update_self] at hj hv ⊢
      exact (hx hj).2.2.2.2 hv
    · rw [update_of_ne hji] at hj hv ⊢
      exact h.coherent j hj hv

theorem Cache.setSame (h : Cache sb disk inode) (hdev : x.dev = (inode i).dev)
    (hinum : x.inum = (inode i).inum) (href : 0 < x.ref → 0 < (inode i).ref)
    (hd : 0 < x.ref → x.valid = true → x.d = dinode sb disk x.inum ∧ x.d.type ≠ 0) :
    Cache sb disk (update inode i x) := by
  refine h.set fun hpos => ?_
  obtain ⟨h1, h2, h3⟩ := h.slots i (href hpos)
  refine ⟨hdev.trans h1, hinum ▸ h2, hinum ▸ h3, fun j hji hj he => hji ?_, hd hpos⟩
  exact h.uniq j i hj (href hpos) (he.trans hinum)

theorem Cache.setDisk (h : Cache sb disk inode)
    (hd : ∀ i, 0 < (inode i).ref → (inode i).valid = true →
      dinode sb disk' (inode i).inum = dinode sb disk (inode i).inum) : Cache sb disk' inode := by
  refine ⟨h.slots, h.uniq, fun i hi hv => ?_⟩
  rw [hd i hi hv]
  exact h.coherent i hi hv

theorem Cache.section (h : Cache sb disk inode) (hi : 0 < (inode i).ref)
    (hd : ∀ k < sb.ninodes.toNat, k ≠ (inode i).inum → dinode sb disk' k = dinode sb disk k)
    (hdev : x.dev = (inode i).dev) (hinum : x.inum = (inode i).inum)
    (hx : x.valid = true → x.d = dinode sb disk' x.inum ∧ x.d.type ≠ 0) :
    Cache sb disk' (update inode i x) := by
  refine ⟨fun j hj => ?_, fun j k hj hk he => ?_, fun j hj hv => ?_⟩
  · by_cases hji : j = i
    · subst hji
      rw [update_self, hdev, hinum]
      exact h.slots j hi
    · rw [update_of_ne hji] at hj ⊢
      exact h.slots j hj
  · have hinum' : ∀ j, (update inode i x j).inum = (inode j).inum := by
      intro j
      by_cases hji : j = i
      · rw [hji, update_self, hinum]
      · rw [update_of_ne hji]
    have hpos : ∀ j, 0 < (update inode i x j).ref → 0 < (inode j).ref := by
      intro j hj
      by_cases hji : j = i
      · rwa [hji]
      · rwa [update_of_ne hji] at hj
    rw [hinum', hinum'] at he
    exact h.uniq j k (hpos j hj) (hpos k hk) he
  · by_cases hji : j = i
    · subst hji
      rw [update_self] at hv ⊢
      exact hx hv
    · rw [update_of_ne hji] at hj hv ⊢
      have hne : (inode j).inum ≠ (inode i).inum := fun he => hji (h.uniq j i hj hi he)
      rw [hd _ (h.slots j hj).2.2 hne]
      exact h.coherent j hj hv

/-! ## References -/

section Counts

variable [Fintype π]

theorem Tallies.own_le (h : Tallies inode file proc note) (p : π) (j : Slot) :
    ownRefs (proc p) (note p) j + openRefs file j ≤ (inode j).ref := by
  have := le_sum (fun q => ownRefs (proc q) (note q) j) p
  rw [h.refs j]
  unfold refsTo
  omega

theorem Tallies.pos_of_mem (h : Tallies inode file proc note) (hj : j ∈ (note p).slots) :
    0 < (inode j).ref := by
  have h1 := h.own_le p j
  have h2 := List.count_pos_iff.2 hj
  unfold ownRefs at h1
  omega

theorem openRefs_pos {f : FileId} (hf : (file f).refersTo j) : 0 < openRefs file j := by
  have := le_sum (fun f => if (file f).refersTo j then 1 else 0) f
  rw [if_pos hf] at this
  exact this

theorem Tallies.pos_of_file (h : Tallies inode file proc note) {f : FileId}
    (hf : (file f).refersTo j) : 0 < (inode j).ref := by
  have h1 : openRefs file j ≤ (inode j).ref := by
    rw [h.refs j]
    unfold refsTo
    omega
  have h2 := openRefs_pos hf
  omega

theorem opens_pos {x : Proc} {fd : Fd} {f : FileId} (h : x.ofile fd = some f) : 0 < x.opens f := by
  unfold Proc.opens
  exact List.length_pos_of_mem (List.mem_filter.2 ⟨List.mem_finRange fd, by simpa using h⟩)

theorem Opens.pos (h : Opens file proc) {fd : Fd} {f : FileId} (hf : (proc p).ofile fd = some f) :
    0 < (file f).ref := by
  have h1 := le_sum (fun q => (proc q).opens f) p
  have h2 := opens_pos hf
  rw [h.count f]
  omega

section

variable (h : Tallies inode file proc note) (ho : Opens file proc)

include h ho

theorem Tallies.pos_of_uses (hu : Uses file (proc p) (note p) j) : 0 < (inode j).ref := by
  rcases hu with hm | ⟨fd, f, hf, ht, rfl⟩
  · exact h.pos_of_mem hm
  · exact h.pos_of_file ⟨ho.pos hf, ht, rfl⟩

theorem Tallies.pos_of_lock (hh : Holding inode file proc note) (hl : (inode j).lock = some p) :
    0 < (inode j).ref :=
  h.pos_of_uses ho (hh j p hl)

theorem Tallies.dropping_lt (hp : (note p).put ≠ some (i, .dropping))
    (hu : Uses file (proc p) (note p) i) : dropping note i < (inode i).ref := by
  have hle : ∀ q, (if (note q).put = some (i, .dropping) then 1 else 0) ≤
      ownRefs (proc q) (note q) i := by
    intro q
    split
    · next hq =>
      have := List.count_pos_iff.2 (h.puts q i .dropping hq)
      unfold ownRefs
      omega
    · exact Nat.zero_le _
  rw [h.refs i]
  unfold dropping refsTo
  rcases hu with hm | ⟨fd, f, hf, ht, rfl⟩
  · have hlt : (∑ q, if (note q).put = some (i, .dropping) then 1 else 0) <
        ∑ q, ownRefs (proc q) (note q) i := by
      refine Finset.sum_lt_sum (fun q _ => hle q) ⟨p, Finset.mem_univ p, ?_⟩
      have := List.count_pos_iff.2 hm
      rw [if_neg hp]
      unfold ownRefs
      omega
    omega
  · have h1 := Finset.sum_le_sum fun q (_ : q ∈ Finset.univ) => hle q
    have h2 := openRefs_pos (show (file f).refersTo _ from ⟨ho.pos hf, ht, rfl⟩)
    omega

end

variable [DecidableEq π]

theorem refsTo_move (file file' : FileId → File) (hproc : ∀ q, q ≠ p → proc' q = proc q)
    (hnote : ∀ q, q ≠ p → note' q = note q) (j : Slot) :
    refsTo file' proc' note' j + (ownRefs (proc p) (note p) j + openRefs file j) =
      refsTo file proc note j + (ownRefs (proc' p) (note' p) j + openRefs file' j) := by
  have := sum_eq_off (f := fun q => ownRefs (proc' q) (note' q) j)
    (g := fun q => ownRefs (proc q) (note q) j) p fun q hq => by rw [hproc q hq, hnote q hq]
  unfold refsTo
  omega

theorem Tallies.move (h : Tallies inode file proc note) (hproc : ∀ q, q ≠ p → proc' q = proc q)
    (hnote : ∀ q, q ≠ p → note' q = note q)
    (hbal : ∀ j, (inode' j).ref + (ownRefs (proc p) (note p) j + openRefs file j) =
      (inode j).ref + (ownRefs (proc' p) (note' p) j + openRefs file' j))
    (htok : ∀ t ∈ (note' p).toks, (inode' t.1).inum = t.2)
    (hput : ∀ j st, (note' p).put = some (j, st) → j ∈ (note' p).slots)
    (hinum : ∀ j, 0 < (inode j).ref → (inode' j).inum = (inode j).inum) :
    Tallies inode' file' proc' note' := by
  refine ⟨fun j => ?_, fun q t ht => ?_, fun q j st hq => ?_⟩
  · have h1 := hbal j
    have h2 := refsTo_move file file' hproc hnote j
    have h3 := h.refs j
    omega
  · by_cases hq : q = p
    · subst hq
      exact htok t ht
    · rw [hnote q hq] at ht
      rw [hinum t.1 (h.pos_of_mem (List.mem_map_of_mem ht)), h.toks q t ht]
  · by_cases hqp : q = p
    · subst hqp
      exact hput j st hq
    · rw [hnote q hqp] at hq ⊢
      exact h.puts q j st hq

theorem dropping_move (hnote : ∀ q, q ≠ p → note' q = note q) (j : Slot) :
    dropping note' j + (if (note p).put = some (j, .dropping) then 1 else 0) =
      dropping note j + (if (note' p).put = some (j, .dropping) then 1 else 0) :=
  sum_eq_off (f := fun q => if (note' q).put = some (j, .dropping) then 1 else 0)
    (g := fun q => if (note q).put = some (j, .dropping) then 1 else 0) p fun q hq => by
      rw [hnote q hq]

end Counts

/-! ## Locks -/

theorem Holding.move (h : Holding inode file proc note) (hproc : ∀ q, q ≠ p → proc' q = proc q)
    (hnote : ∀ q, q ≠ p → note' q = note q)
    (hlock : ∀ j q, q ≠ p → (inode' j).lock = some q → (inode j).lock = some q)
    (hfile : ∀ q, q ≠ p → ∀ fd f, (proc q).ofile fd = some f →
      (file' f).type = (file f).type ∧ (file' f).ip = (file f).ip)
    (hp : ∀ j, (inode' j).lock = some p → Uses file' (proc' p) (note' p) j) :
    Holding inode' file' proc' note' := by
  intro j q hl
  by_cases hq : q = p
  · subst hq
    exact hp j hl
  · rw [hproc q hq, hnote q hq]
    rcases h j q (hlock j q hq hl) with hm | ⟨fd, f, hf, ht, hip⟩
    · exact .inl hm
    · obtain ⟨h1, h2⟩ := hfile q hq fd f hf
      exact .inr ⟨fd, f, hf, h1.trans ht, h2.trans hip⟩

end Xv6.Fs
