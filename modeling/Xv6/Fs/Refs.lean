import Xv6.Fs.Keeps

/-!
# References and locks

What `iget`, `idup`, `ilock`, `iunlock` and the parts of `iput` ask of the process that calls
them and do to what it sees, whatever the other processes do.
-/

namespace Xv6.Fs

open Lib

variable {π : Type} [DecidableEq π] [Fintype π] {sb : Superblock} {strict tree : Prop}
  {s s' : FsSt π} {p q : π} {i j : Slot} {x : Inode π} {e : Nat} {v : View}

/-! ## `iget` and `idup` -/

@[simp] theorem Note.slots_take (n : Note) (i : Slot) (e : Nat) :
    (n.take i e).slots = i :: n.slots := rfl

omit [DecidableEq π] in
theorem SlotChange.take (ht : Tallies s.inode s.file s.proc s.note) (ho : Opens s.file s.proc)
    (hh : Holding s.inode s.file s.proc s.note) (hlive : (s.proc p).live = true)
    (href : x.ref = (s.inode i).ref + 1)
    (hlock : x.lock = (s.inode i).lock)
    (hold : 0 < (s.inode i).ref → x.inum = (s.inode i).inum ∧ x.type? = (s.inode i).type?)
    (he : x.inum = e) : SlotChange p s i x ((s.note p).take i e) := by
  refine ⟨hlive, fun q _ => by rw [hlock], fun q _ hl => (hold (ht.pos_of_lock ho hh hl)).2,
    fun hi => (hold hi).1, ?_, fun j hj => ?_, fun t hmem => ?_, fun j st hp => ?_, fun hl => ?_⟩
  · rw [Note.slots_take, List.count_cons_self]
    omega
  · rw [Note.slots_take, List.count_cons_of_ne (Ne.symm hj)]
  · rcases List.mem_cons.1 hmem with rfl | hm
    · exact .inr (by rw [he])
    · exact .inl hm
  · exact List.mem_cons_of_mem _ (ht.puts p j st hp)
  · exact .inl List.mem_cons_self

theorem Unlinked.take (h : Unlinked s.inode s.note) (href : x.ref = (s.inode i).ref + 1)
    (hd : x.valid = true → (s.inode i).valid = true ∧ (s.inode i).d.nlink = x.d.nlink) :
    Unlinked (Function.update s.inode i x) (Function.update s.note p ((s.note p).take i e)) := by
  refine h.set (fun j _ hj => hj) fun hv hn => ?_
  obtain ⟨hv', hn'⟩ := hd hv
  have := h i hv' (hn'.trans hn)
  exact Nat.add_lt_add_right (by omega) _

/-! ## Locks -/

omit [DecidableEq π] [Fintype π] in
theorem SlotChange.same {n : Note} (hlive : (s.proc p).live = true)
    (htoks : n.toks = (s.note p).toks) (href : x.ref = (s.inode i).ref)
    (hinum : x.inum = (s.inode i).inum)
    (hlock : ∀ q, q ≠ p → (x.lock = some q ↔ (s.inode i).lock = some q))
    (htype : ∀ q, q ≠ p → (s.inode i).lock = some q → x.type? = (s.inode i).type?)
    (hput : ∀ j st, n.put = some (j, st) → j ∈ (s.note p).slots)
    (huses : x.lock = some p → Uses s.file (s.proc p) (s.note p) i) : SlotChange p s i x n := by
  have hslots : n.slots = (s.note p).slots := congrArg (List.map Prod.fst) htoks
  refine ⟨hlive, hlock, htype, fun _ => hinum, by rw [hslots, href], fun _ _ => by rw [hslots],
    fun t ht => .inl (htoks ▸ ht), fun j st hp => hslots ▸ hput j st hp, fun hl => ?_⟩
  rcases huses hl with hm | hf
  · exact .inl (hslots ▸ hm)
  · exact .inr hf

@[simp] theorem Note.toks_locked (n : Note) (i : Slot) (e : Nat) :
    (n.locked i e).toks = n.toks := by
  unfold Note.locked
  split
  · split <;> rfl
  · rfl

@[simp] theorem Note.put_locked (n : Note) (i : Slot) (e : Nat) : (n.locked i e).put = n.put := by
  unfold Note.locked
  split
  · split <;> rfl
  · rfl

/-! ## `iput` -/

/-- What a process notes when it has the lock in `iput`. -/
def Note.testing (n : Note) (i : Slot) (unlinked : Bool) : Note :=
  { n with
    put := some (i, if unlinked then .testing else .dropping)
    firm := n.firm.filter fun j => j ≠ i }

omit [DecidableEq π] [Fintype π] in
theorem SlotChange.testing {r : Bool} (hlive : (s.proc p).live = true)
    (hi : i ∈ (s.note p).slots) (hl : (s.inode i).lock = none) :
    SlotChange p s i { s.inode i with lock := some p } ((s.note p).testing i r) := by
  refine .same hlive rfl rfl rfl (fun q hq => ?_) (fun q _ hq => ?_) (fun j st hp => ?_)
    (fun _ => .inl hi)
  · rw [hl]
    simp [Ne.symm hq]
  · rw [hl] at hq
    cases hq
  · cases hp
    exact hi

theorem Unlinked.testing {r : Bool} (h : Unlinked s.inode s.note) (hput : (s.note p).put = none)
    (hr : ((s.inode i).valid && (s.inode i).d.nlink == 0) = r) :
    Unlinked (Function.update s.inode i { s.inode i with lock := some p })
      (Function.update s.note p ((s.note p).testing i r)) := by
  refine h.set (fun j hj hp => ?_) fun hv hn => ?_
  · exact absurd (congrArg Prod.fst (Option.some.inj hp)).symm hj
  · have hrt : r = true := by
      rw [← hr, show (s.inode i).valid = true from hv, show (s.inode i).d.nlink = 0 from hn]
      rfl
    subst hrt
    rw [if_neg (by simp [Note.testing]), if_neg (by simp [hput])]
    exact h i hv hn

omit [DecidableEq π] [Fintype π] in
theorem SlotChange.release (hlive : (s.proc p).live = true) (hi : i ∈ (s.note p).slots)
    (hl : (s.inode i).lock = some p) : SlotChange p s i { s.inode i with lock := none }
      { s.note p with put := some (i, .dropping) } := by
  refine .same hlive rfl rfl rfl (fun q hq => ?_) (fun q _ hl => rfl) (fun j st hp => ?_) nofun
  · rw [hl]
    simp [Ne.symm hq]
  · cases hp
    exact hi

theorem Unlinked.release {st : Stage} (h : Unlinked s.inode s.note)
    (hput : (s.note p).put = some (i, st)) (hst : st = .dropping ∨ (s.inode i).type? = none) :
    Unlinked (Function.update s.inode i { s.inode i with lock := none })
      (Function.update s.note p { s.note p with put := some (i, .dropping) }) := by
  refine h.set (fun j hj hp => ?_) fun hv hn => ?_
  · exact absurd (congrArg Prod.fst (Option.some.inj hp)).symm hj
  · rcases hst with rfl | ho
    · rw [hput]
      exact Nat.add_lt_add_right (h i hv hn) _
    · rw [type?_eq (x := s.inode i) hv] at ho
      cases ho

theorem Note.perm_erase {n : Note} {t : Slot × Nat} (h : t ∈ n.toks) :
    n.slots.Perm (t.1 :: (n.toks.erase t).map Prod.fst) :=
  (List.perm_cons_erase h).map Prod.fst

omit [DecidableEq π] in
theorem Tallies.mem_toks (h : Tallies s.inode s.file s.proc s.note) (hi : i ∈ (s.note p).slots) :
    (i, (s.inode i).inum) ∈ (s.note p).toks := by
  obtain ⟨t, ht, rfl⟩ := List.mem_map.1 hi
  rw [h.toks p t ht]
  exact ht

omit [DecidableEq π] [Fintype π] in
theorem SlotChange.drop (hlive : (s.proc p).live = true) (hpos : 0 < (s.inode i).ref)
    (htok : (i, (s.inode i).inum) ∈ (s.note p).toks) (hlock : (s.inode i).lock ≠ some p) :
    SlotChange p s i { s.inode i with ref := (s.inode i).ref - 1 }
      ((s.note p).drop i (s.inode i).inum) := by
  have hcount : ∀ j, (s.note p).slots.count j =
      (i :: ((s.note p).drop i (s.inode i).inum).slots).count j := fun j =>
    (Note.perm_erase htok).count_eq j
  refine ⟨hlive, fun _ _ => Iff.rfl, fun _ _ _ => rfl, fun _ => rfl, ?_, fun j hj => ?_,
    fun t ht => .inl (List.mem_of_mem_erase ht), nofun, fun hl => absurd hl hlock⟩
  · rw [hcount i, List.count_cons_self]
    dsimp only
    omega
  · rw [hcount j, List.count_cons_of_ne (Ne.symm hj)]

theorem Unlinked.drop (h : Unlinked s.inode s.note) (hput : (s.note p).put = some (i, .dropping)) :
    Unlinked (Function.update s.inode i { s.inode i with ref := (s.inode i).ref - 1 })
      (Function.update s.note p ((s.note p).drop i (s.inode i).inum)) := by
  refine h.set nofun fun hv hn => ?_
  have := h i hv hn
  rw [hput, if_pos rfl, if_neg nofun]
  dsimp only
  omega

end Xv6.Fs
