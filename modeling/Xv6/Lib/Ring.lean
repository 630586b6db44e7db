import Mathlib.Data.List.Nodup

/-!
# Circular doubly linked lists with a head

The nodes are `Option ι`: the head is `none`, and the others are the `some i`. Pointers are
two functions `next` and `prev`. `Seg next prev a l b` says that from node `a` the pointers
lead through the nodes of `l`, in order, to node `b`, and back; a list of all its nodes is a
segment from the head to the head.
-/

namespace Xv6.Lib

open Function (update update_of_ne update_self)

variable {ι : Type}

/-- From `a` through the nodes of `l` to `b`, and back. -/
def Seg (next prev : Option ι → Option ι) : Option ι → List ι → Option ι → Prop
  | a, [], b => next a = b ∧ prev b = a
  | a, i :: l, b => next a = some i ∧ prev (some i) = a ∧ Seg next prev (some i) l b

structure Links (ι : Type) where
  next : Option ι → Option ι
  prev : Option ι → Option ι

/-- The nodes of the list, in the order of `next` from the head. -/
def Links.Ring (L : Links ι) (l : List ι) : Prop := Seg L.next L.prev none l none ∧ l.Nodup

def Links.empty : Links ι := ⟨fun _ => none, fun _ => none⟩

/-- `for(b = start; b != head; b = step(b)) if(found(b)) ...`: the first node with the
property, or that the head is reached. `none` is a walk that has not ended. -/
def walk (step : Option ι → Option ι) (found : ι → Bool) : Nat → Option ι → Option (Option ι)
  | 0, _ => none
  | _ + 1, none => some none
  | fuel + 1, some i => if found i then some (some i) else walk step found fuel (step (some i))

section Segments

variable {next prev : Option ι → Option ι} {a b : Option ι} {l l1 l2 : List ι} {i : ι}

theorem seg_append : Seg next prev a (l1 ++ i :: l2) b ↔
    Seg next prev a l1 (some i) ∧ Seg next prev (some i) l2 b := by
  induction l1 generalizing a with
  | nil => simp only [List.nil_append, Seg, and_assoc]
  | cons j l1 ih => simp only [List.cons_append, Seg, ih, and_assoc]

theorem Seg.reverse (h : Seg next prev a l b) : Seg prev next b l.reverse a := by
  induction l generalizing a with
  | nil => exact ⟨h.2, h.1⟩
  | cons i l ih =>
    obtain ⟨h1, h2, h3⟩ := h
    rw [List.reverse_cons]
    exact seg_append.mpr ⟨ih h3, h2, h1⟩

theorem Seg.congr {next' prev' : Option ι → Option ι} (h : Seg next prev a l b)
    (ha : next' a = next a) (hn : ∀ i ∈ l, next' (some i) = next (some i))
    (hp : ∀ i ∈ l, prev' (some i) = prev (some i)) (hb : prev' b = prev b) :
    Seg next' prev' a l b := by
  induction l generalizing a with
  | nil => exact ⟨ha.trans h.1, hb.trans h.2⟩
  | cons i l ih =>
    obtain ⟨h1, h2, h3⟩ := h
    refine ⟨ha.trans h1, (hp i (List.mem_cons_self ..)).trans h2, ?_⟩
    exact ih h3 (hn i (List.mem_cons_self ..)) (fun j hj => hn j (List.mem_cons_of_mem i hj))
      (fun j hj => hp j (List.mem_cons_of_mem i hj))

theorem Seg.prev_mem (h : Seg next prev a l b) : prev b ∈ a :: l.map some := by
  induction l generalizing a with
  | nil => simp [h.2]
  | cons i l ih =>
    obtain ⟨-, -, h3⟩ := h
    simpa using Or.inr (ih h3)

theorem Seg.next_mem (h : Seg next prev a l b) : next a ∈ b :: l.map some := by
  have := h.reverse.prev_mem
  simpa using this

theorem Seg.walk_eq (h : Seg next prev a l none) {found : ι → Bool} {fuel : Nat}
    (hf : l.length < fuel) : walk next found fuel (next a) = some (l.find? found) := by
  induction l generalizing a fuel with
  | nil =>
    obtain ⟨fuel, rfl⟩ : ∃ k, fuel = k + 1 := ⟨fuel - 1, by omega⟩
    rw [h.1]
    rfl
  | cons i l ih =>
    obtain ⟨fuel, rfl⟩ : ∃ k, fuel = k + 1 := ⟨fuel - 1, by omega⟩
    obtain ⟨h1, -, h3⟩ := h
    rw [h1, walk, List.find?_cons]
    cases hi : found i with
    | true => rfl
    | false =>
      simp only [Bool.false_eq_true, if_false]
      exact ih h3 (by simp only [List.length_cons] at hf; omega)

end Segments

theorem Links.ring_empty : (Links.empty : Links ι).Ring [] := ⟨⟨rfl, rfl⟩, List.nodup_nil⟩

/-! ## The pointer assignments -/

variable [DecidableEq ι]

namespace Links

/-- `b->next->prev = b->prev; b->prev->next = b->next;` -/
def unlink (L : Links ι) (i : ι) : Links ι :=
  let L := { L with prev := update L.prev (L.next (some i)) (L.prev (some i)) }
  { L with next := update L.next (L.prev (some i)) (L.next (some i)) }

/-- `b->next = head.next; b->prev = &head; head.next->prev = b; head.next = b;` -/
def pushFront (L : Links ι) (i : ι) : Links ι :=
  let L := { L with next := update L.next (some i) (L.next none) }
  let L := { L with prev := update L.prev (some i) none }
  let L := { L with prev := update L.prev (L.next none) (some i) }
  { L with next := update L.next none (some i) }

variable {L : Links ι} {i : ι} {l : List ι}

theorem Ring.pushFront (h : L.Ring l) (hi : i ∉ l) : (L.pushFront i).Ring (i :: l) := by
  obtain ⟨hseg, hnd⟩ := h
  refine ⟨?_, List.nodup_cons.mpr ⟨hi, hnd⟩⟩
  cases l with
  | nil =>
    obtain ⟨h1, h2⟩ := hseg
    simp [Seg, Links.pushFront, h1]
  | cons j l =>
    obtain ⟨h1, h2, h3⟩ := hseg
    obtain ⟨hij, hil⟩ : i ≠ j ∧ i ∉ l := by simpa using hi
    have hjl : j ∉ l := (List.nodup_cons.mp hnd).1
    have hne : ∀ k ∈ l, some k ≠ some i ∧ some k ≠ some j := by
      intro k hk
      refine ⟨fun h => hil ?_, fun h => hjl ?_⟩
      · exact Option.some.inj h ▸ hk
      · exact Option.some.inj h ▸ hk
    refine ⟨by simp [Links.pushFront], by simp [Links.pushFront, h1, hij],
      by simp [Links.pushFront, h1], by simp [Links.pushFront, h1], h3.congr ?_ ?_ ?_ ?_⟩
    · simp [Links.pushFront, hij.symm]
    · intro k hk
      simp [Links.pushFront, update_of_ne (hne k hk).1]
    · intro k hk
      simp [Links.pushFront, h1, update_of_ne (hne k hk).1,
        update_of_ne (hne k hk).2]
    · simp [Links.pushFront, h1]

theorem seg_bypass {next prev : Option ι → Option ι} {a b : Option ι} {l1 l2 : List ι}
    (h : Seg next prev a (l1 ++ i :: l2) b) (hnd : (l1 ++ i :: l2).Nodup)
    (ha : a ∉ (l1 ++ i :: l2).map some) (hb : b ∉ (l1 ++ i :: l2).map some) :
    Seg (update next (prev (some i)) (next (some i)))
      (update prev (next (some i)) (prev (some i))) a (l1 ++ l2) b := by
  induction l1 generalizing a with
  | nil =>
    obtain ⟨-, h2, h3⟩ := h
    rw [h2]
    cases l2 with
    | nil =>
      obtain ⟨h4, h5⟩ := h3
      simp [Seg, h4]
    | cons j l2 =>
      obtain ⟨h4, h5, h6⟩ := h3
      simp only [List.nil_append, List.map_cons, List.mem_cons, not_or,
        List.nodup_cons] at ha hb hnd
      rw [h4]
      refine ⟨update_self .., update_self .., h6.congr ?_ ?_ ?_ ?_⟩
      · exact update_of_ne (Ne.symm ha.2.1) ..
      · intro k hk
        refine update_of_ne (fun hka => ha.2.2 ?_) ..
        exact hka ▸ List.mem_map_of_mem hk
      · intro k hk
        refine update_of_ne (fun hkj => hnd.2.1 ?_) ..
        exact Option.some.inj hkj ▸ hk
      · exact update_of_ne hb.2.1 ..
  | cons k l1 ih =>
    obtain ⟨h1, h2, h3⟩ := h
    simp only [List.cons_append, List.map_cons, List.mem_cons, not_or, List.nodup_cons] at ha hb hnd
    obtain ⟨hleft, hright⟩ := seg_append.mp h3
    have hkn : some k ∉ (l1 ++ i :: l2).map some := by simpa using hnd.1
    refine ⟨?_, ?_, ih h3 hnd.2 hkn hb.2⟩
    · -- the node before `i` is not `a`
      rw [update_of_ne ?_, h1]
      intro hax
      have := hleft.prev_mem
      rw [← hax] at this
      rcases List.mem_cons.mp this with h | h
      · exact ha.1 h
      · exact ha.2 (by simp only [List.map_append]; exact List.mem_append_left _ h)
    · rw [update_of_ne ?_, h2]
      intro hky
      have := hright.next_mem
      rw [← hky] at this
      rcases List.mem_cons.mp this with h | h
      · exact hb.1 h.symm
      · exact hkn
          (by simp only [List.map_append]; exact List.mem_append_right _ (List.mem_cons_of_mem _ h))

theorem Ring.unlink (h : L.Ring l) (hi : i ∈ l) : (L.unlink i).Ring (l.erase i) := by
  obtain ⟨hseg, hnd⟩ := h
  obtain ⟨l1, l2, rfl⟩ := List.append_of_mem hi
  have hmid : i ∉ l1 := by
    intro hmem
    exact (List.nodup_append.mp hnd).2.2 i hmem i (List.mem_cons_self ..) rfl
  rw [List.erase_append_right _ hmid, List.erase_cons_head]
  have hne : L.next (some i) ≠ some i := by
    intro hself
    have := (seg_append.mp hseg).2.next_mem
    rw [hself] at this
    have hi2 : i ∈ l2 := by simpa using this
    exact (List.nodup_cons.mp (List.nodup_append.mp hnd).2.1).1 hi2
  refine ⟨?_, ?_⟩
  · have := seg_bypass hseg hnd (by simp) (by simp)
    simpa [Links.unlink, update_of_ne (Ne.symm hne)] using this
  · exact hnd.sublist ((List.Sublist.refl l1).append (List.sublist_cons_self i l2))

theorem Ring.moveToFront (h : L.Ring l) (hi : i ∈ l) :
    ((L.unlink i).pushFront i).Ring (i :: l.erase i) :=
  (h.unlink hi).pushFront h.2.not_mem_erase

end Links

end Xv6.Lib
