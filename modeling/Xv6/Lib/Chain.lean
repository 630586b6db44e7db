import Mathlib.Data.List.Nodup

/-!
# Queues linked by hand

A singly linked list: a head, and for each node the next one. `Chain next h l` says that following
the links from `h` gives `l`. The place behind a part `l1` of the list is written as the last node
of `l1`, or none for the head itself.
-/

namespace Xv6.Lib

variable {β : Type} {next next' : β → Option β} {h : Option β} {l l1 l2 : List β} {b x : β}

/-- The links from `h` on lead through `l` and end. -/
def Chain (next : β → Option β) : Option β → List β → Prop
  | h, [] => h = none
  | h, b :: l => h = some b ∧ Chain next (next b) l

namespace Chain

theorem head (hc : Chain next h l) : h = l.head? := by
  cases l with
  | nil => exact hc
  | cons b l => exact hc.1

theorem congr (hc : Chain next h l) (hn : ∀ x ∈ l, next' x = next x) : Chain next' h l := by
  induction l generalizing h with
  | nil => exact hc
  | cons b l ih =>
    refine ⟨hc.1, ?_⟩
    rw [hn b List.mem_cons_self]
    exact ih hc.2 fun x hx => hn x (List.mem_cons_of_mem b hx)

/-- The link behind the part `l1`. -/
def deref (next : β → Option β) (h : Option β) : Option β → Option β
  | none => h
  | some x => next x

theorem deref_getLast (hc : Chain next h (l1 ++ l2)) : deref next h l1.getLast? = l2.head? := by
  induction l1 generalizing h with
  | nil => exact hc.head
  | cons b l1 ih =>
    have hrest := ih hc.2
    cases l1 with
    | nil => exact hrest
    | cons c l1 =>
      rw [List.getLast?_cons_cons]
      exact hrest

theorem snoc [DecidableEq β] (hc : Chain next h l) (hnd : l.Nodup) (hb : b ∉ l)
    (hnb : next b = none)
    (hx : l.getLast? = some x) : Chain (Function.update next x (some b)) h (l ++ [b]) := by
  induction l generalizing h with
  | nil => cases hx
  | cons a l ih =>
    obtain ⟨ha, hnd⟩ := List.nodup_cons.1 hnd
    refine ⟨hc.1, ?_⟩
    cases l with
    | nil =>
      obtain rfl : a = x := by simpa using hx
      have hne : b ≠ a := fun hba => hb (hba ▸ List.mem_cons_self)
      rw [Function.update_self]
      refine ⟨rfl, ?_⟩
      rw [Function.update_of_ne hne]
      exact hnb
    | cons c l =>
      rw [List.getLast?_cons_cons] at hx
      have hax : a ≠ x := fun h => ha (h ▸ List.mem_of_getLast? hx)
      rw [Function.update_of_ne hax]
      exact ih hc.2 hnd (fun h => hb (List.mem_cons_of_mem a h)) hx

end Chain

end Xv6.Lib
