import Mathlib.Data.List.Basic

/-!
# The regexp matcher of grep

C strings are lists of characters, without the NUL. `matchhere`, `matchstar` and `match` are
computed by recursion on the pattern and on the text, so they terminate. A pattern is read from left
to right as a list of items; `match` finds a piece of the text that the items match one after the
other.
-/

namespace Xv6.Grep

abbrev Str := List UInt8

def CARET : UInt8 := 94
def DOT : UInt8 := 46
def STAR : UInt8 := 42
def DOLLAR : UInt8 := 36

/-! ## The functions -/

/-- matchstar: search for c*re at beginning of text; `here` is `matchhere` for `re`. -/
def matchstar (here : Str → Bool) (c : UInt8) : Str → Bool
  | [] => here []
  | t :: text => here (t :: text) || ((t == c || c == DOT) && matchstar here c text)

/-- The last test of `matchhere`: one character, and then the rest of the pattern. -/
def matchone (here : Str → Bool) (c : UInt8) : Str → Bool
  | [] => false
  | t :: text => (c == DOT || c == t) && here text

def matchhere : Str → Str → Bool
  | [], _ => true
  | [c], text => if c = DOLLAR then text.isEmpty else matchone (matchhere []) c text
  | c :: d :: re, text =>
    if d = STAR then matchstar (matchhere re) c text else matchone (matchhere (d :: re)) c text

/-- The loop of `match`: it must look at the empty string. -/
def matchloop (re : Str) : Str → Bool
  | [] => matchhere re []
  | t :: text => matchhere re (t :: text) || matchloop re text

/-- `match(re, text)`. -/
def reMatch (re text : Str) : Bool :=
  if re.head? = some CARET then matchhere re.tail text else matchloop re text

/-! ## Items -/

/-- What a pattern is made of: `c*`, the final `$`, `.` and a character that stands for itself. -/
inductive Item where
  | star (c : UInt8)
  | eot
  | any
  | lit (c : UInt8)

/-- A character that no `*` follows. -/
def Item.one (c : UInt8) : Item := if c = DOT then .any else .lit c

def items : Str → List Item
  | [] => []
  | [c] => if c = DOLLAR then [.eot] else [.one c]
  | c :: d :: re => if d = STAR then .star c :: items re else .one c :: items (d :: re)

/-- The item matches `s`, if `rest` is what the text goes on with. -/
def Item.Matches : Item → Str → Str → Prop
  | .star c, s, _ => ∀ t ∈ s, c = DOT ∨ t = c
  | .eot, s, rest => s = [] ∧ rest = []
  | .any, s, _ => ∃ t, s = [t]
  | .lit c, s, _ => s = [c]

/-- The items match `s` one after the other. -/
def Matches : List Item → Str → Str → Prop
  | [], s, _ => s = []
  | i :: is, s, rest => ∃ s₁ s₂, s = s₁ ++ s₂ ∧ i.Matches s₁ (s₂ ++ rest) ∧ Matches is s₂ rest

def Starts (is : List Item) (text : Str) : Prop := ∃ s rest, text = s ++ rest ∧ Matches is s rest

/-- The meaning of a pattern: a piece of the text matches its items, at the beginning of the text if
the pattern begins with `^`. -/
def Means (re text : Str) : Prop :=
  if re.head? = some CARET then Starts (items re.tail) text
  else ∃ before after, text = before ++ after ∧ Starts (items re) after

/-! ## The functions compute the meaning -/

variable {is : List Item} {i : Item} {c t : UInt8} {text : Str}

theorem starts_nil : Starts [] text := ⟨[], text, rfl, rfl⟩

theorem starts_cons :
    Starts (i :: is) text ↔ ∃ s after, text = s ++ after ∧ i.Matches s after ∧ Starts is after := by
  constructor
  · rintro ⟨s, rest, rfl, s1, s2, rfl, hi, his⟩
    exact ⟨s1, s2 ++ rest, List.append_assoc _ _ _, hi, s2, rest, rfl, his⟩
  · rintro ⟨s1, after, rfl, hi, s2, rest, rfl, his⟩
    exact ⟨s1 ++ s2, rest, (List.append_assoc _ _ _).symm, s1, s2, rfl, hi, his⟩

theorem starts_one_nil : ¬ Starts (.one c :: is) [] := by
  rw [starts_cons]
  rintro ⟨s, after, he, hm, -⟩
  obtain ⟨rfl, -⟩ := List.append_eq_nil_iff.1 he.symm
  unfold Item.one at hm
  split at hm
  · obtain ⟨t, ht⟩ := hm
    cases ht
  · cases hm

theorem starts_one_cons :
    Starts (.one c :: is) (t :: text) ↔ (c = DOT ∨ c = t) ∧ Starts is text := by
  rw [starts_cons]
  unfold Item.one
  constructor
  · rintro ⟨s, after, he, hm, hs⟩
    split at hm
    · next hc =>
      obtain ⟨u, rfl⟩ := hm
      obtain ⟨rfl, rfl⟩ := List.cons.inj he
      exact ⟨.inl hc, hs⟩
    · obtain rfl : s = [c] := hm
      obtain ⟨rfl, rfl⟩ := List.cons.inj he
      exact ⟨.inr rfl, hs⟩
  · rintro ⟨hc, hs⟩
    refine ⟨[t], text, rfl, ?_, hs⟩
    split
    · exact ⟨t, rfl⟩
    · next hd =>
      rcases hc with hc | rfl
      · exact absurd hc hd
      · rfl

theorem starts_star_cons :
    Starts (.star c :: is) (t :: text) ↔
      Starts is (t :: text) ∨ (t = c ∨ c = DOT) ∧ Starts (.star c :: is) text := by
  rw [starts_cons, starts_cons]
  constructor
  · rintro ⟨s, after, he, hm, hs⟩
    cases s with
    | nil =>
      left
      rw [he]
      exact hs
    | cons u s =>
      right
      obtain ⟨rfl, rfl⟩ := List.cons.inj he
      refine ⟨(hm t List.mem_cons_self).symm, s, after, rfl, ?_, hs⟩
      exact fun v hv => hm v (List.mem_cons_of_mem _ hv)
  · rintro (hs | ⟨ht, s, after, rfl, hm, hs⟩)
    · exact ⟨[], t :: text, rfl, nofun, hs⟩
    · refine ⟨t :: s, after, rfl, fun v hv => ?_, hs⟩
      rcases List.mem_cons.1 hv with rfl | hv
      · exact ht.symm
      · exact hm v hv

theorem starts_star_nil : Starts (.star c :: is) [] ↔ Starts is [] := by
  rw [starts_cons]
  constructor
  · rintro ⟨s, after, he, -, hs⟩
    obtain ⟨-, rfl⟩ := List.append_eq_nil_iff.1 he.symm
    exact hs
  · exact fun hs => ⟨[], [], rfl, nofun, hs⟩

theorem starts_eot : Starts [.eot] text ↔ text = [] := by
  rw [starts_cons]
  constructor
  · rintro ⟨s, after, rfl, ⟨rfl, rfl⟩, -⟩
    rfl
  · rintro rfl
    exact ⟨[], [], rfl, ⟨rfl, rfl⟩, starts_nil⟩

theorem matchone_iff {here : Str → Bool} (h : ∀ text, here text = true ↔ Starts is text) :
    matchone here c text = true ↔ Starts (.one c :: is) text := by
  cases text with
  | nil => simp [matchone, starts_one_nil]
  | cons t text => simp [matchone, starts_one_cons, h]

theorem matchstar_iff {here : Str → Bool} (h : ∀ text, here text = true ↔ Starts is text) :
    matchstar here c text = true ↔ Starts (.star c :: is) text := by
  induction text with
  | nil => rw [matchstar, h, starts_star_nil]
  | cons t text ih => simp [matchstar, starts_star_cons, h, ih]

theorem matchhere_iff (re text : Str) : matchhere re text = true ↔ Starts (items re) text := by
  induction re using items.induct generalizing text with
  | case1 => simp [matchhere, items, starts_nil]
  | case2 => simp [matchhere, items, starts_eot]
  | case3 c hc =>
    simp only [matchhere, items, hc, if_false]
    exact matchone_iff fun text => by simp [starts_nil]
  | case4 c re ih =>
    simp only [matchhere, items, if_true]
    exact matchstar_iff ih
  | case5 c d re hd ih =>
    simp only [matchhere, items, hd, if_false]
    exact matchone_iff ih

theorem matchloop_iff {re : Str} : matchloop re text = true ↔
    ∃ before after, text = before ++ after ∧ Starts (items re) after := by
  induction text with
  | nil =>
    rw [matchloop, matchhere_iff]
    constructor
    · exact fun h => ⟨[], [], rfl, h⟩
    · rintro ⟨before, after, he, h⟩
      obtain ⟨-, rfl⟩ := List.append_eq_nil_iff.1 he.symm
      exact h
  | cons t text ih =>
    rw [matchloop, Bool.or_eq_true, matchhere_iff, ih]
    constructor
    · rintro (h | ⟨before, after, rfl, h⟩)
      · exact ⟨[], t :: text, rfl, h⟩
      · exact ⟨t :: before, after, rfl, h⟩
    · rintro ⟨before, after, he, h⟩
      cases before with
      | nil =>
        left
        rw [he]
        exact h
      | cons u before =>
        obtain ⟨rfl, rfl⟩ := List.cons.inj he
        exact .inr ⟨before, after, rfl, h⟩

/-- `match` returns 1 if and only if the pattern, read as its items, matches. -/
theorem match_correct (re text : Str) : reMatch re text = true ↔ Means re text := by
  unfold reMatch Means
  split
  · exact matchhere_iff _ _
  · exact matchloop_iff

/-- `^a*b$` and `aab`, `aabc`. -/
example : reMatch [94, 97, 42, 98, 36] [97, 97, 98] = true ∧
    reMatch [94, 97, 42, 98, 36] [97, 97, 98, 99] = false := by decide

end Xv6.Grep
