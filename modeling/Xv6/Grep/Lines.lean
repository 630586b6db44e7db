import Xv6.Grep.Match
import Xv6.Lib.Bytes
import Xv6.Ulib.Memmove

/-!
# grep on a stream of pieces

`grep` reads into a buffer of 1024 bytes, terminates the complete lines in place to match them, and
moves the rest to the front of the buffer. What it does depends on how `read` delivers the input: if
there is no newline in the buffer, `m` is set to 0 and the beginning of the line is lost. So `grep`
writes exactly the matching lines, for every pattern, if and only if every piece has a newline in
it.
-/

namespace Xv6.Grep

open Lib
open List (append_assoc length_append length_cons mem_cons mem_cons_of_mem mem_cons_self)

def NL : UInt8 := 10

/-- `sizeof(buf)`. -/
def SIZE : Nat := 1024

abbrev Buf := Bytes SIZE

/-! ## The functions -/

/-- `strchr(p, c)` in the buffer, for at most `n` characters. -/
def strchr (buf : Buf) (c : UInt8) : Nat → Nat → Option Nat
  | 0, _ => none
  | n + 1, p =>
    if buf.get p = 0 then none
    else if buf.get p = c then some p
    else strchr buf c n (p + 1)

/-- The C string at `p`. -/
def cstr (buf : Buf) (p : Nat) : Str := (buf.slice p (SIZE - p)).takeWhile (· ≠ 0)

/-- The inner loop of `grep` from `p` on, for at most `n` lines: what it writes, the buffer, and
where the rest begins. -/
def lines (pattern : Str) : Nat → Buf → Nat → List Str × Buf × Nat
  | 0, buf, p => ([], buf, p)
  | n + 1, buf, p =>
    match strchr buf NL (SIZE - p) p with
    | none => ([], buf, p)
    | some q =>
      let buf := buf.splice q [0]
      if reMatch pattern (cstr buf p) then
        let buf := buf.splice q [NL]
        let r := lines pattern n buf (q + 1)
        (buf.slice p (q + 1 - p) :: r.1, r.2)
      else lines pattern n buf (q + 1)

/-- `memmove(buf, p, n)`, for a buffer at address 0. -/
def memmove (buf : Buf) (p n : Nat) : Buf := fun i => (Ulib.userMemmove buf.get 0 p n).2 i

/-- `grep`, if `read` returns these pieces one after the other and then 0: what it writes. There is
no result if a piece is empty or larger than was asked for. -/
def grep (pattern : Str) : List Str → Buf → Nat → Option (List Str)
  | [], _, _ => some []
  | piece :: pieces, buf, m =>
    if piece ≠ [] ∧ piece.length ≤ SIZE - m - 1 then
      let buf := buf.splice m piece
      let m := m + piece.length
      let buf := buf.splice m [0]
      let r := lines pattern SIZE buf 0
      let buf := r.2.1
      let p := r.2.2
      let m := if p = 0 then 0 else m
      let buf := if 0 < m then memmove buf p (m - p) else buf
      let m := if 0 < m then m - p else m
      (grep pattern pieces buf m).map (r.1 ++ ·)
    else none

/-! ## The buffer -/

variable {buf : Buf} {p q m n : Nat} {pattern : Str}

theorem slice_cons (buf : Buf) (p n : Nat) :
    buf.slice p (n + 1) = buf.get p :: buf.slice (p + 1) n := by
  unfold Bytes.slice
  rw [List.range_succ_eq_map, List.map_cons, List.map_map]
  congr 1
  apply List.map_congr_left
  intro i _
  simp only [Function.comp, Nat.succ_eq_add_one]
  congr 1
  omega

theorem slice_append (buf : Buf) (p a b : Nat) :
    buf.slice p (a + b) = buf.slice p a ++ buf.slice (p + a) b := by
  induction a generalizing p with
  | zero => simp [Bytes.slice]
  | succ a ih =>
    rw [show a + 1 + b = a + b + 1 by omega, slice_cons, slice_cons, ih, List.cons_append,
      show p + 1 + a = p + (a + 1) by omega]

/-- The buffer has `s` at `p`, and then at least one more byte. -/
def Has (buf : Buf) (p : Nat) (s : Str) : Prop := p + s.length < SIZE ∧ buf.slice p s.length = s

variable {s t : Str}

theorem Has.append (h : Has buf p (s ++ t)) : Has buf p s ∧ Has buf (p + s.length) t := by
  obtain ⟨hlen, hs⟩ := h
  rw [length_append] at hlen hs
  rw [slice_append] at hs
  obtain ⟨h1, h2⟩ := List.append_inj hs (by simp)
  exact ⟨⟨by omega, h1⟩, by omega, h2⟩

theorem Has.concat (hs : Has buf p s) (ht : Has buf (p + s.length) t) : Has buf p (s ++ t) := by
  have hlen := ht.1
  refine ⟨by rw [length_append]; omega, ?_⟩
  rw [length_append, slice_append, hs.2, ht.2]

variable {c : UInt8}

theorem Has.cons (h : Has buf p (c :: s)) : buf.get p = c ∧ Has buf (p + 1) s := by
  obtain ⟨hlen, hs⟩ := h
  rw [length_cons] at hlen hs
  rw [slice_cons] at hs
  obtain ⟨h1, h2⟩ := List.cons.inj hs
  exact ⟨h1, by omega, h2⟩

variable {l : Str} {off : Nat}

theorem Has.splice (h : Has buf p s) (hoff : p + s.length ≤ off ∨ off + l.length ≤ p) :
    Has (buf.splice off l) p s :=
  ⟨h.1, by rw [Bytes.slice_splice_disjoint buf hoff, h.2]⟩

theorem has_splice (h : off + s.length < SIZE) : Has (buf.splice off s) off s :=
  ⟨h, Bytes.slice_splice_same buf (by omega)⟩

theorem get_splice_self (h : q < SIZE) : (buf.splice q [c]).get q = c := by
  rw [Bytes.get_splice_of_mem buf h (Nat.le_refl q) (by simp)]
  simp

theorem get_splice_ne (h : p ≠ q) : (buf.splice q [c]).get p = buf.get p :=
  Bytes.get_splice_of_not_mem buf (by rw [List.length_singleton]; omega)

theorem strchr_found (h : Has buf p (l ++ [NL])) (hnl : NL ∉ l) (h0 : (0 : UInt8) ∉ l)
    (hn : l.length < n) : strchr buf NL n p = some (p + l.length) := by
  induction l generalizing p n with
  | nil =>
    obtain ⟨hc, -⟩ := h.cons
    obtain ⟨k, rfl⟩ := Nat.exists_eq_add_of_lt hn
    simp [strchr, hc, NL]
  | cons c l ih =>
    obtain ⟨hc, hl⟩ := Has.cons (s := l ++ [NL]) h
    rw [mem_cons, not_or] at hnl h0
    rw [length_cons] at hn ⊢
    obtain ⟨k, rfl⟩ : ∃ k, n = k + 1 := ⟨n - 1, by omega⟩
    rw [strchr, hc, if_neg (Ne.symm h0.1), if_neg (Ne.symm hnl.1), ih hl hnl.2 h0.2 (by omega)]
    congr 1
    omega

theorem strchr_none (h : Has buf p s) (hnl : NL ∉ s) (hend : buf.get (p + s.length) = 0) :
    strchr buf NL n p = none := by
  induction s generalizing p n with
  | nil =>
    cases n with
    | zero => rfl
    | succ n => simpa [strchr] using fun h0 => absurd hend h0
  | cons c s ih =>
    obtain ⟨hc, hs⟩ := h.cons
    rw [mem_cons, not_or] at hnl
    cases n with
    | zero => rfl
    | succ n =>
      rw [strchr, hc]
      split
      · rfl
      · rw [if_neg (Ne.symm hnl.1)]
        refine ih hs hnl.2 ?_
        rw [← hend, length_cons]
        congr 1
        omega

theorem cstr_eq (h : Has buf p l) (h0 : (0 : UInt8) ∉ l) (hend : buf.get (p + l.length) = 0) :
    cstr buf p = l := by
  have hlen := h.1
  unfold cstr
  rw [show SIZE - p = l.length + ((SIZE - p - l.length - 1) + 1)
    by omega, slice_append, h.2, slice_cons, hend, List.takeWhile_append_of_pos]
  · simp
  · intro c hc
    simp only [ne_eq, decide_eq_true_eq]
    rintro rfl
    exact h0 hc

theorem slice_memmove (hn : p + n < SIZE) : (memmove buf p n).slice 0 n = buf.slice p n := by
  unfold Bytes.slice
  refine List.map_congr_left fun i hi => ?_
  have hi := List.mem_range.1 hi
  have hat := Ulib.userMemmove_at (m := buf.get) (d := 0) (s := p) hi
  rw [Nat.zero_add] at hat ⊢
  rw [Bytes.get, dif_pos (by omega), memmove, hat, Ulib.source, if_neg (Nat.not_lt_zero p)]

/-! ## Lines -/

def unlines (ls : List Str) : Str := ls.flatMap (· ++ [NL])

def Clean (ls : List Str) : Prop := ∀ l ∈ ls, NL ∉ l ∧ (0 : UInt8) ∉ l

theorem unlines_cons (l : Str) (ls : List Str) : unlines (l :: ls) = (l ++ [NL]) ++ unlines ls :=
  List.flatMap_cons

theorem length_le_unlines (ls : List Str) : ls.length ≤ (unlines ls).length := by
  induction ls with
  | nil => exact Nat.le_refl 0
  | cons l ls ih =>
    rw [unlines_cons]
    simp only [length_append, length_cons, List.length_nil]
    omega

variable {ls : List Str}

theorem Clean.zero_notMem (h : Clean ls) : (0 : UInt8) ∉ unlines ls := by
  intro hm
  obtain ⟨l, hl, hm⟩ := List.mem_flatMap.1 hm
  rcases List.mem_append.1 hm with hm | hm
  · exact (h l hl).2 hm
  · simp [NL] at hm

variable {tail : Str}

theorem eq_nil_of_notMem (h : NL ∉ unlines ls ++ tail) : ls = [] := by
  cases ls with
  | nil => rfl
  | cons l ls => simp [unlines_cons] at h

theorem exists_lines (s : Str) (h0 : (0 : UInt8) ∉ s) : ∃ ls tail, s = unlines ls ++ tail ∧
    Clean ls ∧
    NL ∉ tail := by
  induction s with
  | nil => exact ⟨[], [], rfl, nofun, nofun⟩
  | cons c s ih =>
    rw [mem_cons, not_or] at h0
    obtain ⟨ls, tail, rfl, hls, htail⟩ := ih h0.2
    by_cases hc : c = NL
    · refine ⟨[] :: ls, tail, by rw [unlines_cons, hc]; rfl, fun l hl => ?_, htail⟩
      rcases List.mem_cons.1 hl with rfl | hl
      · exact ⟨nofun, nofun⟩
      · exact hls l hl
    · cases ls with
      | nil => exact ⟨[], c :: tail, rfl, nofun, by simp [htail, Ne.symm hc]⟩
      | cons l ls =>
        refine ⟨(c :: l) :: ls, tail,
          by rw [unlines_cons, unlines_cons]; rfl, fun k hk => ?_, htail⟩
        rcases List.mem_cons.1 hk with rfl | hk
        · obtain ⟨h1, h2⟩ := hls l mem_cons_self
          simp [h1, h2, Ne.symm hc, h0.1]
        · exact hls k (mem_cons_of_mem _ hk)

theorem line_inj {l' s' : Str} (hl : NL ∉ l) (hl' : NL ∉ l') (h : l ++ NL :: s = l' ++ NL :: s') :
    l = l' ∧ s = s' := by
  induction l generalizing l' with
  | nil =>
    cases l' with
    | nil => exact ⟨rfl, (List.cons.inj h).2⟩
    | cons c l' => exact absurd (List.mem_cons.2 (.inl (List.cons.inj h).1)) hl'
  | cons c l ih =>
    cases l' with
    | nil => exact absurd (List.mem_cons.2 (.inl (List.cons.inj h).1.symm)) hl
    | cons c' l' =>
      obtain ⟨rfl, h'⟩ := List.cons.inj h
      obtain ⟨rfl, hs⟩ := ih (fun hm => hl (mem_cons_of_mem _ hm))
        (fun hm => hl' (mem_cons_of_mem _ hm)) h'
      exact ⟨rfl, hs⟩

theorem lines_unique {ls' : List Str} (hls : Clean ls) (hls' : Clean ls')
    (h : unlines ls ++ s = unlines ls') : ∃ rest, ls' = ls ++ rest ∧ s = unlines rest := by
  induction ls generalizing ls' with
  | nil => exact ⟨ls', rfl, h⟩
  | cons l ls ih =>
    cases ls' with
    | nil => simp [unlines] at h
    | cons l' ls' =>
      rw [unlines_cons, unlines_cons] at h
      simp only [append_assoc, List.cons_append] at h
      obtain ⟨rfl, htail⟩ := line_inj (hls l mem_cons_self).1 (hls' l' mem_cons_self).1 h
      obtain ⟨rest, rfl, hs⟩ := ih (fun k hk => hls k (mem_cons_of_mem _ hk))
        (fun k hk => hls' k (mem_cons_of_mem _ hk)) htail
      exact ⟨rest, rfl, hs⟩

/-- What `grep` should write for some lines. -/
def matching (pattern : Str) (ls : List Str) : List Str :=
  (ls.filter (reMatch pattern)).map (· ++ [NL])

theorem matching_append (pattern : Str) (ls ls' : List Str) :
    matching pattern (ls ++ ls') = matching pattern ls ++ matching pattern ls' := by
  simp [matching]

theorem matching_cons_pos (ls : List Str) (h : reMatch pattern l = true) :
    matching pattern (l :: ls) = (l ++ [NL]) :: matching pattern ls := by
  simp [matching, h]

theorem matching_cons_neg (ls : List Str) (h : ¬ reMatch pattern l = true) :
    matching pattern (l :: ls) = matching pattern ls := by
  simp [matching, h]

theorem lines_spec (pattern : Str) (h : Has buf p (unlines ls ++ tail)) (hls : Clean ls)
    (htail : NL ∉ tail) (hend : buf.get (p + (unlines ls ++ tail).length) = 0)
    (hn : ls.length < n) :
    (lines pattern n buf p).1 = matching pattern ls ∧
      (lines pattern n buf p).2.2 = p + (unlines ls).length ∧
      Has (lines pattern n buf p).2.1 (p + (unlines ls).length) tail := by
  induction ls generalizing buf p n with
  | nil =>
    obtain ⟨k, rfl⟩ : ∃ k, n = k + 1 := ⟨n - 1, by simp at hn; omega⟩
    rw [lines, strchr_none (s := tail) h htail hend]
    exact ⟨rfl, rfl, h⟩
  | cons l ls ih =>
    obtain ⟨k, rfl⟩ : ∃ k, n = k + 1 := ⟨n - 1, by simp at hn; omega⟩
    obtain ⟨hnl, h0⟩ := hls l mem_cons_self
    rw [unlines_cons, append_assoc] at h hend
    obtain ⟨hline, hrest⟩ := h.append
    have hlen : (l ++ [NL]).length = l.length + 1 := by simp
    have hbound := hline.1
    rw [hlen] at hbound hrest
    have hfound := strchr_found (n := SIZE - p) hline hnl h0 (by omega)
    -- the line without its newline, and the text after it, are not touched
    have hl0 : Has (buf.splice (p + l.length) [0]) p l :=
      hline.append.1.splice (.inl (Nat.le_refl _))
    have hstr : cstr (buf.splice (p + l.length) [0]) p = l :=
      cstr_eq hl0 h0 (get_splice_self (by omega))
    have hend' : p + (l.length + 1) + (unlines ls ++ tail).length ≠ p + l.length := by omega
    have hsum : p + ((l ++ [NL]) ++ (unlines ls ++ tail)).length =
        p + (l.length + 1) + (unlines ls ++ tail).length := by
      rw [length_append, hlen]
      omega
    rw [hsum] at hend
    have hpos : p + (unlines (l :: ls)).length = p + (l.length + 1) + (unlines ls).length := by
      rw [unlines_cons, length_append, hlen]
      omega
    rw [lines, hfound, hpos]
    dsimp only
    rw [hstr]
    by_cases hm : reMatch pattern l = true
    · rw [if_pos hm]
      have hrest' : Has ((buf.splice (p + l.length) [0]).splice (p + l.length) [NL])
        (p + l.length + 1)
          (unlines ls ++ tail) :=
        (hrest.splice (.inr (Nat.le_refl _))).splice (.inr (Nat.le_refl _))
      obtain ⟨h1, h2, h3⟩ := ih (n := k) hrest'
        (fun j hj => hls j (mem_cons_of_mem _ hj))
        (by rw [show p + l.length + 1 = p + (l.length + 1) by omega, get_splice_ne hend',
          get_splice_ne hend', hend]) (by simp at hn; omega)
      refine ⟨?_,
        by rw [h2]; omega, by rw [show p + (l.length + 1) = p + l.length + 1 by omega]; exact h3⟩
      rw [h1, matching_cons_pos ls hm]
      rw [show p + l.length + 1 - p = l.length + 1 by omega, slice_append,
        (hl0.splice (l := [NL]) (.inl (Nat.le_refl _))).2, slice_cons, get_splice_self (by omega)]
      simp [Bytes.slice]
    · rw [if_neg hm]
      have hrest' : Has (buf.splice (p + l.length) [0]) (p + l.length + 1) (unlines ls ++ tail) :=
        hrest.splice (.inr (Nat.le_refl _))
      obtain ⟨h1, h2, h3⟩ := ih (n := k) hrest' (fun j hj => hls j (mem_cons_of_mem _ hj))
        (by rw [show p + l.length + 1 = p + (l.length + 1) by omega, get_splice_ne hend', hend])
        (by simp at hn; omega)
      refine ⟨?_,
        by rw [h2]; omega, by rw [show p + (l.length + 1) = p + l.length + 1 by omega]; exact h3⟩
      rw [h1, matching_cons_neg ls hm]

/-! ## Pieces -/

/-- One piece, read behind the beginning of a line: the lines that it completes are matched, and
what follows them is kept, unless there is no line at all. -/
theorem grep_cons {piece carry : Str} (h0 : (0 : UInt8) ∉ carry ++ piece)
    (hpiece : piece ≠ [] ∧ piece.length ≤ SIZE - carry.length - 1) :
    ∃ ls tail, carry ++ piece = unlines ls ++ tail ∧ Clean ls ∧ NL ∉ tail ∧
      ∀ pattern pieces buf, Has buf 0 carry → ∃ buf', Has buf' 0 (if ls = [] then [] else tail) ∧
        grep pattern (piece :: pieces) buf carry.length =
          (grep pattern pieces buf' (if ls = [] then [] else tail).length).map
            (matching pattern ls ++ ·) := by
  obtain ⟨ls, tail, hsplit, hls, htail⟩ := exists_lines _ h0
  refine ⟨ls, tail, hsplit, hls, htail, fun pattern pieces buf hbuf => ?_⟩
  have hm := hbuf.1
  -- the buffer after `read`, with the NUL at its end
  have htext : Has ((buf.splice carry.length piece).splice (carry.length + piece.length) [0]) 0
      (carry ++ piece) := by
    refine Has.splice (Has.concat (hbuf.splice (.inl (by omega))) ?_) (.inl ?_)
    · rw [Nat.zero_add]
      exact has_splice (by omega)
    · rw [length_append]
      omega
  have hlen : carry.length + piece.length = (unlines ls).length + tail.length := by
    rw [← length_append, hsplit, length_append]
  rw [hsplit] at htext
  have hmax := length_le_unlines ls
  have hend : ((buf.splice carry.length piece).splice (carry.length + piece.length) [0]).get
      (0 + (unlines ls ++ tail).length) = 0 := by
    rw [Nat.zero_add, ← hsplit, length_append]
    exact get_splice_self (by omega)
  obtain ⟨hout, hp, hhas⟩ := lines_spec pattern (n := SIZE) htext hls htail hend (by omega)
  rw [Nat.zero_add] at hp hhas
  rw [hlen] at hout hp hhas
  rw [grep, if_pos hpiece]
  simp only [hlen, hp, hout]
  cases ls with
  | nil =>
    rw [if_pos rfl]
    exact ⟨_, ⟨by decide, rfl⟩, rfl⟩
  | cons l ls =>
    have hpos : 0 < (unlines (l :: ls)).length := by
      rw [unlines_cons]
      simp
    have hsum : 0 < (unlines (l :: ls)).length + tail.length := by omega
    simp only [Nat.pos_iff_ne_zero.1 hpos, hsum, if_false, if_true, Nat.add_sub_cancel_left,
      if_neg (List.cons_ne_nil l ls)]
    refine ⟨_, ⟨by have := hhas.1; omega, ?_⟩, rfl⟩
    rw [slice_memmove hhas.1, hhas.2]

theorem grep_read {piece : Str} {pieces : List Str}
    (h : (grep pattern (piece :: pieces) buf m).isSome) :
    piece ≠ [] ∧ piece.length ≤ SIZE - m - 1 := by
  by_contra hno
  rw [grep, if_neg hno] at h
  cases h

variable {pieces : List Str} {carry : Str} {out : List Str}

/-- What `read` may deliver does not depend on the pattern. -/
theorem grep_isSome (pattern' : Str) {buf' : Buf} (hbuf : Has buf 0 carry)
    (hbuf' : Has buf' 0 carry)
    (h0 : (0 : UInt8) ∉ carry ++ pieces.flatten)
    (h : (grep pattern pieces buf carry.length).isSome) :
    (grep pattern' pieces buf' carry.length).isSome := by
  induction pieces generalizing buf buf' carry with
  | nil => rfl
  | cons piece pieces ih =>
    rw [List.flatten_cons, ← append_assoc] at h0
    obtain ⟨ls, tail, hsplit, -, -, hcons⟩ :=
      grep_cons (fun hmem => h0 (List.mem_append_left _ hmem)) (grep_read h)
    obtain ⟨b, hb, heq⟩ := hcons pattern pieces buf hbuf
    obtain ⟨b', hb', heq'⟩ := hcons pattern' pieces buf' hbuf'
    rw [heq, Option.isSome_map] at h
    rw [heq', Option.isSome_map]
    refine ih hb hb' (fun hmem => h0 ?_) h
    rw [hsplit, append_assoc]
    refine List.mem_append_right _ ?_
    split at hmem
    · exact List.mem_append_right _ hmem
    · exact hmem

theorem grep_spec (hbuf : Has buf 0 carry) (hls : Clean ls)
    (hin : carry ++ pieces.flatten = unlines ls) (hcarry : NL ∉ carry)
    (hnl : ∀ piece ∈ pieces, NL ∈ piece) (h : grep pattern pieces buf carry.length = some out) :
    out = matching pattern ls := by
  induction pieces generalizing buf ls carry out with
  | nil =>
    cases h
    rw [List.flatten_nil, List.append_nil] at hin
    have hno : NL ∉ unlines ls ++ [] := by rwa [List.append_nil, ← hin]
    rw [eq_nil_of_notMem hno]
    rfl
  | cons piece pieces ih =>
    rw [List.flatten_cons, ← append_assoc] at hin
    obtain ⟨ls1, tail, hsplit, hls1, htail, hcons⟩ :=
      grep_cons (fun hmem => hls.zero_notMem (hin ▸ List.mem_append_left _ hmem))
        (grep_read (Option.isSome_iff_exists.2 ⟨out, h⟩))
    have hne : ls1 ≠ [] := by
      rintro rfl
      have hmem : NL ∈ carry ++ piece := List.mem_append_right _ (hnl piece mem_cons_self)
      rw [hsplit] at hmem
      exact htail hmem
    obtain ⟨buf', hbuf', heq⟩ := hcons pattern pieces buf hbuf
    rw [if_neg hne] at hbuf' heq
    rw [heq, Option.map_eq_some_iff] at h
    obtain ⟨out', hgrep, rfl⟩ := h
    rw [hsplit, append_assoc] at hin
    obtain ⟨rest, rfl, hrest⟩ := lines_unique hls1 hls hin
    rw [matching_append, ih hbuf' (fun l hl => hls l (List.mem_append_right _ hl)) hrest htail
      (fun piece hp => hnl piece (mem_cons_of_mem _ hp)) hgrep]

theorem length_matching_le (pattern : Str) (ls : List Str) :
    (matching pattern ls).flatten.length ≤ (unlines ls).length := by
  induction ls with
  | nil => exact le_rfl
  | cons l ls ih =>
    rw [unlines_cons, length_append]
    by_cases hm : reMatch pattern l = true
    · rw [matching_cons_pos ls hm, List.flatten_cons, length_append]
      omega
    · rw [matching_cons_neg ls hm]
      omega

/-- `grep` writes no more bytes than it reads, and fewer if a piece has no newline. -/
theorem length_grep_le (hbuf : Has buf 0 carry) (hcarry : NL ∉ carry)
    (h0 : (0 : UInt8) ∉ carry ++ pieces.flatten)
    (h : grep pattern pieces buf carry.length = some out) :
    out.flatten.length ≤ carry.length + pieces.flatten.length ∧
      ((∃ piece ∈ pieces, NL ∉ piece) →
        out.flatten.length < carry.length + pieces.flatten.length) := by
  induction pieces generalizing buf carry out with
  | nil =>
    cases h
    exact ⟨Nat.zero_le _, fun ⟨_, hp, _⟩ => absurd hp List.not_mem_nil⟩
  | cons piece pieces ih =>
    rw [List.flatten_cons, ← append_assoc] at h0
    have hread := grep_read (Option.isSome_iff_exists.2 ⟨out, h⟩)
    obtain ⟨ls, tail, hsplit, hls, htail, hcons⟩ :=
      grep_cons (fun hmem => h0 (List.mem_append_left _ hmem)) hread
    obtain ⟨buf', hbuf', heq⟩ := hcons pattern pieces buf hbuf
    rw [heq, Option.map_eq_some_iff] at h
    obtain ⟨out', hgrep, rfl⟩ := h
    have hmatch := length_matching_le pattern ls
    have hpos := List.length_pos_iff.2 hread.1
    have hlen : carry.length + piece.length = (unlines ls).length + tail.length := by
      rw [← length_append, hsplit, length_append]
    rw [hsplit, append_assoc] at h0
    simp only [List.flatten_append, List.flatten_cons, length_append]
    by_cases hnil : ls = []
    · -- everything in the buffer is dropped
      subst hnil
      rw [if_pos rfl] at hbuf' hgrep
      obtain ⟨hle, -⟩ := ih hbuf' nofun
        (fun hmem => h0 (List.mem_append_right _ (List.mem_append_right _ hmem))) hgrep
      rw [List.length_nil] at hle
      have hnone : (unlines []).length = 0 := rfl
      exact ⟨by omega, fun _ => by omega⟩
    · rw [if_neg hnil] at hbuf' hgrep
      obtain ⟨hle, hlt⟩ := ih hbuf' htail (fun hmem => h0 (List.mem_append_right _ hmem)) hgrep
      refine ⟨by omega, ?_⟩
      rintro ⟨x, hx, hxn⟩
      rcases List.mem_cons.1 hx with rfl | hx
      · -- a line ends in the piece, as there is no newline in what was kept
        refine absurd ?_ hnil
        exact eq_nil_of_notMem (by rw [← hsplit, List.mem_append, not_or]; exact ⟨hcarry, hxn⟩)
      · have := hlt ⟨x, hx, hxn⟩
        omega

theorem matching_nil (ls : List Str) : (matching [] ls).flatten = unlines ls := by
  induction ls with
  | nil => rfl
  | cons l ls ih =>
    rw [matching_cons_pos ls (by cases l <;> rfl), List.flatten_cons, ih, unlines_cons]

/-- For pieces as `read` may deliver them: `grep` writes exactly the matching lines, in order and
each once, whatever the pattern, if and only if every piece has a newline in it. -/
theorem grep_lines (ls pieces : List Str) (hls : Clean ls) (hin : pieces.flatten = unlines ls)
    (buf : Buf) (hread : ∃ pattern, (grep pattern pieces buf 0).isSome) :
    (∀ pattern, grep pattern pieces buf 0 = some (matching pattern ls)) ↔
      ∀ piece ∈ pieces, NL ∈ piece := by
  have hbuf : Has buf 0 ([] : Str) := ⟨by decide, rfl⟩
  constructor
  · intro h
    by_contra hno
    push Not at hno
    have hlen := (length_grep_le hbuf nofun (by rw [List.nil_append, hin]; exact hls.zero_notMem)
      (h [])).2 hno
    rw [matching_nil, List.length_nil, Nat.zero_add, hin] at hlen
    exact Nat.lt_irrefl _ hlen
  · intro hnl pattern
    obtain ⟨_, hread⟩ := hread
    obtain ⟨out, hout⟩ := Option.isSome_iff_exists.1 (grep_isSome pattern hbuf hbuf
      (by rw [List.nil_append, hin]; exact hls.zero_notMem) hread)
    exact hout.trans (congrArg some (grep_spec hbuf hls hin nofun hnl hout))

/-- The lines `hello` and `hi`, delivered in two pieces, and the pattern `ll`. -/
theorem grep_lines_two_pieces :
    grep [108, 108] [[104, 101, 108, 108, 111, 10, 104], [105, 10]] Bytes.zero 0 =
      some (matching [108, 108] [[104, 101, 108, 108, 111], [104, 105]]) :=
  (grep_lines [[104, 101, 108, 108, 111], [104, 105]] [[104, 101, 108, 108, 111, 10, 104],
    [105, 10]]
    (by unfold Clean; decide) rfl Bytes.zero ⟨[108, 108], by decide +kernel⟩).2 (by decide)
      [108, 108]

/-- The line `hello` is delivered as `hel` and `lo`, as a pipe may do: the first piece is dropped,
and the pattern `hello` is not found. -/
theorem grep_drops : grep [104, 101, 108, 108, 111] [[104, 101, 108], [108, 111, 10]] Bytes.zero 0 =
      some [] ∧
    [[104, 101, 108], [108, 111, 10]].flatten = unlines [[104, 101, 108, 108, 111]] ∧
    matching [104, 101, 108, 108, 111] [[104, 101, 108, 108, 111]] =
    [[104, 101, 108, 108, 111, 10]] := by
  decide +kernel

end Xv6.Grep
