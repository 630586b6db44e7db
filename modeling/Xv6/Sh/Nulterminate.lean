import Xv6.Sh.Render

/-!
# Ending the words in place

All words of a tree lie in the one buffer of the line. `nulterminate` writes a NUL where a word
ends: over a blank, over a symbol, or over the NUL of the line. No character of another word stands
there.
-/

namespace Xv6.Sh

/-- The place of a pointer in the buffer, of a line with `es` characters. -/
def place (es : Nat) (p : Ptr) : Nat := es - p.length

/-- `*eq = 0`. -/
def endWord (es : Nat) (buf : Str) (w : Span) : Str := buf.set (place es w.2) 0

def nulterminate (es : Nat) : Cmd Span → Str → Str
  | .exec argv, buf => argv.foldl (endWord es) buf
  | .redir cmd file _ _, buf => endWord es (nulterminate es cmd buf) file
  | .pipe left right, buf => nulterminate es right (nulterminate es left buf)
  | .list left right, buf => nulterminate es right (nulterminate es left buf)
  | .back cmd, buf => nulterminate es cmd buf

def cstring (buf : Str) (i : Nat) : Str := (buf.drop i).takeWhile (· ≠ 0)

def buffer (line : Str) : Str := line ++ [0]

theorem nulterminate_eq (es : Nat) (c : Cmd Span) :
    ∀ buf, nulterminate es c buf = c.words.foldl (endWord es) buf := by
  induction c with
  | exec argv => exact fun buf => rfl
  | redir cmd file mode fd ih =>
    intro buf
    rw [nulterminate, Cmd.words, List.foldl_append, ih]
    rfl
  | pipe left right ihl ihr =>
    intro buf
    rw [nulterminate, Cmd.words, List.foldl_append, ihl, ihr]
  | list left right ihl ihr =>
    intro buf
    rw [nulterminate, Cmd.words, List.foldl_append, ihl, ihr]
  | back cmd ih => exact ih

variable {es : Nat} {ws : List Span} {line buf : Str} {w w' : Span} {i : Nat}

theorem get_endWords_of_not_mem (ws : List Span) : ∀ buf : Str, (∀ w ∈ ws, place es w.2 ≠ i) →
    (ws.foldl (endWord es) buf)[i]? = buf[i]? := by
  induction ws with
  | nil => exact fun buf _ => rfl
  | cons w ws ih =>
    intro buf h
    rw [List.foldl_cons, ih _ fun v hv => h v (List.mem_cons_of_mem _ hv)]
    exact List.getElem?_set_ne (h w List.mem_cons_self)

theorem get_endWords_of_mem (ws : List Span) : ∀ buf : Str, (∃ w ∈ ws, place es w.2 = i) →
    i < buf.length → (ws.foldl (endWord es) buf)[i]? = some 0 := by
  induction ws with
  | nil => exact fun buf h _ => absurd h (by simp)
  | cons w ws ih =>
    intro buf h hi
    rw [List.foldl_cons]
    by_cases hws : ∃ w ∈ ws, place es w.2 = i
    · exact ih _ hws (by rwa [endWord, List.length_set])
    · push Not at hws
      obtain ⟨v, hv, hvi⟩ := h
      have hvw : v = w := by
        rcases List.mem_cons.1 hv with hv | hv
        · exact hv
        · exact absurd hvi (hws v hv)
      subst hvw
      rw [get_endWords_of_not_mem ws _ hws, endWord, hvi]
      exact List.getElem?_set_self hi

/-! ## Where the words of a line stand -/

theorem suffix_drop {p : Ptr} (h : p <:+ line) : line.drop (place line.length p) = p := by
  obtain ⟨t, rfl⟩ := h
  unfold place
  rw [List.length_append, Nat.add_sub_cancel, List.drop_left]

theorem IsSpan.suffix_end (h : IsSpan line w) : w.2 <:+ line := by
  have ht : w.2 <:+ w.1 := ⟨w.text, h.text.symm⟩
  exact ht.trans h.1

theorem IsSpan.place_end (h : IsSpan line w) :
    place line.length w.2 = place line.length w.1 + w.text.length := by
  have h1 := h.1.length_le
  have h2 : w.1.length = w.text.length + w.2.length := by
    rw [← List.length_append, ← h.text]
  unfold place
  omega

theorem IsSpan.get (h : IsSpan line w) (j : Nat) (hj : j < w.text.length) :
    (line)[place line.length w.1 + j]? = w.text[j]? := by
  rw [← List.getElem?_drop, suffix_drop h.1, h.text, List.getElem?_append_left hj]

theorem IsSpan.inside (h : IsSpan line w) {i : Nat} (h1 : place line.length w.1 ≤ i)
    (h2 : i < place line.length w.2) : ∃ c, (line)[i]? = some c ∧ isWord c = true := by
  rw [h.place_end] at h2
  obtain ⟨j, rfl⟩ := Nat.exists_eq_add_of_le h1
  have hj : j < w.text.length := by omega
  refine ⟨w.text[j], ?_, h.spelled.2 _ (List.getElem_mem hj)⟩
  rw [h.get j hj, List.getElem?_eq_getElem hj]

theorem IsSpan.not_inside (h : IsSpan line w) {c : UInt8}
    (hc : (line)[place line.length w.2]? = some c) : isWord c = false := by
  have hs := suffix_drop h.suffix_end
  obtain ⟨-, u, -, -, -, hend⟩ := h
  refine hend c ?_
  rw [Option.mem_def, ← hc, ← hs, List.head?_drop]
  rw [hs]

theorem IsSpan.apart (h : IsSpan line w) (h' : IsSpan line w') :
    ¬ (place line.length w'.1 ≤ place line.length w.2 ∧
      place line.length w.2 < place line.length w'.2) := by
  rintro ⟨h1, h2⟩
  obtain ⟨c, hc, hw⟩ := h'.inside h1 h2
  rw [h.not_inside hc] at hw
  cases hw

theorem cstring_endWords (h0 : (0 : UInt8) ∉ line) (hws : ∀ w ∈ ws, IsSpan line w) (hw : w ∈ ws) :
    cstring (ws.foldl (endWord line.length) (buffer line)) (place line.length w.1) = w.text := by
  have h := hws w hw
  have hlen : (buffer line).length = line.length + 1 := List.length_append
  have hend := h.place_end
  have hle : place line.length w.2 ≤ line.length := Nat.sub_le _ _
  -- its characters are still there
  have hget : ∀ j < w.text.length,
      (ws.foldl (endWord line.length) (buffer line))[place line.length w.1 + j]? = w.text[j]? := by
    intro j hj
    rw [get_endWords_of_not_mem ws _ fun v hv e => (hws v hv).apart h ⟨by omega, by omega⟩,
      buffer, List.getElem?_append_left (by omega), h.get j hj]
  -- and a NUL stands behind them
  have hnul :
    (ws.foldl (endWord line.length) (buffer line))[place line.length w.1 + w.text.length]? =
      some 0 := by
    refine get_endWords_of_mem ws _ ⟨w, hw, hend⟩ ?_
    rw [hlen]
    omega
  have hsplit : (ws.foldl (endWord line.length) (buffer line)).drop (place line.length w.1) =
      w.text ++ 0 :: (ws.foldl (endWord line.length) (buffer line)).drop
        (place line.length w.1 + w.text.length + 1) := by
    refine List.ext_getElem? fun j => ?_
    rw [List.getElem?_drop]
    rcases Nat.lt_trichotomy j w.text.length with hj | rfl | hj
    · rw [hget j hj, List.getElem?_append_left hj]
    · rw [hnul, List.getElem?_append_right (Nat.le_refl _), Nat.sub_self]
      rfl
    · obtain ⟨k, rfl⟩ := Nat.exists_eq_add_of_lt hj
      rw [List.getElem?_append_right (by omega),
        show w.text.length + k + 1 - w.text.length = k + 1 by omega, List.getElem?_cons_succ,
        List.getElem?_drop]
      congr 1
      omega
  have hne : ∀ c ∈ w.text, decide (c ≠ 0) = true := by
    intro c hc
    refine decide_eq_true fun e => h0 ?_
    have hmem : c ∈ w.1 := by
      rw [h.text]
      exact List.mem_append_left _ hc
    exact e ▸ h.1.subset hmem
  unfold cstring
  rw [hsplit, List.takeWhile_append_of_pos hne]
  simp

theorem map_congr_words {α β : Type} {f g : α → β} (c : Cmd α) (h : ∀ w ∈ c.words, f w = g w) :
    c.map f = c.map g := by
  induction c with
  | exec argv => exact congrArg Cmd.exec (List.map_congr_left h)
  | redir cmd file mode fd ih =>
    rw [Cmd.words, List.forall_mem_append] at h
    rw [Cmd.map, Cmd.map, ih h.1, h.2 file (List.mem_singleton.2 rfl)]
  | pipe left right ihl ihr =>
    rw [Cmd.words, List.forall_mem_append] at h
    rw [Cmd.map, Cmd.map, ihl h.1, ihr h.2]
  | list left right ihl ihr =>
    rw [Cmd.words, List.forall_mem_append] at h
    rw [Cmd.map, Cmd.map, ihl h.1, ihr h.2]
  | back cmd ih => rw [Cmd.map, Cmd.map, ih h]

/-- For an accepted line, the tree with its words read from the buffer after `nulterminate` is the
tree of the derivation. The NULs are written inside the buffer, each at the end of its word and
inside no other; nothing else changes. -/
theorem nulterminate_words {line : Str} (h0 : (0 : UInt8) ∉ line) {c : Cmd Span} {s : Ptr}
    (h : parsecmd line = .done c s) :
    Derives .line (lex line)
      (c.map fun w => cstring (nulterminate line.length c (buffer line)) (place line.length w.1)) ∧
    (∀ w ∈ c.words, w.2 <:+ line ∧ place line.length w.2 < (buffer line).length) ∧
    (∀ w ∈ c.words, ∀ w' ∈ c.words, ¬ (place line.length w'.1 ≤ place line.length w.2 ∧
      place line.length w.2 < place line.length w'.2)) ∧
    ∀ i, (∀ w ∈ c.words, place line.length w.2 ≠ i) →
      (nulterminate line.length c (buffer line))[i]? = (buffer line)[i]? := by
  have hspec := parsecmd_spec line
  rw [h] at hspec
  obtain ⟨-, hspans, hd⟩ := hspec
  rw [nulterminate_eq]
  refine ⟨?_, fun w hw => ⟨(hspans w hw).suffix_end, ?_⟩,
    fun w hw w' hw' => (hspans w hw).apart (hspans w' hw'), fun i hi =>
      get_endWords_of_not_mem _ _ hi⟩
  · rw [map_congr_words c fun w hw => cstring_endWords h0 hspans hw]
    exact hd
  · rw [buffer, List.length_append]
    exact Nat.lt_succ_of_le (Nat.sub_le _ _)

/-- `a>b|c`: the words end at symbols. -/
theorem nulterminate_words_tight : ∃ c, parsecmd [97, 62, 98, 124, 99] = .done c [] ∧
    nulterminate 5 c (buffer [97, 62, 98, 124, 99]) = [97, 0, 98, 0, 99, 0] ∧
    Derives .line (lex [97, 62, 98, 124, 99]) (c.map fun w =>
      cstring (nulterminate 5 c (buffer [97, 62, 98, 124, 99])) (place 5 w.1)) :=
  ⟨.pipe (.redir (.exec [([97, 62, 98, 124, 99], [62, 98, 124, 99])]) ([98, 124, 99],
    [124, 99]) 0x201 1) (.exec [([99], [])]), by decide +kernel, by decide +kernel,
    (nulterminate_words (s := []) (by decide) (by decide +kernel)).1⟩

end Xv6.Sh
