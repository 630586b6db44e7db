import Mathlib.Data.List.Basic

/-!
# The tokens of a command line

A line is a list of characters, without the NUL at its end. A pointer into the line is given by what
follows it, so that the pointer `es` is the empty list. `gettoken` and `peek` both skip blanks
first; `lex` lists the tokens that `gettoken` returns one after the other. A text that spells tokens
with blanks between them has these tokens.
-/

namespace Xv6.Sh

abbrev Str := List UInt8

abbrev Ptr := List UInt8

def whitespace : Str := [32, 9, 13, 10, 11]
def symbols : Str := [60, 124, 62, 38, 59, 40, 41]

def isSpace (c : UInt8) : Bool := whitespace.contains c

def isSymbol (c : UInt8) : Bool := symbols.contains c

def isWord (c : UInt8) : Bool := !isSpace c && !isSymbol c

/-- What `gettoken` returns: 0, one of the symbols, `'+'` for `>>`, and `'a'` for a word. -/
inductive Tok where
  | eof
  | pipe
  | lpar
  | rpar
  | semi
  | amp
  | lt
  | gt
  | app
  | word
deriving DecidableEq

/-- `while(s < es && strchr(whitespace, *s)) s++`. -/
def skip (s : Ptr) : Ptr := s.dropWhile isSpace

/-- The switch of `gettoken` at a character `c` that is no blank, with `t` after it: the token, and
where it ends. -/
def token (c : UInt8) (t : Ptr) : Tok × Ptr :=
  if c = 124 then (.pipe, t)
  else if c = 40 then (.lpar, t)
  else if c = 41 then (.rpar, t)
  else if c = 59 then (.semi, t)
  else if c = 38 then (.amp, t)
  else if c = 60 then (.lt, t)
  else if c = 62 then if t.head? = some 62 then (.app, t.tail) else (.gt, t)
  else (.word, (c :: t).dropWhile isWord)

/-- `gettoken`: the token, `q` and `eq`, and the new `*ps`. -/
def gettoken (s : Ptr) : Tok × Ptr × Ptr × Ptr :=
  match skip s with
  | [] => (.eof, [], [], [])
  | c :: t => ((token c t).1, c :: t, (token c t).2, skip (token c t).2)

/-- `peek`: whether the next character is one of these, and the new `*ps`. -/
def peek (toks : Str) (s : Ptr) : Bool × Ptr :=
  ((match skip s with
    | [] => false
    | c :: _ => toks.contains c), skip s)

/-! ## Tokens -/

inductive Token where
  | sym (t : Tok)
  | word (w : Str)
deriving DecidableEq

def Token.tok : Token → Tok
  | .sym t => t
  | .word _ => .word

/-- The characters from `q` to `eq`. -/
def text (q eq : Ptr) : Str := q.take (q.length - eq.length)

/-- The tokens from `s` on, at most `n` of them. -/
def lexN : Nat → Ptr → List Token
  | 0, _ => []
  | n + 1, s =>
    match gettoken s with
    | (.eof, _, _, _) => []
    | (.word, q, eq, s') => .word (text q eq) :: lexN n s'
    | (t, _, _, s') => .sym t :: lexN n s'

/-- The tokens from `s` on. -/
def lex (s : Ptr) : List Token := lexN s.length s

/-! ## Progress -/

variable {s q eq s' : Ptr} {t : Tok} {ts : List Token}

theorem length_skip_le (s : Ptr) : (skip s).length ≤ s.length :=
  (List.dropWhile_sublist _).length_le

@[simp] theorem skip_skip (s : Ptr) : skip (skip s) = skip s := by
  unfold skip
  induction s with
  | nil => rfl
  | cons c s ih =>
    by_cases h : isSpace c = true
    · simp only [List.dropWhile_cons, h, if_true]
      exact ih
    · simp [h]

@[simp] theorem gettoken_skip (s : Ptr) : gettoken (skip s) = gettoken s := by
  unfold gettoken
  rw [skip_skip]

theorem skip_head {c : UInt8} {r : Ptr} (h : skip s = c :: r) : isSpace c = false := by
  unfold skip at h
  have := List.head?_dropWhile_not isSpace s
  rw [h] at this
  simpa using this

theorem length_token_le (c : UInt8) (r : Ptr) (hc : isSpace c = false) :
    (token c r).2.length ≤ r.length := by
  unfold token
  split_ifs with h1 h2 h3 h4 h5 h6 h7 h8
  any_goals exact Nat.le_refl _
  · exact (List.tail_sublist r).length_le
  · have hw : isWord c = true := by
      unfold isWord isSymbol symbols
      rw [hc]
      simp [h1, h2, h3, h4, h5, h6, h7]
    rw [List.dropWhile_cons, if_pos hw]
    exact (List.dropWhile_sublist _).length_le

theorem gettoken_lt (h : gettoken s = (t, q, eq, s')) (ht : t ≠ .eof) : s'.length < s.length := by
  unfold gettoken at h
  have hs := length_skip_le s
  cases hk : skip s with
  | nil =>
    rw [hk] at h
    cases h
    exact absurd rfl ht
  | cons c r =>
    rw [hk] at h hs
    cases h
    have h1 := length_skip_le (token c r).2
    have h2 := length_token_le c r (skip_head hk)
    rw [List.length_cons] at hs
    omega

theorem lexN_eq {n : Nat} (h : s.length ≤ n) : lexN n s = lex s := by
  have key : ∀ k n m (s : Ptr), s.length ≤ k → s.length ≤ n → s.length ≤ m → lexN n s =
    lexN m s := by
    intro k
    induction k with
    | zero =>
      intro n m s hk _ _
      have hs : s = [] := List.length_eq_zero_iff.1 (by omega)
      subst hs
      have hnil : ∀ n, lexN n [] = [] := fun n => by cases n <;> rfl
      rw [hnil, hnil]
    | succ k ih =>
      intro n m s hk hn hm
      by_cases hs : s = []
      · subst hs
        have hnil : ∀ n, lexN n [] = [] := fun n => by cases n <;> rfl
        rw [hnil, hnil]
      · have hpos : 0 < s.length := List.length_pos_of_ne_nil hs
        obtain ⟨n, rfl⟩ : ∃ j, n = j + 1 := ⟨n - 1, by omega⟩
        obtain ⟨m, rfl⟩ : ∃ j, m = j + 1 := ⟨m - 1, by omega⟩
        rw [lexN, lexN]
        rcases hg : gettoken s with ⟨t, q, eq, s'⟩
        have hlt : t ≠ .eof → s'.length < s.length := gettoken_lt hg
        cases t with
        | eof => rfl
        | _ =>
          have := hlt nofun
          dsimp only
          rw [ih n m s' (by omega) (by omega) (by omega)]
  exact key _ _ _ s (Nat.le_refl _) h (Nat.le_refl _)

theorem lex_eq (s : Ptr) : lex s =
    match gettoken s with
    | (.eof, _, _, _) => []
    | (.word, q, eq, s') => .word (text q eq) :: lex s'
    | (t, _, _, s') => .sym t :: lex s' := by
  have hstep : lex s = lexN (s.length + 1) s := (lexN_eq (Nat.le_succ _)).symm
  rw [hstep, lexN]
  rcases hg : gettoken s with ⟨t, q, eq, s'⟩
  cases t with
  | eof => rfl
  | _ =>
    have := gettoken_lt hg nofun
    dsimp only
    rw [lexN_eq (by omega)]

@[simp] theorem lex_skip (s : Ptr) : lex (skip s) = lex s := by
  rw [lex_eq, lex_eq s, gettoken_skip]

theorem length_lex_le (s : Ptr) : (lex s).length ≤ s.length := by
  unfold lex
  have key : ∀ n (s : Ptr), (lexN n s).length ≤ n := by
    intro n
    induction n with
    | zero => exact fun s => Nat.le_refl 0
    | succ n ih =>
      intro s
      rw [lexN]
      split
      · exact Nat.zero_le _
      · simpa using ih _
      · simpa using ih _
  exact key _ s

def next (s : Ptr) : Tok := (gettoken s).1

theorem next_eq_eof : next s = .eof ↔ lex s = [] := by
  unfold next
  rw [lex_eq]
  rcases gettoken s with ⟨t, q, eq, s'⟩
  cases t <;> simp

theorem next_of_lex {k : Token} (h : lex s = k :: ts) : next s = k.tok := by
  unfold next
  rw [lex_eq] at h
  rcases hg : gettoken s with ⟨t, q, eq, s'⟩
  rw [hg] at h
  cases t <;> simp only [List.cons.injEq, reduceCtorEq] at h <;> obtain ⟨rfl, -⟩ := h <;> rfl

theorem gettoken_sym (h : lex s = .sym t :: ts) :
    (gettoken s).1 = t ∧ lex (gettoken s).2.2.2 = ts ∧ t ≠ .eof ∧ t ≠ .word := by
  rw [lex_eq] at h
  rcases hg : gettoken s with ⟨t', q, eq, s'⟩
  rw [hg] at h
  cases t' <;> simp only [List.cons.injEq, reduceCtorEq, Token.sym.injEq, false_and] at h <;>
    obtain ⟨rfl, rfl⟩ := h <;> exact ⟨rfl, rfl, nofun, nofun⟩

theorem gettoken_word {w : Str} (h : lex s = .word w :: ts) :
    (gettoken s).1 = .word ∧ lex (gettoken s).2.2.2 = ts ∧
      text (gettoken s).2.1 (gettoken s).2.2.1 = w := by
  rw [lex_eq] at h
  rcases hg : gettoken s with ⟨t', q, eq, s'⟩
  rw [hg] at h
  cases t' <;> simp only [List.cons.injEq, reduceCtorEq, Token.word.injEq, false_and] at h
  obtain ⟨rfl, rfl⟩ := h
  exact ⟨rfl, rfl, rfl⟩

theorem lex_of_gettoken (h : gettoken s = (t, q, eq, s')) (ht : t ≠ .eof) :
    lex s = (if t = .word then .word (text q eq) else .sym t) :: lex s' := by
  rw [lex_eq, h]
  cases t <;> first | exact absurd rfl ht | rfl

/-! ## `peek` -/

@[simp] theorem next_skip (s : Ptr) : next (skip s) = next s := by
  unfold next
  rw [gettoken_skip]

theorem peek_iff {toks : Str} {ks : List Tok}
    (h : ∀ c r, toks.contains c = true ↔ (token c r).1 ∈ ks) (he : Tok.eof ∉ ks) :
    (peek toks s).1 = true ↔ next s ∈ ks := by
  unfold peek next gettoken
  cases skip s with
  | nil => simpa using he
  | cons c r => exact h c r

theorem peek_redir : (peek [60, 62] s).1 = true ↔ next s ∈ [Tok.lt, .gt, .app] := by
  refine peek_iff (fun c r => ?_) (by decide)
  unfold token
  split_ifs <;> simp_all

theorem peek_one {x : UInt8} {k : Tok} (h : ∀ c r, c = x ↔ (token c r).1 = k) (he : k ≠ .eof) :
    (peek [x] s).1 = true ↔ next s = k := by
  have h' : ∀ c r, [x].contains c = true ↔ (token c r).1 ∈ [k] := by simpa using h
  rw [peek_iff h' (by simpa using he.symm), List.mem_singleton]

theorem peek_amp : (peek [38] s).1 = true ↔ next s = .amp := by
  refine peek_one (fun c r => ?_) nofun
  unfold token
  split_ifs <;> simp_all

theorem peek_semi : (peek [59] s).1 = true ↔ next s = .semi := by
  refine peek_one (fun c r => ?_) nofun
  unfold token
  split_ifs <;> simp_all

theorem peek_pipe : (peek [124] s).1 = true ↔ next s = .pipe := by
  refine peek_one (fun c r => ?_) nofun
  unfold token
  split_ifs <;> simp_all

theorem peek_lpar : (peek [40] s).1 = true ↔ next s = .lpar := by
  refine peek_one (fun c r => ?_) nofun
  unfold token
  split_ifs <;> simp_all

theorem peek_rpar : (peek [41] s).1 = true ↔ next s = .rpar := by
  refine peek_one (fun c r => ?_) nofun
  unfold token
  split_ifs <;> simp_all

theorem peek_stop : (peek [124, 41, 38, 59] s).1 = true ↔
    next s ∈ [Tok.pipe, .rpar, .amp, .semi] := by
  refine peek_iff (fun c r => ?_) (by decide)
  unfold token
  split_ifs <;> simp_all

theorem skip_eq_nil : skip s = [] ↔ lex s = [] := by
  rw [← next_eq_eof]
  unfold next gettoken
  cases skip s with
  | nil => simp
  | cons c r =>
    simp only [reduceCtorEq, false_iff]
    unfold token
    split_ifs <;> simp

/-! ## Spelling -/

def spelling : Tok → Option Str
  | .pipe => some [124]
  | .lpar => some [40]
  | .rpar => some [41]
  | .semi => some [59]
  | .amp => some [38]
  | .lt => some [60]
  | .gt => some [62]
  | .app => some [62, 62]
  | .eof => none
  | .word => none

/-- A text that spells the tokens, with blanks before, between and after them. A word ends where no
character of a word follows, and `>` is not followed at once by `>`. -/
inductive Spells : List Token → Str → Prop where
  | nil {g : Str} (hg : ∀ c ∈ g, isSpace c = true) : Spells [] g
  | sym {g u r : Str} {t : Tok} {ts : List Token} (hg : ∀ c ∈ g, isSpace c = true)
      (hu : spelling t = some u) (hgt : t = .gt → r.head? ≠ some 62) (hr : Spells ts r) :
      Spells (.sym t :: ts) (g ++ (u ++ r))
  | word {g w r : Str} {ts : List Token} (hg : ∀ c ∈ g, isSpace c = true) (hne : w ≠ [])
      (hw : ∀ c ∈ w, isWord c = true) (hend : ∀ c ∈ r.head?, isWord c = false) (hr : Spells ts r) :
      Spells (.word w :: ts) (g ++ (w ++ r))

theorem skip_append {g : Str} (hg : ∀ c ∈ g, isSpace c = true) (s : Ptr) : skip (g ++ s) = skip s :=
  List.dropWhile_append_of_pos hg

theorem lex_append {g : Str} (hg : ∀ c ∈ g, isSpace c = true) (s : Ptr) : lex (g ++ s) = lex s := by
  rw [← lex_skip, skip_append hg, lex_skip]

theorem skip_cons {c : UInt8} (h : isSpace c = false) (r : Ptr) : skip (c :: r) = c :: r := by
  unfold skip
  rw [List.dropWhile_cons, h]
  rfl

theorem gettoken_cons {c : UInt8} {v r : Ptr} (hc : isSpace c = false) (h : token c v = (t, r)) :
    gettoken (c :: v) = (t, c :: v, r, skip r) := by
  unfold gettoken
  rw [skip_cons hc]
  dsimp only
  rw [h]

theorem lex_sym {u r : Str} (hu : spelling t = some u) (hgt : t = .gt → r.head? ≠ some 62) :
    lex (u ++ r) = .sym t :: lex r := by
  have key : ∀ {c : UInt8} {v : Str}, isSpace c = false → token c v = (t, r) → t ≠ .word →
      t ≠ .eof → lex (c :: v) = .sym t :: lex r := by
    intro c v hc htok hw he
    rw [lex_of_gettoken (gettoken_cons hc htok) he, if_neg hw, lex_skip]
  cases t <;> cases hu
  case gt =>
    refine key rfl ?_ nofun nofun
    show (if r.head? = some 62 then (Tok.app, r.tail) else (Tok.gt, r)) = _
    rw [if_neg (hgt rfl)]
  all_goals exact key rfl rfl nofun nofun

theorem isSpace_of_isWord {c : UInt8} (h : isWord c = true) : isSpace c = false := by
  unfold isWord at h
  simp only [Bool.and_eq_true, Bool.not_eq_true'] at h
  exact h.1

theorem not_symbol_of_isWord {c : UInt8} (h : isWord c = true) : c ∉ symbols := by
  unfold isWord isSymbol at h
  simp only [Bool.and_eq_true, Bool.not_eq_true', List.contains_eq_mem,
    decide_eq_false_iff_not] at h
  exact h.2

theorem token_word {c : UInt8} (h : isWord c = true) (r : Ptr) :
    token c r = (.word, (c :: r).dropWhile isWord) := by
  have hs := not_symbol_of_isWord h
  simp only [symbols, List.mem_cons, List.not_mem_nil, or_false, not_or] at hs
  obtain ⟨h1, h2, h3, h4, h5, h6, h7⟩ := hs
  unfold token
  rw [if_neg h2, if_neg h6, if_neg h7, if_neg h5, if_neg h4, if_neg h1, if_neg h3]

theorem text_append (w r : Str) : text (w ++ r) r = w := by
  unfold text
  rw [List.length_append, Nat.add_sub_cancel, List.take_left]

theorem dropWhile_word {w r : Str} (hw : ∀ c ∈ w, isWord c = true)
    (hend : ∀ c ∈ r.head?, isWord c = false) : (w ++ r).dropWhile isWord = r := by
  rw [List.dropWhile_append_of_pos hw]
  cases r with
  | nil => rfl
  | cons c r => rw [List.dropWhile_cons, hend c rfl]; rfl

theorem lex_word {w r : Str} (hne : w ≠ []) (hw : ∀ c ∈ w, isWord c = true)
    (hend : ∀ c ∈ r.head?, isWord c = false) : lex (w ++ r) = .word w :: lex r := by
  obtain ⟨c, v, rfl⟩ : ∃ c v, w = c :: v := List.exists_cons_of_ne_nil hne
  have hc : isWord c = true := hw c List.mem_cons_self
  have htok : token c (v ++ r) = (.word, r) := by
    rw [token_word hc, ← List.cons_append, dropWhile_word hw hend]
  have hg : gettoken (c :: v ++ r) = (.word, c :: v ++ r, r, skip r) :=
    gettoken_cons (isSpace_of_isWord hc) htok
  rw [lex_of_gettoken hg nofun, if_pos rfl, text_append, lex_skip]

theorem Spells.lex {line : Str} (h : Spells ts line) : lex line = ts := by
  induction h with
  | nil hg =>
    rw [← skip_eq_nil]
    have := skip_append hg []
    rwa [List.append_nil] at this
  | sym hg hu hgt _ ih => rw [lex_append hg, lex_sym hu hgt, ih]
  | word hg hne hw hend _ ih => rw [lex_append hg, lex_word hne hw hend, ih]

end Xv6.Sh
