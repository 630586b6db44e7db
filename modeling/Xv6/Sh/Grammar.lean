import Xv6.Sh.Parse

/-!
# The grammar of the shell

The grammar is stated over the tokens of the line, with the tree of each derivation. What the parser
returns is derived (`parser_sound`), and what is derived, before a token that cannot go on with it,
is returned (`parser_complete`). A tree is rendered with parentheses where its place in the grammar
asks for them.
-/

namespace Xv6.Sh

open Fs (O_RDONLY O_WRONLY O_CREATE)
open List (append_assoc append_nil cons_append length_append length_cons map_append map_cons
  mem_of_elem_eq_true nil_append)

/-! ## The grammar -/

/-- What `<`, `>` and `>>` before a word mean. -/
inductive Redirects : Tok → Str → Redir Str → Prop where
  | input (w : Str) : Redirects .lt w ⟨w, O_RDONLY, 0⟩
  | output (w : Str) : Redirects .gt w ⟨w, O_WRONLY ||| O_CREATE, 1⟩
  | append (w : Str) : Redirects .app w ⟨w, O_WRONLY ||| O_CREATE, 1⟩

/-- `{('<' | '>' | '>>') word}`. -/
inductive Redirs : List Token → List (Redir Str) → Prop where
  | nil : Redirs [] []
  | cons {t : Tok} {w : Str} {r : Redir Str} {ts : List Token} {rs : List (Redir Str)}
      (hr : Redirects t w r) (h : Redirs ts rs) : Redirs (.sym t :: .word w :: ts) (r :: rs)

/-- `{word redirs}`: the words and the redirections. -/
inductive Args : List Token → List Str → List (Redir Str) → Prop where
  | nil : Args [] [] []
  | cons {w : Str} {ts ts' : List Token} {ws : List Str} {rs rs' : List (Redir Str)}
      (h : Redirs ts rs) (h' : Args ts' ws rs') :
      Args (.word w :: (ts ++ ts')) (w :: ws) (rs ++ rs')

inductive Phrase where
  | line
  | pipe
  | exec
deriving DecidableEq

/-- The trees of the grammar. Of several redirections the first is the innermost node. -/
inductive Derives : Phrase → List Token → Cmd Str → Prop where
  | exec {ts ts' : List Token} {ws : List Str} {rs rs' : List (Redir Str)}
      (h : Redirs ts rs) (h' : Args ts' ws rs') (hlen : ws.length < MAXARGS) :
      Derives .exec (ts ++ ts')
        ((rs ++ rs').foldl (fun c r => .redir c r.file r.mode r.fd) (.exec ws))
  | block {ts ts' : List Token} {c : Cmd Str} {rs : List (Redir Str)}
      (h : Derives .line ts c) (h' : Redirs ts' rs) :
      Derives .exec (.sym .lpar :: (ts ++ .sym .rpar :: ts'))
        (rs.foldl (fun c r => .redir c r.file r.mode r.fd) c)
  | pipeOne {ts : List Token} {c : Cmd Str} (h : Derives .exec ts c) : Derives .pipe ts c
  | pipe {ts ts' : List Token} {l r : Cmd Str} (h : Derives .exec ts l) (h' : Derives .pipe ts' r) :
      Derives .pipe (ts ++ .sym .pipe :: ts') (.pipe l r)
  | lineOne {ts : List Token} {c : Cmd Str} (k : Nat) (h : Derives .pipe ts c) :
      Derives .line (ts ++ List.replicate k (.sym .amp)) (Cmd.back^[k] c)
  | line {ts ts' : List Token} {l r : Cmd Str} (k : Nat) (h : Derives .pipe ts l)
      (h' : Derives .line ts' r) :
      Derives .line (ts ++ (List.replicate k (.sym .amp) ++ .sym .semi :: ts'))
        (.list (Cmd.back^[k] l) r)

/-! ## What the parser takes from the line -/

/-- `w` is a word of the line, as `gettoken` delimits it. -/
def IsSpan (line : Str) (w : Span) : Prop :=
  w.1 <:+ line ∧ ∃ u, w.1 = u ++ w.2 ∧ u ≠ [] ∧ (∀ c ∈ u, isWord c = true) ∧
    ∀ c ∈ w.2.head?, isWord c = false

variable {line : Str}

theorem IsSpan.of_suffix {s : Str} {w : Span} (h : IsSpan s w) (hs : s <:+ line) :
    IsSpan line w := ⟨h.1.trans hs, h.2⟩

variable {s s1 s2 : Ptr}

theorem skip_suffix (s : Ptr) : skip s <:+ s := List.dropWhile_suffix _

theorem token_suffix (c : UInt8) (r : Ptr) : (token c r).2 <:+ c :: r := by
  unfold token
  split_ifs
  any_goals exact List.suffix_cons c r
  · exact (List.tail_suffix r).trans (List.suffix_cons c r)
  · exact List.dropWhile_suffix _

theorem behind_suffix (s : Ptr) : behind s <:+ s := by
  unfold behind gettoken
  cases h : skip s with
  | nil => exact List.nil_suffix
  | cons c r =>
    have hs := skip_suffix s
    rw [h] at hs
    exact ((skip_suffix _).trans (token_suffix c r)).trans hs

theorem behind_of_eof (h : next s = .eof) : behind s = [] := by
  unfold behind gettoken
  rw [skip_eq_nil.2 (next_eq_eof.1 h)]

theorem gettoken_span (h : next s = .word) : IsSpan s (spanAt s) := by
  have hs := skip_suffix s
  unfold next at h
  unfold spanAt gettoken at *
  cases hk : skip s with
  | nil => rw [hk] at h; cases h
  | cons c r =>
    rw [hk] at h hs
    dsimp only at h ⊢
    -- the switch ends in its default case
    have hd : isWord c = true ∧ (token c r).2 = (c :: r).dropWhile isWord := by
      have hc := skip_head hk
      unfold token at h ⊢
      split_ifs at h ⊢ with h1 h2 h3 h4 h5 h6 h7
      refine ⟨?_, rfl⟩
      unfold isWord isSymbol symbols
      rw [hc]
      simp [h1, h2, h3, h4, h5, h6, h7]
    rw [hd.2]
    refine ⟨hs, (c :: r).takeWhile isWord, List.takeWhile_append_dropWhile.symm, ?_, ?_, ?_⟩
    · rw [List.takeWhile_cons, hd.1]
      nofun
    · exact fun d hm => (List.all_eq_true.1 List.all_takeWhile) d hm
    · intro d hm
      have := List.head?_dropWhile_not isWord (c :: r)
      rw [Option.mem_def.1 hm] at this
      simpa using this

/-- From `s` the parser went on to `s'`, taking tokens of which `D` holds, with these words among
them. -/
structure Took (s s' : Ptr) (ws : List Span) (D : List Token → Prop) : Prop where
  suffix : s' <:+ s
  spans : ∀ w ∈ ws, IsSpan s w
  tokens : ∃ ts, D ts ∧ lex s = ts ++ lex s'

variable {ws ws' : List Span} {D D' : List Token → Prop}

theorem Took.append (h : Took s s1 ws D) (h' : Took s1 s2 ws' D') :
    Took s s2 (ws ++ ws') (fun ts => ∃ a b, D a ∧ D' b ∧ ts = a ++ b) := by
  obtain ⟨a, ha, hs⟩ := h.tokens
  obtain ⟨b, hb, hs'⟩ := h'.tokens
  refine ⟨h'.suffix.trans h.suffix, fun w hw => ?_, a ++ b, ⟨a, b, ha, hb, rfl⟩, ?_⟩
  · rcases List.mem_append.1 hw with hw | hw
    · exact h.spans w hw
    · exact (h'.spans w hw).of_suffix h.suffix
  · rw [hs, hs', append_assoc]

theorem Took.imp (h : Took s s1 ws D) (hD : ∀ ts, D ts → D' ts) : Took s s1 ws D' :=
  ⟨h.suffix, h.spans, h.tokens.imp fun _ ht => ⟨hD _ ht.1, ht.2⟩⟩

theorem Took.skip (s : Ptr) (h : D []) : Took s (skip s) [] D :=
  ⟨skip_suffix s, nofun, [], h, (lex_skip s).symm⟩

theorem Took.length_le (h : Took s s1 ws D) : (lex s1).length ≤ (lex s).length := by
  obtain ⟨ts, -, hs⟩ := h.tokens
  rw [hs, length_append]
  exact Nat.le_add_left _ _

variable {t : Tok}

theorem took_sym (h : next s = t) (he : t ≠ .eof) (hw : t ≠ .word) :
    Took s (behind s) [] (· = [.sym t]) :=
  ⟨behind_suffix s, nofun, _, rfl, lex_of_next h he hw⟩

theorem took_word (h : next s = .word) :
    Took s (behind s) [spanAt s]
      (· = [.word (spanAt s).text]) :=
  ⟨behind_suffix s, fun _ hw => List.mem_singleton.1 hw ▸ gettoken_span h, _, rfl, lex_of_word h⟩

/-! ## Soundness -/

theorem bool_eq_false {b : Bool} {p : Prop} (h : b = true ↔ p) (hp : ¬ p) : b = false :=
  Bool.eq_false_iff.2 fun hb => hp (h.1 hb)

variable {β : Type}

@[simp] theorem map_file_redirOf (t : Tok) (file : Span) (f : Span → β) :
    (redirOf t file).map (Redir.map f) = redirOf t (f file) := by
  cases t <;> rfl

theorem file_redirOf (h : t ∈ [Tok.lt, .gt, .app]) (file : Span) :
    (redirOf t file).map Redir.file = [file] := by
  cases t <;> first | rfl | exact absurd h (by decide)

theorem ne_of_redir (h : t ∈ [Tok.lt, .gt, .app]) : t ≠ .eof ∧ t ≠ .word := by
  cases t <;> first | exact absurd h (by decide) | exact ⟨nofun, nofun⟩

theorem Redirects.mem {w : Str} {r : Redir Str} (h : Redirects t w r) :
    t ∈ [Tok.lt, .gt, .app] := by
  cases h <;> decide

theorem Redirects.redirOf_eq {w : Str} {r : Redir Str} (h : Redirects t w r) :
    redirOf t w = [r] := by
  cases h <;> rfl

theorem Redirs.parsed {w : Str} {ts : List Token} {rs : List (Redir Str)} (h : Redirs ts rs)
    (ht : t ∈ [Tok.lt, .gt, .app]) : Redirs (.sym t :: .word w :: ts) (redirOf t w ++ rs) := by
  cases t with
  | lt => exact .cons (.input w) h
  | gt => exact .cons (.output w) h
  | app => exact .cons (.append w) h
  | _ => exact absurd ht (by decide)

theorem redirsLoop_sound (n : Nat) : ∀ s : Ptr, (lex s).length < n →
    Sat (redirsLoop n s) fun rs s' => Took s s' (rs.map Redir.file)
      fun ts => Redirs ts (rs.map (Redir.map Span.text)) := by
  induction n with
  | zero => exact fun s h => absurd h (Nat.not_lt_zero _)
  | succ n ih =>
    intro s hn
    rw [redirsLoop]
    by_cases hp : next s ∈ [Tok.lt, .gt, .app]
    · rw [run_peek (peek_redir.2 hp), if_pos rfl, run_gettok_skip, run_gettok]
      dsimp only
      have h1 := took_sym rfl (ne_of_redir hp).1 (ne_of_redir hp).2
      by_cases hw : next (behind s) = .word
      · have h2 := h1.append (took_word hw)
        have hlen : (lex (behind (behind s))).length < n := by
          have h3 := lex_of_next (s := s) rfl (ne_of_redir hp).1 (ne_of_redir hp).2
          have h4 := (took_word hw).length_le
          rw [h3, length_cons] at hn
          omega
        rw [if_neg (not_not.2 hw)]
        refine Sat.bind ((ih _ hlen).mono fun rs s' h3 => ?_)
        have h4 := h2.append h3
        show Took s s' ((redirOf _ _ ++ rs).map Redir.file) _
        rw [map_append, file_redirOf hp]
        refine h4.imp ?_
        rintro _ ⟨_, b, ⟨_, _, rfl, rfl, rfl⟩, hb, rfl⟩
        rw [map_append, map_file_redirOf]
        exact hb.parsed hp
      · rw [if_pos hw]
        exact List.mem_cons_self
    · rw [run_peek (bool_eq_false peek_redir hp), if_neg nofun]
      exact Took.skip s .nil

theorem parseredirs_sound (s : Ptr) : Sat (parseredirs s) fun rs s' =>
    Took s s' (rs.map Redir.file) fun ts => Redirs ts (rs.map (Redir.map Span.text)) :=
  redirsLoop_sound _ s (Nat.lt_succ_of_le (length_lex_le s))

theorem argsLoop_sound (n : Nat) : ∀ (argc : Nat) (s : Ptr), (lex s).length < n → argc < MAXARGS →
    Sat (argsLoop n argc s) fun a s' => Took s s' (a.1 ++ a.2.map Redir.file)
      fun ts => Args ts (a.1.map Span.text) (a.2.map (Redir.map Span.text)) ∧
        argc + a.1.length < MAXARGS := by
  induction n with
  | zero => exact fun _ s h => absurd h (Nat.not_lt_zero _)
  | succ n ih =>
    intro argc s hn hargc
    rw [argsLoop]
    by_cases hp : next s ∈ [Tok.pipe, .rpar, .amp, .semi]
    · rw [run_peek (peek_stop.2 hp), if_pos rfl]
      exact Took.skip s ⟨.nil, hargc⟩
    rw [run_peek (bool_eq_false peek_stop hp), if_neg nofun, run_gettok_skip]
    dsimp only
    by_cases he : next s = .eof
    · rw [if_pos he]
      refine ⟨behind_suffix s, nofun, [], ⟨.nil, hargc⟩, ?_⟩
      rw [behind_of_eof he, next_eq_eof.1 he]
      rfl
    rw [if_neg he]
    by_cases hw : next s = .word
    · rw [if_neg (not_not.2 hw)]
      by_cases hm : MAXARGS ≤ argc + 1
      · rw [if_pos hm]
        exact mem_of_elem_eq_true rfl
      · rw [if_neg hm]
        refine Sat.bind ((parseredirs_sound _).mono fun rs s1 h1 => ?_)
        have hlen : (lex s1).length < n := by
          have h2 := h1.length_le
          rw [lex_of_word hw, length_cons] at hn
          omega
        refine Sat.bind ((ih (argc + 1) s1 hlen (Nat.lt_of_not_le hm)).mono fun a s2 h2 => ?_)
        have h3 := (took_word hw).append (h1.append h2)
        have h4 : Took s s2 (_ :: a.1 ++ (rs ++ a.2).map Redir.file) _ :=
          ⟨h3.suffix, fun w hmem => h3.spans w (by
            simp only [map_append, cons_append, List.mem_cons, List.mem_append,
              nil_append] at hmem ⊢
            tauto), h3.tokens⟩
        refine h4.imp ?_
        rintro _ ⟨_, _, rfl, ⟨b, c, hb, ⟨hc, hlen'⟩, rfl⟩, rfl⟩
        refine ⟨?_, by rw [length_cons]; omega⟩
        rw [map_append, map_cons, List.singleton_append]
        exact .cons hb hc
    · rw [if_pos hw]
      exact mem_of_elem_eq_true rfl

theorem ampLoop_sound (n : Nat) : ∀ (c : Cmd Span) (s : Ptr), (lex s).length < n →
    Sat (ampLoop n c s) fun c' s' => ∃ k, c' = Cmd.back^[k] c ∧
      Took s s' [] (· = List.replicate k (.sym .amp)) := by
  induction n with
  | zero => exact fun _ s h => absurd h (Nat.not_lt_zero _)
  | succ n ih =>
    intro c s hn
    rw [ampLoop]
    by_cases hp : next s = .amp
    · rw [run_peek (peek_amp.2 hp), if_pos rfl, run_gettok_skip]
      have h1 := took_sym hp nofun nofun
      rw [lex_of_next hp nofun nofun, length_cons] at hn
      refine (ih (.back c) _ (by omega)).mono ?_
      rintro c' s' ⟨k, rfl, h2⟩
      refine ⟨k + 1, rfl, (h1.append h2).imp ?_⟩
      rintro _ ⟨_, _, rfl, rfl, rfl⟩
      rfl
    · rw [run_peek (bool_eq_false peek_amp hp), if_neg nofun]
      exact ⟨0, rfl, Took.skip s rfl⟩

variable {α : Type}

theorem words_wrap (rs : List (Redir α)) :
    ∀ c : Cmd α, (wrap c rs).words = c.words ++ rs.map Redir.file := by
  induction rs with
  | nil => exact fun c => (append_nil _).symm
  | cons r rs ih =>
    intro c
    show (wrap (.redir c r.file r.mode r.fd) rs).words = _
    rw [ih, Cmd.words, append_assoc]
    rfl

theorem map_wrap (f : α → β) (rs : List (Redir α)) :
    ∀ c : Cmd α, (wrap c rs).map f = wrap (c.map f) (rs.map (Redir.map f)) := by
  induction rs with
  | nil => exact fun c => rfl
  | cons r rs ih => exact fun c => ih (.redir c r.file r.mode r.fd)

theorem words_back (k : Nat) : ∀ c : Cmd α, (Cmd.back^[k] c).words = c.words := by
  induction k with
  | zero => exact fun c => rfl
  | succ k ih => exact fun c => ih (.back c)

theorem map_back (f : α → β) (k : Nat) :
    ∀ c : Cmd α, (Cmd.back^[k] c).map f = Cmd.back^[k] (c.map f) := by
  induction k with
  | zero => exact fun c => rfl
  | succ k ih => exact fun c => ih (.back c)

abbrev Parsed (s : Ptr) (ph : Phrase) (c : Cmd Span) (s' : Ptr) : Prop :=
  Took s s' c.words fun ts => Derives ph ts (c.map Span.text)

theorem parser_sound (n : Nat) :
    (∀ s, 4 * (lex s).length + 4 ≤ n → Sat (parseline n s) (Parsed s .line)) ∧
    (∀ s, 4 * (lex s).length + 3 ≤ n → Sat (parsepipe n s) (Parsed s .pipe)) ∧
    (∀ s, 4 * (lex s).length + 2 ≤ n → Sat (parseexec n s) (Parsed s .exec)) ∧
    (∀ s, 4 * (lex s).length + 1 ≤ n → Sat (parseblock n s) (Parsed s .exec)) := by
  induction n with
  | zero =>
    refine ⟨?_, ?_, ?_, ?_⟩ <;> exact fun s h => absurd h (by omega)
  | succ n ih =>
    obtain ⟨ihl, ihp, ihe, ihb⟩ := ih
    refine ⟨fun s hn => ?_, fun s hn => ?_, fun s hn => ?_, fun s hn => ?_⟩
    · rw [parseline]
      refine Sat.bind ((ihp s (by omega)).mono fun c s1 h1 => ?_)
      refine Sat.bind ((ampLoop_sound _ c s1 (Nat.lt_succ_of_le (length_lex_le s1))).mono ?_)
      rintro c' s2 ⟨k, rfl, h2⟩
      have h12 := h1.append h2
      rw [append_nil] at h12
      by_cases hp : next s2 = .semi
      · rw [run_peek (peek_semi.2 hp), if_pos rfl, run_gettok_skip]
        have hlen : (lex (behind s2)).length < (lex s).length := by
          have := h12.length_le
          rw [lex_of_next hp nofun nofun, length_cons] at this
          omega
        refine Sat.bind ((ihl _ (by omega)).mono fun r s3 h3 => ?_)
        have h4 := h12.append ((took_sym hp nofun nofun).append h3)
        show Took s s3 ((Cmd.back^[k] c).words ++ r.words) fun ts =>
          Derives .line ts (.list ((Cmd.back^[k] c).map Span.text) (r.map Span.text))
        rw [words_back, map_back]
        refine h4.imp ?_
        rintro _ ⟨_, _, ⟨a, _, ha, rfl, rfl⟩, ⟨_, b, rfl, hb, rfl⟩, rfl⟩
        rw [append_assoc]
        exact .line k ha hb
      · rw [run_peek (bool_eq_false peek_semi hp), if_neg nofun]
        show Took s (skip s2) (Cmd.back^[k] c).words fun ts =>
          Derives .line ts ((Cmd.back^[k] c).map Span.text)
        rw [words_back, map_back]
        have h3 := h12.append (Took.skip (D := (· = [])) s2 rfl)
        rw [append_nil] at h3
        refine h3.imp ?_
        rintro _ ⟨_, _, ⟨a, _, ha, rfl, rfl⟩, rfl, rfl⟩
        rw [append_nil]
        exact .lineOne k ha
    · rw [parsepipe]
      refine Sat.bind ((ihe s (by omega)).mono fun c s1 h1 => ?_)
      by_cases hp : next s1 = .pipe
      · rw [run_peek (peek_pipe.2 hp), if_pos rfl, run_gettok_skip]
        have hlen : (lex (behind s1)).length < (lex s).length := by
          have := h1.length_le
          rw [lex_of_next hp nofun nofun, length_cons] at this
          omega
        refine Sat.bind ((ihp _ (by omega)).mono fun r s2 h2 => ?_)
        refine (h1.append ((took_sym hp nofun nofun).append h2)).imp ?_
        rintro _ ⟨a, _, ha, ⟨_, b, rfl, hb, rfl⟩, rfl⟩
        exact .pipe ha hb
      · rw [run_peek (bool_eq_false peek_pipe hp), if_neg nofun]
        have h2 := h1.append (Took.skip (D := (· = [])) s1 rfl)
        rw [append_nil] at h2
        refine h2.imp ?_
        rintro _ ⟨a, _, ha, rfl, rfl⟩
        rw [append_nil]
        exact .pipeOne ha
    · rw [parseexec]
      by_cases hp : next s = .lpar
      · rw [run_peek (peek_lpar.2 hp), if_pos rfl]
        refine (ihb (skip s) (by rw [lex_skip]; omega)).mono fun c s1 h1 => ?_
        refine ((Took.skip (D := (· = [])) s rfl).append h1).imp ?_
        rintro _ ⟨_, b, rfl, hb, rfl⟩
        exact hb
      · rw [run_peek (bool_eq_false peek_lpar hp), if_neg nofun]
        refine Sat.bind ((parseredirs_sound (skip s)).mono fun rs s1 h1 => ?_)
        refine Sat.bind ((argsLoop_sound _ 0 s1 (Nat.lt_succ_of_le (length_lex_le s1))
          (by decide)).mono fun a s2 h2 => ?_)
        have h3 := (Took.skip (D := (· = [])) s rfl).append (h1.append h2)
        have h4 : Took s s2 (wrap (.exec a.1) (rs ++ a.2)).words _ :=
          ⟨h3.suffix, fun w hmem => h3.spans w (by
            rw [words_wrap] at hmem
            simp only [map_append, List.mem_append, Cmd.words, nil_append] at hmem ⊢
            tauto), h3.tokens⟩
        refine h4.imp ?_
        rintro _ ⟨_, _, rfl, ⟨b, c, hb, ⟨hc, hlen⟩, rfl⟩, rfl⟩
        rw [map_wrap, map_append, nil_append]
        exact .exec hb hc (by simpa using hlen)
    · rw [parseblock]
      by_cases hp : next s = .lpar
      · rw [run_peek (peek_lpar.2 hp), if_pos rfl, run_gettok_skip]
        have hlen : (lex (behind s)).length < (lex s).length := by
          rw [lex_of_next hp nofun nofun]
          exact Nat.lt_succ_self _
        refine Sat.bind ((ihl _ (by omega)).mono fun c s1 h1 => ?_)
        have h2 := (took_sym hp nofun nofun).append h1
        by_cases hr : next s1 = .rpar
        · rw [run_peek (peek_rpar.2 hr), if_pos rfl, run_gettok_skip]
          refine Sat.bind ((parseredirs_sound _).mono fun rs s2 h3 => ?_)
          have h4 := h2.append ((took_sym hr nofun nofun).append h3)
          show Took s s2 (wrap c rs).words fun ts => Derives .exec ts ((wrap c rs).map Span.text)
          rw [words_wrap, map_wrap]
          refine h4.imp ?_
          rintro _ ⟨_, _, ⟨_, a, rfl, ha, rfl⟩, ⟨_, b, rfl, hb, rfl⟩, rfl⟩
          exact .block ha hb
        · rw [run_peek (bool_eq_false peek_rpar hr), if_neg nofun]
          exact mem_of_elem_eq_true rfl
      · rw [run_peek (bool_eq_false peek_lpar hp), if_neg nofun]
        exact mem_of_elem_eq_true rfl

/-! ## Completeness -/

variable {ts : List Token}

theorem after_sym (h : lex s = .sym t :: ts) :
    next s = t ∧ lex (behind s) = ts := ⟨(gettoken_sym h).1, (gettoken_sym h).2.1⟩

theorem after_word {w : Str} (h : lex s = .word w :: ts) :
    next s = .word ∧ lex (behind s) = ts ∧ (spanAt s).text = w := gettoken_word h

variable {rs : List (Redir Str)}

theorem redirsLoop_complete (h : Redirs ts rs) :
    ∀ (n : Nat) (s : Ptr) (rest : List Token), lex s = ts ++ rest → (lex s).length < n →
      headTok rest ∉ [Tok.lt, .gt, .app] →
      ∃ rs' s', redirsLoop n s = .done rs' s' ∧ rs'.map (Redir.map Span.text) = rs ∧
        lex s' = rest := by
  induction h with
  | nil =>
    intro n s rest hs hn hrest
    obtain ⟨n, rfl⟩ : ∃ m, n = m + 1 := ⟨n - 1, by omega⟩
    have hp : next s ∉ [Tok.lt, .gt, .app] := by rwa [next_eq, hs]
    rw [redirsLoop, run_peek (bool_eq_false peek_redir hp), if_neg nofun]
    exact ⟨[], skip s, rfl, rfl, by rw [lex_skip, hs]; rfl⟩
  | @cons t w r ts rs hr _ ih =>
    intro n s rest hs hn hrest
    obtain ⟨n, rfl⟩ : ∃ m, n = m + 1 := ⟨n - 1, by omega⟩
    obtain ⟨h1, h2⟩ := after_sym hs
    obtain ⟨h3, h4, h5⟩ := after_word h2
    rw [List.append_eq] at h4
    rw [hs, cons_append, cons_append, length_cons, length_cons] at hn
    obtain ⟨rs', s', hrun, hmap, hs'⟩ := ih n (behind (behind s)) rest h4 (by rw [h4]; omega) hrest
    rw [redirsLoop, run_peek (peek_redir.2 (h1 ▸ hr.mem)), if_pos rfl, run_gettok_skip, run_gettok]
    dsimp only
    rw [if_neg (not_not.2 h3), run_bind hrun]
    refine ⟨_, s', rfl, ?_, hs'⟩
    rw [map_append, map_file_redirOf, h1, h5, hmap, hr.redirOf_eq]
    rfl

variable {rest : List Token}

theorem parseredirs_complete (h : Redirs ts rs) (hs : lex s = ts ++ rest)
    (hrest : headTok rest ∉ [Tok.lt, .gt, .app]) :
    ∃ rs' s', parseredirs s = .done rs' s' ∧ rs'.map (Redir.map Span.text) = rs ∧ lex s' = rest :=
  redirsLoop_complete h _ s rest hs (Nat.lt_succ_of_le (length_lex_le s)) hrest

def follow : Phrase → List Tok
  | .line => [.eof, .rpar]
  | .pipe => [.eof, .rpar, .amp, .semi]
  | .exec => [.eof, .rpar, .amp, .semi, .pipe]

theorem headTok_redirs (h : Redirs ts rs) (rest : List Token) :
    headTok (ts ++ rest) ∈ [Tok.lt, .gt, .app] ∨ headTok (ts ++ rest) = headTok rest := by
  cases h with
  | nil => exact .inr rfl
  | cons hr _ => exact .inl hr.mem

theorem headTok_args {ws : List Str} (h : Args ts ws rs) (rest : List Token) :
    headTok (ts ++ rest) = .word ∨ headTok (ts ++ rest) = headTok rest := by
  cases h with
  | nil => exact .inr rfl
  | cons _ _ => exact .inl rfl

variable {ph : Phrase}

theorem not_redir_of_follow (h : t ∈ follow ph) : t ∉ [Tok.lt, .gt, .app] := by
  cases ph <;> cases t <;> first | decide | exact absurd h (by decide)

theorem headTok_args_follow {ws : List Str} (h : Args ts ws rs)
    (hrest : headTok rest ∈ follow .exec) :
    headTok (ts ++ rest) ∉ [Tok.lt, .gt, .app] := by
  rcases headTok_args h rest with hh | hh
  · rw [hh]
    decide
  · rw [hh]
    exact not_redir_of_follow hrest

theorem argsLoop_complete {ws : List Str} (h : Args ts ws rs) :
    ∀ (n argc : Nat) (s : Ptr) (rest : List Token), lex s = ts ++ rest →
      (lex s).length < n → argc + ws.length < MAXARGS → headTok rest ∈ follow .exec →
      ∃ a s', argsLoop n argc s = .done a s' ∧ a.1.map Span.text = ws ∧
        a.2.map (Redir.map Span.text) = rs ∧ lex s' = rest := by
  induction h with
  | nil =>
    intro n argc s rest hs hn _ hrest
    obtain ⟨n, rfl⟩ : ∃ m, n = m + 1 := ⟨n - 1, by omega⟩
    rw [nil_append] at hs
    have hnext : next s = headTok rest := by rw [next_eq, hs]
    rw [argsLoop]
    by_cases hp : next s ∈ [Tok.pipe, .rpar, .amp, .semi]
    · rw [run_peek (peek_stop.2 hp), if_pos rfl]
      exact ⟨_, _, rfl, rfl, rfl, by rw [lex_skip, hs]⟩
    · have he : next s = .eof := by
        rw [hnext] at hp ⊢
        revert hp hrest
        cases headTok rest <;> decide
      rw [run_peek (bool_eq_false peek_stop hp), if_neg nofun, run_gettok_skip]
      dsimp only
      rw [if_pos he]
      refine ⟨_, _, rfl, rfl, rfl, ?_⟩
      rw [behind_of_eof he, ← hs, next_eq_eof.1 he]
      rfl
  | @cons w ts ts' ws rs rs' hr ha ih =>
    intro n argc s rest hs hn hlen hrest
    obtain ⟨n, rfl⟩ : ∃ m, n = m + 1 := ⟨n - 1, by omega⟩
    rw [cons_append, append_assoc] at hs
    obtain ⟨h1, h2, h3⟩ := after_word hs
    rw [length_cons] at hlen
    obtain ⟨rs1, s1, hrun, hmap, hs1⟩ :=
      parseredirs_complete hr h2 (headTok_args_follow ha hrest)
    have hn' : (lex s1).length < n := by
      rw [hs, length_cons, length_append] at hn
      rw [hs1]
      omega
    obtain ⟨a, s2, hrun', hws, hrs, hs2⟩ := ih n (argc + 1) s1 rest hs1 hn' (by omega) hrest
    have hp : next s ∉ [Tok.pipe, .rpar, .amp, .semi] := by
      rw [h1]
      decide
    rw [argsLoop, run_peek (bool_eq_false peek_stop hp), if_neg nofun, run_gettok_skip]
    dsimp only
    rw [if_neg (by rw [h1]; nofun), if_neg (not_not.2 h1), if_neg (by omega), run_bind hrun,
      run_bind hrun']
    refine ⟨_, s2, rfl, ?_, ?_, hs2⟩
    · rw [map_cons, h3, hws]
    · rw [map_append, hmap, hrs]

theorem ampLoop_complete (k : Nat) : ∀ (n : Nat) (c : Cmd Span) (s : Ptr) (rest : List Token),
    lex s = List.replicate k (.sym .amp) ++ rest → (lex s).length < n → headTok rest ≠ .amp →
    ∃ s', ampLoop n c s = .done (Cmd.back^[k] c) s' ∧ lex s' = rest := by
  induction k with
  | zero =>
    intro n c s rest hs hn hrest
    obtain ⟨n, rfl⟩ : ∃ m, n = m + 1 := ⟨n - 1, by omega⟩
    have hp : next s ≠ .amp := by rwa [next_eq, hs]
    rw [ampLoop, run_peek (bool_eq_false peek_amp hp), if_neg nofun]
    exact ⟨skip s, rfl, by rw [lex_skip, hs]; rfl⟩
  | succ k ih =>
    intro n c s rest hs hn hrest
    obtain ⟨n, rfl⟩ : ∃ m, n = m + 1 := ⟨n - 1, by omega⟩
    rw [List.replicate_succ, cons_append] at hs
    obtain ⟨h1, h2⟩ := after_sym hs
    rw [hs, length_cons, ← h2] at hn
    rw [ampLoop, run_peek (peek_amp.2 h1), if_pos rfl, run_gettok_skip]
    exact ih n (.back c) (behind s) rest h2 (by omega) hrest

def parse : Phrase → Nat → Parser (Cmd Span)
  | .line => parseline
  | .pipe => parsepipe
  | .exec => parseexec

def rounds : Phrase → Nat → Nat
  | .line, len => 4 * len + 4
  | .pipe, len => 4 * len + 3
  | .exec, len => 4 * len + 2

theorem headTok_amps (k : Nat) (rest : List Token) :
    headTok (List.replicate k (.sym .amp) ++ rest) = .amp ∨
      headTok (List.replicate k (.sym .amp) ++ rest) = headTok rest := by
  cases k with
  | zero => exact .inr rfl
  | succ k => exact .inl rfl

theorem headTok_amps_follow {k : Nat} (h : headTok rest ∈ follow .pipe) :
    headTok (List.replicate k (.sym .amp) ++ rest) ∈ follow .pipe := by
  rcases headTok_amps k rest with hk | hk
  · rw [hk]
    decide
  · rwa [hk]

theorem follow_pipe_of_line (h : t ∈ follow .line) : t ∈ follow .pipe := by
  cases t <;> first | decide | exact absurd h (by decide)

theorem follow_exec_of_pipe (h : t ∈ follow .pipe) : t ∈ follow .exec := by
  cases t <;> first | decide | exact absurd h (by decide)

theorem ne_of_follow {u : Tok} (h : t ∈ follow ph) (hu : u ∉ follow ph) : t ≠ u :=
  fun e => hu (e ▸ h)

theorem parser_complete {c : Cmd Str} (h : Derives ph ts c) :
    ∀ (n : Nat) (s : Ptr) (rest : List Token), lex s = ts ++ rest → rounds ph (lex s).length ≤ n →
      headTok rest ∈ follow ph →
      ∃ c' s', parse ph n s = .done c' s' ∧ c'.map Span.text = c ∧ lex s' = rest := by
  induction h with
  | @exec ts ts' ws rs rs' hr ha hlen =>
    intro n s rest hs hn hrest
    obtain ⟨n, rfl⟩ : ∃ m, n = m + 1 := ⟨n - 1, by simp only [rounds] at hn; omega⟩
    rw [append_assoc] at hs
    have hp : next s ≠ .lpar := by
      rw [next_eq, hs]
      rcases headTok_redirs hr (ts' ++ rest) with hh | hh
      · exact fun e => absurd (e ▸ hh) (by decide)
      · rw [hh]
        rcases headTok_args ha rest with hh | hh
        · rw [hh]
          nofun
        · rw [hh]
          exact ne_of_follow hrest (by decide)
    obtain ⟨rs1, s1, hrun, hmap, hs1⟩ := parseredirs_complete (s := skip s) hr
      (by rw [lex_skip]; exact hs) (headTok_args_follow ha hrest)
    obtain ⟨a, s2, hrun', hws, hrs, hs2⟩ := argsLoop_complete ha (s1.length + 1) 0 s1 rest hs1
      (Nat.lt_succ_of_le (length_lex_le s1)) (by omega) hrest
    have hrun'' : whileTokens (argsLoop · 0) s1 = .done a s2 := hrun'
    show ∃ c' s', parseexec (n + 1) s = _ ∧ _
    rw [parseexec, run_peek (bool_eq_false peek_lpar hp), if_neg nofun, run_bind hrun,
      run_bind hrun'']
    refine ⟨_, s2, rfl, ?_, hs2⟩
    rw [map_wrap, map_append, hmap, hrs, Cmd.map, hws]
    rfl
  | @block ts ts' c rs _ hr ih =>
    intro n s rest hs hn hrest
    obtain ⟨n, rfl⟩ : ∃ m, n = m + 2 := ⟨n - 2, by simp only [rounds] at hn; omega⟩
    obtain ⟨h1, h2⟩ := after_sym hs
    rw [List.append_eq, append_assoc, cons_append] at h2
    have hn' : rounds .line (lex (behind s)).length ≤ n := by
      have hlen : (lex s).length = (lex (behind s)).length + 1 := by
        rw [lex_of_next h1 nofun nofun, length_cons]
      simp only [rounds] at hn ⊢
      omega
    obtain ⟨c', s1, hrun, hmap, hs1⟩ := ih n (behind s) _ h2 hn'
      (by simp [headTok, follow, Token.tok])
    obtain ⟨h3, h4⟩ := after_sym hs1
    obtain ⟨rs1, s2, hrun', hmap', hs2⟩ := parseredirs_complete hr h4 (not_redir_of_follow hrest)
    have hb : parseblock (n + 1) (skip s) = .done (wrap c' rs1) s2 := by
      rw [parseblock, run_peek (peek_lpar.2 (by rw [next_skip, h1])), if_pos rfl, skip_skip,
        run_gettok_skip, run_bind (x := parseline n) hrun, run_peek (peek_rpar.2 h3), if_pos rfl,
          run_gettok_skip,
        run_bind hrun']
      rfl
    show ∃ c' s', parseexec (n + 1 + 1) s = _ ∧ _
    rw [parseexec, run_peek (peek_lpar.2 h1), if_pos rfl, hb]
    refine ⟨_, s2, rfl, ?_, hs2⟩
    rw [map_wrap, hmap, hmap']
    rfl
  | @pipeOne ts c _ ih =>
    intro n s rest hs hn hrest
    obtain ⟨n, rfl⟩ : ∃ m, n = m + 1 := ⟨n - 1, by simp only [rounds] at hn; omega⟩
    obtain ⟨c', s1, hrun, hmap, hs1⟩ := ih n s rest hs (by simp only [rounds] at hn ⊢; omega)
      (follow_exec_of_pipe hrest)
    have hp : next s1 ≠ .pipe := by
      rw [next_eq, hs1]
      exact ne_of_follow hrest (by decide)
    show ∃ c' s', parsepipe (n + 1) s = _ ∧ _
    rw [parsepipe, run_bind (x := parseexec n) hrun, run_peek (bool_eq_false peek_pipe hp),
      if_neg nofun]
    exact ⟨c', _, rfl, hmap, by rw [lex_skip, hs1]⟩
  | @pipe ts ts' l r _ _ ih ih' =>
    intro n s rest hs hn hrest
    obtain ⟨n, rfl⟩ : ∃ m, n = m + 1 := ⟨n - 1, by simp only [rounds] at hn; omega⟩
    rw [append_assoc, cons_append] at hs
    obtain ⟨c', s1, hrun, hmap, hs1⟩ := ih n s _ hs (by simp only [rounds] at hn ⊢; omega)
      (by simp [headTok, follow, Token.tok])
    obtain ⟨h1, h2⟩ := after_sym hs1
    have hn' : rounds .pipe (lex (behind s1)).length ≤ n := by
      have hlen : (lex s).length = ts.length + ((lex (behind s1)).length + 1) := by
        rw [hs, h2, length_append, length_cons]
      simp only [rounds] at hn ⊢
      omega
    obtain ⟨d', s2, hrun', hmap', hs2⟩ := ih' n (behind s1) rest h2 hn' hrest
    show ∃ c' s', parsepipe (n + 1) s = _ ∧ _
    rw [parsepipe, run_bind (x := parseexec n) hrun, run_peek (peek_pipe.2 h1), if_pos rfl,
      run_gettok_skip, run_bind (x := parsepipe n) hrun']
    refine ⟨_, s2, rfl, ?_, hs2⟩
    rw [Cmd.map, hmap, hmap']
  | @lineOne ts c k _ ih =>
    intro n s rest hs hn hrest
    obtain ⟨n, rfl⟩ : ∃ m, n = m + 1 := ⟨n - 1, by simp only [rounds] at hn; omega⟩
    rw [append_assoc] at hs
    obtain ⟨c', s1, hrun, hmap, hs1⟩ := ih n s _ hs (by simp only [rounds] at hn ⊢; omega)
      (headTok_amps_follow (follow_pipe_of_line hrest))
    obtain ⟨s2, hrun', hs2⟩ := ampLoop_complete k (s1.length + 1) c' s1 rest hs1
      (Nat.lt_succ_of_le (length_lex_le s1)) (ne_of_follow hrest (by decide))
    have hrun'' : whileTokens (ampLoop · c') s1 = .done (Cmd.back^[k] c') s2 := hrun'
    have hp : next s2 ≠ .semi := by
      rw [next_eq, hs2]
      exact ne_of_follow hrest (by decide)
    show ∃ c' s', parseline (n + 1) s = _ ∧ _
    rw [parseline, run_bind (x := parsepipe n) hrun, run_bind hrun'',
      run_peek (bool_eq_false peek_semi hp), if_neg nofun]
    refine ⟨_, _, rfl, ?_, by rw [lex_skip, hs2]⟩
    rw [map_back, hmap]
  | @line ts ts' l r k _ _ ih ih' =>
    intro n s rest hs hn hrest
    obtain ⟨n, rfl⟩ : ∃ m, n = m + 1 := ⟨n - 1, by simp only [rounds] at hn; omega⟩
    rw [append_assoc, append_assoc, cons_append] at hs
    obtain ⟨c', s1, hrun, hmap, hs1⟩ := ih n s _ hs (by simp only [rounds] at hn ⊢; omega)
      (headTok_amps_follow (by simp [headTok, follow, Token.tok]))
    obtain ⟨s2, hrun', hs2⟩ := ampLoop_complete k (s1.length + 1) c' s1 _ hs1
      (Nat.lt_succ_of_le (length_lex_le s1)) (by simp [headTok, Token.tok])
    have hrun'' : whileTokens (ampLoop · c') s1 = .done (Cmd.back^[k] c') s2 := hrun'
    obtain ⟨h1, h2⟩ := after_sym hs2
    have hn' : rounds .line (lex (behind s2)).length ≤ n := by
      have hlen : (lex s).length = ts.length + (k + ((lex (behind s2)).length + 1)) := by
        rw [hs, h2, length_append, length_append, List.length_replicate,
          length_cons]
      simp only [rounds] at hn ⊢
      omega
    obtain ⟨d', s3, hrun3, hmap', hs3⟩ := ih' n (behind s2) rest h2 hn' hrest
    show ∃ c' s', parseline (n + 1) s = _ ∧ _
    rw [parseline, run_bind (x := parsepipe n) hrun, run_bind hrun'', run_peek (peek_semi.2 h1),
      if_pos rfl, run_gettok_skip, run_bind (x := parseline n) hrun3]
    refine ⟨_, s3, rfl, ?_, hs3⟩
    rw [Cmd.map, map_back, hmap, hmap']

theorem parsecmd_spec (line : Str) :
    Sat (parsecmd line) fun c s => s = [] ∧ (∀ w ∈ c.words, IsSpan line w) ∧
      Derives .line (lex line) (c.map Span.text) := by
  have hlen : 4 * (lex line).length + 4 ≤ 4 * line.length + 4 := by
    have := length_lex_le line
    omega
  refine Sat.bind (((parser_sound _).1 line hlen).mono fun c s1 h1 => ?_)
  refine Sat.bind (x := peekP []) ?_
  show Sat ((if (!(skip s1).isEmpty) = true then Parser.panic "syntax" else pure c) (skip s1)) _
  by_cases he : skip s1 = []
  · rw [he]
    obtain ⟨ts, hd, hs⟩ := h1.tokens
    rw [skip_eq_nil.1 he, append_nil] at hs
    exact ⟨rfl, h1.spans, hs ▸ hd⟩
  · rw [if_pos (by simpa using he)]
    exact mem_of_elem_eq_true rfl

theorem parsecmd_complete {tree : Cmd Str} (h : Derives .line (lex line) tree) :
    ∃ c, parsecmd line = .done c [] ∧ c.map Span.text = tree := by
  have hlen : rounds .line (lex line).length ≤ 4 * line.length + 4 := by
    have := length_lex_le line
    simp only [rounds]
    omega
  obtain ⟨c, s', hrun, hmap, hs'⟩ := parser_complete h _ line [] (append_nil _).symm hlen
    (by decide)
  refine ⟨c, ?_, hmap⟩
  have he : skip s' = [] := skip_eq_nil.2 hs'
  unfold parsecmd
  rw [run_bind (x := parseline _) hrun, run_peek (b := false) (by unfold peek; rw [he])]
  show (if (!(skip s').isEmpty) = true then Parser.panic "syntax" else pure c) (skip s') = _
  rw [he]
  rfl

end Xv6.Sh
