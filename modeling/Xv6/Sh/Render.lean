import Xv6.Sh.Grammar

/-!
# Trees and lines

A tree is rendered as tokens, in parentheses where its place in the grammar asks for them, and a
text that spells the tokens parses back to the tree. With the grammar this says what `parsecmd` does
with any line.
-/

namespace Xv6.Sh

open Fs (O_RDONLY O_WRONLY O_CREATE)

/-! ## Rendering -/

/-- Where a tree is rendered: as a command of its own, in a pipe, before `&`, or as a line. -/
inductive Level where
  | exec
  | pipe
  | back
  | line
deriving DecidableEq

def redirSym (fd : Nat) : Tok := if fd = 0 then .lt else .gt

def paren (b : Bool) (ts : List Token) : List Token :=
  if b then .sym .lpar :: (ts ++ [.sym .rpar]) else ts

/-- The tokens of a tree, in parentheses where its level asks for them. -/
def render : Cmd Str → Level → List Token
  | .exec argv, _ => argv.map .word
  | .redir cmd file _ fd, _ => render cmd .exec ++ [.sym (redirSym fd), .word file]
  | .pipe left right, lv =>
    paren (lv = .exec) (render left .exec ++ .sym .pipe :: render right .pipe)
  | .back cmd, lv => paren (lv = .exec ∨ lv = .pipe) (render cmd .back ++ [.sym .amp])
  | .list left right, lv =>
    paren (lv ≠ .line) (render left .back ++ .sym .semi :: render right .line)

/-- The trees that the parser can build: few enough words, and the redirections of `parseredirs`. -/
def IsTree {α : Type} : Cmd α → Prop
  | .exec argv => argv.length < MAXARGS
  | .redir cmd file mode fd => IsTree cmd ∧ ⟨file, mode, fd⟩ ∈ redirOf (redirSym fd) file
  | .pipe left right => IsTree left ∧ IsTree right
  | .list left right => IsTree left ∧ IsTree right
  | .back cmd => IsTree cmd

theorem wrap_append {α : Type} (c : Cmd α) (rs rs' : List (Redir α)) :
    wrap c (rs ++ rs') = wrap (wrap c rs) rs' := List.foldl_append

theorem isTree_wrap {rs : List (Redir Str)} {ts : List Token} (h : Redirs ts rs) :
    ∀ {c : Cmd Str}, IsTree c → IsTree (wrap c rs) := by
  induction h with
  | nil => exact fun hc => hc
  | @cons t w r ts rs hr _ ih =>
    intro c hc
    refine ih (c := .redir c r.file r.mode r.fd) ⟨hc, ?_⟩
    cases hr <;> exact List.mem_singleton.2 rfl

theorem redirs_append {ts ts' : List Token} {rs rs' : List (Redir Str)} (h : Redirs ts rs)
    (h' : Redirs ts' rs') : Redirs (ts ++ ts') (rs ++ rs') := by
  induction h with
  | nil => exact h'
  | cons hr _ ih => exact .cons hr ih

theorem Args.redirs {ts : List Token} {ws : List Str} {rs : List (Redir Str)} (h : Args ts ws rs) :
    ∃ ts', Redirs ts' rs := by
  induction h with
  | nil => exact ⟨[], .nil⟩
  | cons hr _ ih =>
    obtain ⟨ts', h'⟩ := ih
    exact ⟨_, redirs_append hr h'⟩

theorem isTree_back (k : Nat) : ∀ {c : Cmd Str}, IsTree c → IsTree (Cmd.back^[k] c) := by
  induction k with
  | zero => exact fun h => h
  | succ k ih => exact fun {c} h => ih (c := .back c) h

theorem Derives.isTree {ph : Phrase} {ts : List Token} {c : Cmd Str} (h : Derives ph ts c) :
    IsTree c := by
  induction h with
  | exec hr ha hlen =>
    obtain ⟨ts', h'⟩ := ha.redirs
    exact isTree_wrap (redirs_append hr h') hlen
  | block _ hr ih => exact isTree_wrap hr ih
  | pipeOne _ ih => exact ih
  | pipe _ _ ih ih' => exact ⟨ih, ih'⟩
  | lineOne k _ ih => exact isTree_back k ih
  | line k _ _ ih ih' => exact ⟨isTree_back k ih, ih'⟩

theorem args_redir {ts ts' : List Token} {ws : List Str} {rs rs' : List (Redir Str)}
    (h : Args ts ws rs) (h' : Redirs ts' rs') (hne : ws ≠ []) :
    Args (ts ++ ts') ws (rs ++ rs') := by
  induction h with
  | nil => exact absurd rfl hne
  | @cons w ts1 ts2 ws rs1 rs2 hr ha ih =>
    rw [List.cons_append, List.append_assoc, List.append_assoc]
    cases ha with
    | nil =>
      have h1 := Args.cons (w := w) (redirs_append hr h') .nil
      rw [List.append_nil, List.append_nil] at h1
      exact h1
    | cons hr' ha' => exact .cons hr (ih nofun)

theorem Derives.redir {ts : List Token} {c : Cmd Str} (h : Derives .exec ts c) {file : Str}
    {mode : BitVec 32} {fd : Nat}
    (hm : (⟨file, mode, fd⟩ : Redir Str) ∈ redirOf (redirSym fd) file) :
    Derives .exec (ts ++ [.sym (redirSym fd), .word file]) (.redir c file mode fd) := by
  have hnode : Redirects (redirSym fd) file ⟨file, mode, fd⟩ := by
    unfold redirSym at hm ⊢
    split_ifs at hm ⊢ <;> rw [List.mem_singleton.1 hm] <;> constructor
  have hone : Redirs [.sym (redirSym fd), .word file] [⟨file, mode, fd⟩] := .cons hnode .nil
  cases h with
  | @exec ts ts' ws rs rs' hr ha hlen =>
    rw [List.append_assoc]
    show Derives .exec _ (wrap (wrap (.exec ws) (rs ++ rs')) [⟨file, mode, fd⟩])
    rw [← wrap_append]
    -- the redirection joins those behind the last word
    cases ha with
    | nil =>
      have h1 := redirs_append hr hone
      have h2 := Derives.exec h1 .nil hlen
      rw [List.append_nil, List.append_nil] at h2
      rw [List.append_nil]
      exact h2
    | cons ha hb =>
      rw [List.append_assoc]
      exact .exec hr (args_redir (.cons ha hb) hone nofun) hlen
  | block hd hr =>
    show Derives .exec _ (wrap (wrap _ _) [⟨file, mode, fd⟩])
    rw [← wrap_append, List.cons_append, List.append_assoc, List.cons_append]
    exact .block hd (redirs_append hr hone)

/-- A pipe and the `&` behind it. -/
def Backed (ts : List Token) (c : Cmd Str) : Prop :=
  ∃ ts₀ c₀ k, Derives .pipe ts₀ c₀ ∧ ts = ts₀ ++ List.replicate k (.sym .amp) ∧ c = Cmd.back^[k] c₀

variable {ts ts' : List Token} {c l r : Cmd Str}

theorem Backed.line (h : Backed ts c) : Derives .line ts c := by
  obtain ⟨ts0, c0, k, h0, rfl, rfl⟩ := h
  exact .lineOne k h0

theorem Backed.amp (h : Backed ts c) : Backed (ts ++ [.sym .amp]) (.back c) := by
  obtain ⟨ts0, c0, k, h0, rfl, rfl⟩ := h
  refine ⟨ts0, c0, k + 1, h0, ?_, (Function.iterate_succ_apply' Cmd.back k c0).symm⟩
  rw [List.append_assoc, List.replicate_succ']

theorem Backed.semi (h : Backed ts l) (h' : Derives .line ts' r) :
    Derives .line (ts ++ .sym .semi :: ts') (.list l r) := by
  obtain ⟨ts0, c0, k, h0, rfl, rfl⟩ := h
  rw [List.append_assoc]
  exact .line k h0 h'

theorem Derives.backed (h : Derives .pipe ts c) : Backed ts c :=
  ⟨ts, c, 0, h, (List.append_nil _).symm, rfl⟩

theorem Derives.paren (h : Derives .line ts c) : Derives .exec (paren true ts) c := .block h .nil

theorem args_words (ws : List Str) : Args (ws.map .word) ws [] := by
  induction ws with
  | nil => exact .nil
  | cons w ws ih => exact .cons .nil ih

def At : Level → List Token → Cmd Str → Prop
  | .exec => Derives .exec
  | .pipe => Derives .pipe
  | .back => Backed
  | .line => Derives .line

theorem Derives.at (h : Derives .exec ts c) (lv : Level) : At lv ts c := by
  cases lv with
  | exec => exact h
  | pipe => exact .pipeOne h
  | back => exact (Derives.pipeOne h).backed
  | line => exact (Derives.pipeOne h).backed.line

theorem derives_render (c : Cmd Str) : ∀ lv, IsTree c → At lv (render c lv) c := by
  induction c with
  | exec argv =>
    intro lv h
    exact (Derives.exec .nil (args_words argv) h).at lv
  | redir cmd file mode fd ih =>
    intro lv h
    exact ((ih .exec h.1).redir h.2).at lv
  | pipe left right ihl ihr =>
    intro lv h
    have hp : Derives .pipe (render left .exec ++ .sym .pipe :: render right .pipe)
      (.pipe left right) :=
      .pipe (ihl .exec h.1) (ihr .pipe h.2)
    cases lv with
    | exec => exact hp.backed.line.paren
    | pipe => exact hp
    | back => exact hp.backed
    | line => exact hp.backed.line
  | list left right ihl ihr =>
    intro lv h
    have hl : Derives .line (render left .back ++ .sym .semi :: render right .line)
      (.list left right) :=
      (ihl .back h.1).semi (ihr .line h.2)
    cases lv with
    | line => exact hl
    | exec => exact hl.paren
    | pipe => exact hl.paren.at .pipe
    | back => exact hl.paren.at .back
  | back cmd ih =>
    intro lv h
    have hb : Backed (render cmd .back ++ [.sym .amp]) (.back cmd) := (ih .back h).amp
    cases lv with
    | back => exact hb
    | line => exact hb.line
    | exec => exact hb.line.paren
    | pipe => exact hb.line.paren.at .pipe

/-! ## Spelling a tree -/

def Token.Spelled : Token → Prop
  | .sym t => ∃ u, spelling t = some u
  | .word w => w ≠ [] ∧ ∀ c ∈ w, isWord c = true

theorem Spells.blank {line : Str} (h : Spells ts line) : Spells ts (32 :: line) := by
  have hb : ∀ g : Str, (∀ c ∈ g, isSpace c = true) → ∀ c ∈ 32 :: g, isSpace c = true :=
    fun g hg => List.forall_mem_cons.2 ⟨rfl, hg⟩
  cases h with
  | nil hg => exact .nil (hb _ hg)
  | sym hg hu hgt hr => exact .sym (hb _ hg) hu hgt hr
  | word hg hne hw hend hr => exact .word (hb _ hg) hne hw hend hr

theorem exists_spells (h : ∀ k ∈ ts, k.Spelled) : ∃ line, Spells ts line := by
  induction ts with
  | nil => exact ⟨[], .nil nofun⟩
  | cons k ts ih =>
    obtain ⟨line, hl⟩ := ih fun k hk => h k (List.mem_cons_of_mem _ hk)
    have hk := h k List.mem_cons_self
    cases k with
    | sym t =>
      obtain ⟨u, hu⟩ := hk
      exact ⟨_, .sym (g := []) nofun hu (fun _ => by simp) hl.blank⟩
    | word w =>
      exact ⟨_, .word (g := []) nofun hk.1 hk.2 (by simp [isWord, isSpace, whitespace]) hl.blank⟩

theorem spelled_paren {b : Bool} (h : ∀ k ∈ ts, k.Spelled) : ∀ k ∈ paren b ts, k.Spelled := by
  unfold paren
  split
  · simp only [List.mem_cons, List.mem_append, List.not_mem_nil, or_false]
    rintro k (rfl | hk | rfl)
    · exact ⟨_, rfl⟩
    · exact h k hk
    · exact ⟨_, rfl⟩
  · exact h

theorem spelled_append {t : Tok} (ht : ∃ u, spelling t = some u) (h : ∀ k ∈ ts, k.Spelled)
    (h' : ∀ k ∈ ts', k.Spelled) : ∀ k ∈ ts ++ .sym t :: ts', k.Spelled := by
  simp only [List.mem_append, List.mem_cons]
  rintro k (hk | rfl | hk)
  · exact h k hk
  · exact ht
  · exact h' k hk

theorem spelled_render (c : Cmd Str) :
    ∀ lv, (∀ w ∈ c.words, (Token.word w).Spelled) → ∀ k ∈ render c lv, k.Spelled := by
  induction c with
  | exec argv =>
    intro lv h k hk
    obtain ⟨w, hw, rfl⟩ := List.mem_map.1 hk
    exact h w hw
  | redir cmd file mode fd ih =>
    intro lv h
    rw [Cmd.words, List.forall_mem_append] at h
    refine spelled_append ?_ (ih .exec h.1) ?_
    · unfold redirSym
      split_ifs <;> exact ⟨_, rfl⟩
    · intro k hk
      rw [List.mem_singleton.1 hk]
      exact h.2 file (List.mem_singleton.2 rfl)
  | pipe left right ihl ihr =>
    intro lv h
    rw [Cmd.words, List.forall_mem_append] at h
    exact spelled_paren (spelled_append ⟨_, rfl⟩ (ihl _ h.1) (ihr _ h.2))
  | list left right ihl ihr =>
    intro lv h
    rw [Cmd.words, List.forall_mem_append] at h
    exact spelled_paren (spelled_append ⟨_, rfl⟩ (ihl _ h.1) (ihr _ h.2))
  | back cmd ih =>
    intro lv h
    exact spelled_paren (spelled_append ⟨_, rfl⟩ (ih _ h) (List.forall_mem_nil _))

theorem words_map {α β : Type} (f : α → β) (c : Cmd α) : (c.map f).words = c.words.map f := by
  induction c with
  | exec argv => rfl
  | redir cmd file mode fd ih => rw [Cmd.map, Cmd.words, Cmd.words, ih, List.map_append]; rfl
  | pipe left right ihl ihr => rw [Cmd.map, Cmd.words, Cmd.words, ihl, ihr, List.map_append]
  | list left right ihl ihr => rw [Cmd.map, Cmd.words, Cmd.words, ihl, ihr, List.map_append]
  | back cmd ih => exact ih

theorem IsSpan.text {line : Str} {w : Span} (h : IsSpan line w) : w.1 = w.text ++ w.2 := by
  obtain ⟨-, u, hu, -⟩ := h
  unfold Span.text
  rw [hu, text_append]

theorem IsSpan.spelled {line : Str} {w : Span} (h : IsSpan line w) :
    (Token.word w.text).Spelled := by
  have ht := h.text
  obtain ⟨-, u, hu, hne, hw, -⟩ := h
  have : w.text = u := List.append_cancel_right (ht.symm.trans hu)
  rw [this]
  exact ⟨hne, hw⟩

/-! ## Every line -/

/-- A line is accepted if and only if its tokens derive from the grammar, with the tree of the
derivation; every other line ends in a panic. The tree of a line can be spelled, and every text that
spells it is accepted with the same tree. -/
theorem parsecmd_grammar (line : Str) :
    (∀ tree, (∃ c, parsecmd line = .done c [] ∧ c.map Span.text = tree) ↔
      Derives .line (lex line) tree) ∧
    ((∃ c, parsecmd line = .done c []) ∨ ∃ msg ∈ panics, parsecmd line = .panic msg) ∧
    ∀ tree, Derives .line (lex line) tree →
      (∃ line', Spells (render tree .line) line') ∧
      ∀ line', Spells (render tree .line) line' →
        ∃ c, parsecmd line' = .done c [] ∧ c.map Span.text = tree := by
  have hspec := parsecmd_spec line
  refine ⟨fun tree => ⟨?_, parsecmd_complete⟩, ?_, fun tree h => ⟨?_, fun line' hl => ?_⟩⟩
  · rintro ⟨c, hrun, rfl⟩
    rw [hrun] at hspec
    exact hspec.2.2
  · cases hrun : parsecmd line with
    | done c s =>
      rw [hrun] at hspec
      exact .inl ⟨c, hspec.1 ▸ rfl⟩
    | panic msg =>
      rw [hrun] at hspec
      exact .inr ⟨msg, hspec, rfl⟩
    | loops =>
      rw [hrun] at hspec
      exact hspec.elim
  · obtain ⟨c, hrun, rfl⟩ := parsecmd_complete h
    rw [hrun] at hspec
    refine exists_spells (spelled_render _ .line fun w hw => ?_)
    rw [words_map] at hw
    obtain ⟨sp, hsp, rfl⟩ := List.mem_map.1 hw
    exact (hspec.2.1 sp hsp).spelled
  · have hd : Derives .line (render tree .line) tree := derives_render tree .line h.isTree
    rw [← hl.lex] at hd
    exact parsecmd_complete hd

end Xv6.Sh
