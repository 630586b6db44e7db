import Xv6.Sh.Lex
import Xv6.Fs.Calls

/-!
# The parser of the shell

`parseline`, `parsepipe`, `parseexec` and `parseblock` call each other and move one cursor. The
recursion is bounded by a number of rounds, the loops by the length of what is left of the line;
with the rounds that `parsecmd` gives, no bound is ever reached.
-/

namespace Xv6.Sh

open Fs (O_RDONLY O_WRONLY O_CREATE)

/-! ## Trees -/

/-- A command, with the words of the line given by `α`. -/
inductive Cmd (α : Type) where
  | exec (argv : List α)
  | redir (cmd : Cmd α) (file : α) (mode : BitVec 32) (fd : Nat)
  | pipe (left right : Cmd α)
  | list (left right : Cmd α)
  | back (cmd : Cmd α)
deriving DecidableEq

/-- What `redircmd` is given apart from the command. -/
structure Redir (α : Type) where
  file : α
  mode : BitVec 32
  fd : Nat
deriving DecidableEq

variable {α β : Type}

def Cmd.map (f : α → β) : Cmd α → Cmd β
  | .exec argv => .exec (argv.map f)
  | .redir cmd file mode fd => .redir (cmd.map f) (f file) mode fd
  | .pipe left right => .pipe (left.map f) (right.map f)
  | .list left right => .list (left.map f) (right.map f)
  | .back cmd => .back (cmd.map f)

def Redir.map (f : α → β) (r : Redir α) : Redir β := ⟨f r.file, r.mode, r.fd⟩

def Cmd.words : Cmd α → List α
  | .exec argv => argv
  | .redir cmd file _ _ => cmd.words ++ [file]
  | .pipe left right => left.words ++ right.words
  | .list left right => left.words ++ right.words
  | .back cmd => cmd.words

def wrap (cmd : Cmd α) (rs : List (Redir α)) : Cmd α :=
  rs.foldl (fun c r => .redir c r.file r.mode r.fd) cmd

/-- The switch of `parseredirs`. -/
def redirOf : Tok → α → List (Redir α)
  | .lt, file => [⟨file, O_RDONLY, 0⟩]
  | .gt, file => [⟨file, O_WRONLY ||| O_CREATE, 1⟩]
  | .app, file => [⟨file, O_WRONLY ||| O_CREATE, 1⟩]
  | _, _ => []

def MAXARGS : Nat := 10

/-! ## The parser -/

/-- How a part of the parser ends: with a result and the new `*ps`, in `panic`, or not within the
rounds that were given. -/
inductive Out (α : Type) where
  | done (a : α) (s : Ptr)
  | panic (msg : String)
  | loops
deriving DecidableEq

/-- A part of the parser, run from `*ps`. -/
def Parser (α : Type) : Type := Ptr → Out α

namespace Parser

def bind (x : Parser α) (f : α → Parser β) : Parser β := fun s =>
  match x s with
  | .done a s' => f a s'
  | .panic msg => .panic msg
  | .loops => .loops

instance : Monad Parser where
  pure a := fun s => .done a s
  bind := bind

def panic (msg : String) : Parser α := fun _ => .panic msg

def loops : Parser α := fun _ => .loops

end Parser

/-- A word of the line: `q` and `eq`. -/
abbrev Span := Ptr × Ptr

def Span.text (w : Span) : Str := Sh.text w.1 w.2

/-- `peek(ps, es, toks)`. -/
def peekP (toks : Str) : Parser Bool := fun s => .done (peek toks s).1 (peek toks s).2

/-- `gettoken(ps, es, &q, &eq)`. -/
def gettok : Parser (Tok × Span) := fun s =>
  .done ((gettoken s).1, (gettoken s).2.1, (gettoken s).2.2.1) (gettoken s).2.2.2

/-- A loop, of which each round takes a token, so that the rest of the line bounds it. -/
def whileTokens (loop : Nat → Parser α) : Parser α := fun s => loop (s.length + 1) s

/-- The loop of `parseredirs`: the redirections in the order in which they are wrapped. -/
def redirsLoop : Nat → Parser (List (Redir Span))
  | 0 => Parser.loops
  | n + 1 => do
    if ← peekP [60, 62] then
      let tok ← gettok
      let file ← gettok
      if file.1 ≠ .word then
        Parser.panic "missing file for redirection"
      else
        let rs ← redirsLoop n
        return redirOf tok.1 file.2 ++ rs
    else
      return []

def parseredirs : Parser (List (Redir Span)) := whileTokens redirsLoop

/-- The loop of `parseexec`, from `argc` on. `cmd` is the innermost command, and is still filled in
when `ret` is already around it: the words and the redirections are collected side by side. -/
def argsLoop : Nat → Nat → Parser (List Span × List (Redir Span))
  | 0, _ => Parser.loops
  | n + 1, argc => do
    if ← peekP [124, 41, 38, 59] then
      return ([], [])
    else
      let tok ← gettok
      if tok.1 = .eof then
        return ([], [])
      else if tok.1 ≠ .word then
        Parser.panic "syntax"
      else if MAXARGS ≤ argc + 1 then
        Parser.panic "too many args"
      else
        let rs ← parseredirs
        let rest ← argsLoop n (argc + 1)
        return (tok.2 :: rest.1, rs ++ rest.2)

/-- The loop of `parseline` over `&`. -/
def ampLoop : Nat → Cmd Span → Parser (Cmd Span)
  | 0, _ => Parser.loops
  | n + 1, cmd => do
    if ← peekP [38] then
      let _ ← gettok
      ampLoop n (.back cmd)
    else
      return cmd

mutual

def parseline : Nat → Parser (Cmd Span)
  | 0 => Parser.loops
  | n + 1 => do
    let cmd ← parsepipe n
    let cmd ← whileTokens (ampLoop · cmd)
    if ← peekP [59] then
      let _ ← gettok
      let right ← parseline n
      return .list cmd right
    else
      return cmd

def parsepipe : Nat → Parser (Cmd Span)
  | 0 => Parser.loops
  | n + 1 => do
    let cmd ← parseexec n
    if ← peekP [124] then
      let _ ← gettok
      let right ← parsepipe n
      return .pipe cmd right
    else
      return cmd

def parseexec : Nat → Parser (Cmd Span)
  | 0 => Parser.loops
  | n + 1 => do
    if ← peekP [40] then
      parseblock n
    else
      let rs ← parseredirs
      let args ← whileTokens (argsLoop · 0)
      return wrap (.exec args.1) (rs ++ args.2)

def parseblock : Nat → Parser (Cmd Span)
  | 0 => Parser.loops
  | n + 1 => do
    if ← peekP [40] then
      let _ ← gettok
      let cmd ← parseline n
      if ← peekP [41] then
        let _ ← gettok
        let rs ← parseredirs
        return wrap cmd rs
      else
        Parser.panic "syntax - missing )"
    else
      Parser.panic "parseblock"

end

/-- `s != es`. -/
def leftovers : Parser Bool := fun s => .done (!s.isEmpty) s

/-- `parsecmd`, up to `nulterminate`. -/
def parsecmd (line : Str) : Out (Cmd Span) :=
  (do
    let cmd ← parseline (4 * line.length + 4)
    let _ ← peekP []
    if ← leftovers then
      Parser.panic "syntax"
    else
      return cmd : Parser (Cmd Span)) line

/-! ## How the parts of the parser run -/

def panics : List String :=
  ["missing file for redirection", "syntax", "too many args", "syntax - missing )", "parseblock"]

/-- The run ends: with what `Q` says, or in one of the panics. -/
def Sat (r : Out α) (Q : α → Ptr → Prop) : Prop :=
  match r with
  | .done a s => Q a s
  | .panic msg => msg ∈ panics
  | .loops => False

variable {x : Parser α} {f : α → Parser β} {Q : β → Ptr → Prop} {s s' : Ptr} {a : α}

theorem run_bind (h : x s = .done a s') : (x >>= f) s = f a s' := by
  show Parser.bind x f s = _
  unfold Parser.bind
  rw [h]

theorem Sat.bind (h : Sat (x s) (fun a s' => Sat (f a s') Q)) : Sat ((x >>= f) s) Q := by
  show Sat (Parser.bind x f s) Q
  unfold Parser.bind
  cases hx : x s with
  | done a s' => rwa [hx] at h
  | panic msg => rwa [hx] at h
  | loops => rwa [hx] at h

theorem Sat.mono {r : Out α} {Q Q' : α → Ptr → Prop} (h : Sat r Q) (hQ : ∀ a s, Q a s → Q' a s) :
    Sat r Q' := by
  cases r with
  | done a s => exact hQ a s h
  | panic msg => exact h
  | loops => exact h

theorem run_peek {f : Bool → Parser β} {toks : Str} {b : Bool} (h : (peek toks s).1 = b) :
    (peekP toks >>= f) s = f b (skip s) := by
  subst h
  rfl

/-- The next token's `q` and `eq`. -/
def spanAt (s : Ptr) : Span := ((gettoken s).2.1, (gettoken s).2.2.1)

/-- `*ps` behind the next token. -/
def behind (s : Ptr) : Ptr := (gettoken s).2.2.2

@[simp] theorem spanAt_skip (s : Ptr) : spanAt (skip s) = spanAt s := by
  unfold spanAt
  rw [gettoken_skip]

@[simp] theorem behind_skip (s : Ptr) : behind (skip s) = behind s := by
  unfold behind
  rw [gettoken_skip]

theorem run_gettok {f : Tok × Span → Parser β} :
    (gettok >>= f) s = f (next s, spanAt s) (behind s) := rfl

theorem run_gettok_skip {f : Tok × Span → Parser β} :
    (gettok >>= f) (skip s) = f (next s, spanAt s) (behind s) := by
  rw [run_gettok, next_skip, spanAt_skip, behind_skip]

def headTok : List Token → Tok
  | [] => .eof
  | t :: _ => t.tok

theorem next_eq (s : Ptr) : next s = headTok (lex s) := by
  cases h : lex s with
  | nil => exact next_eq_eof.2 h
  | cons k ts => exact next_of_lex h

theorem lex_of_next {t : Tok} (h : next s = t) (he : t ≠ .eof) (hw : t ≠ .word) :
    lex s = .sym t :: lex (behind s) := by
  subst h
  have hg : gettoken s = (next s, (spanAt s).1, (spanAt s).2, behind s) := rfl
  rw [lex_of_gettoken hg he, if_neg hw]

theorem lex_of_word (h : next s = .word) :
    lex s = .word (spanAt s).text :: lex (behind s) := by
  have hg : gettoken s = (next s, (spanAt s).1, (spanAt s).2, behind s) := rfl
  rw [lex_of_gettoken hg (by rw [h]; nofun), if_pos h]
  rfl

end Xv6.Sh
