import Xv6.Console.Model

/-!
# The ring of the console is a queue in two parts

The committed bytes of the ring are those from `r` to `w`, and the line being edited is that from
`w` to `e` (`Input.abs`). Every character and every pass through the loop of `consoleread` does to
the two lists what the queue says, also where the counters wrap around, because `INPUT_BUF` divides
`2 ^ 32`. It has to be known that the line has no newline in it: `^U` stops at one.
-/

namespace Xv6.Console

open Lib

variable {inp : Input} {q : Queue} {c : Byte} {dst : List Byte} {n target : Nat}

theorem INPUT_BUF_dvd : INPUT_BUF ∣ 2 ^ 32 := by decide

theorem INPUT_BUF_lt : INPUT_BUF < 2 ^ 32 := by decide

/-! ## The two parts -/

namespace Input

def part (inp : Input) (a b : BitVec 32) : Fifo Byte INPUT_BUF 32 := ⟨inp.buf, a, b⟩

def committed (inp : Input) : List Byte := (inp.part inp.r inp.w).contents

def edit (inp : Input) : List Byte := (inp.part inp.w inp.e).contents

def abs (inp : Input) : Queue := ⟨inp.committed, inp.edit⟩

theorem length_committed : inp.committed.length = (inp.w - inp.r).toNat := Fifo.length_contents _

theorem length_edit : inp.edit.length = (inp.e - inp.w).toNat := Fifo.length_contents _

theorem edit_eq_nil (h : inp.e = inp.w) : inp.edit = [] := by
  rw [← List.length_eq_zero_iff, length_edit, h]
  simp

end Input

structure Queue.Ok (q : Queue) : Prop where
  size : q.committed.length + q.edit.length ≤ INPUT_BUF
  line : newline ∉ q.edit

theorem Queue.Ok.total (h : inp.abs.Ok) :
    (inp.e - inp.r).toNat = inp.committed.length + inp.edit.length := by
  have h1 : (inp.part inp.r inp.w).count + (inp.part inp.w inp.e).count < 2 ^ 32 := by
    rw [← Fifo.length_contents, ← Fifo.length_contents]
    exact Nat.lt_of_le_of_lt h.size INPUT_BUF_lt
  rw [Input.length_committed, Input.length_edit]
  exact Fifo.count_append h1

/-! ## Characters -/

theorem abs_backspace (h : inp.e ≠ inp.w) :
    inp.edit = ({ inp with e := inp.e - 1 } : Input).edit ++ [inp.get (inp.e - 1)] :=
  Fifo.contents_retract h.symm

theorem abs_killLine (h : newline ∉ inp.edit) : inp.killLine.abs = ⟨inp.committed, []⟩ := by
  fun_induction Input.killLine inp with
  | case1 inp hc ih =>
    rw [abs_backspace hc.1] at h
    exact ih fun hm => h (List.mem_append_left _ hm)
  | case2 inp hc =>
    -- the loop has not stopped at a newline
    have he : inp.e = inp.w := by
      by_contra hne
      refine hc ⟨hne, fun hn => h ?_⟩
      rw [abs_backspace hne, hn]
      exact List.mem_append_right _ List.mem_cons_self
    rw [Input.abs, Input.edit_eq_nil he]

/-- `input.buf[input.e++ % INPUT_BUF] = c`. -/
def Input.store (inp : Input) (c : Byte) : Input :=
  { inp with buf := Function.update inp.buf (Fifo.index inp.e) c, e := inp.e + 1 }

/-- `input.w = input.e`. -/
def Input.commit (inp : Input) : Input := { inp with w := inp.e }

theorem abs_store (hs : inp.committed.length + inp.edit.length < INPUT_BUF) :
    (inp.store c).abs = ⟨inp.committed, inp.edit ++ [c]⟩ := by
  rw [Input.length_committed, Input.length_edit] at hs
  have h1 : (inp.store c).committed = inp.committed :=
    Fifo.contents_update INPUT_BUF_dvd INPUT_BUF_lt hs c
  have h2 : (inp.store c).edit = inp.edit ++ [c] := by
    have hlt : (inp.part inp.w inp.e).count < INPUT_BUF :=
      Nat.lt_of_le_of_lt (Nat.le_add_left ..) hs
    exact Fifo.contents_push INPUT_BUF_dvd INPUT_BUF_lt hlt c
  rw [Input.abs, h1, h2]

theorem abs_commit (h : inp.committed.length + inp.edit.length ≤ INPUT_BUF) :
    inp.commit.abs = ⟨inp.committed ++ inp.edit, []⟩ := by
  have h1 : inp.commit.committed = inp.committed ++ inp.edit := by
    refine Fifo.contents_append (Nat.lt_of_le_of_lt ?_ INPUT_BUF_lt)
    rwa [Input.length_committed, Input.length_edit] at h
  have h2 : inp.commit.edit = [] := Input.edit_eq_nil rfl
  rw [Input.abs, h1, h2]

theorem full_iff (h : inp.abs.Ok) (hs : inp.committed.length + inp.edit.length < INPUT_BUF) :
    (inp.store c).e = (inp.store c).r + BitVec.ofNat 32 INPUT_BUF ↔
      inp.committed.length + inp.edit.length + 1 = INPUT_BUF := by
  have hlt : (inp.part inp.r inp.e).count < INPUT_BUF := by
    rw [← h.total] at hs
    exact hs
  have h1 : ((inp.part inp.r inp.e).push c).count = (inp.part inp.r inp.e).count + 1 :=
    Fifo.count_push INPUT_BUF_lt hlt c
  have h2 := Fifo.count_eq_iff (q := (inp.part inp.r inp.e).push c) INPUT_BUF_lt
  rw [h1] at h2
  rw [← h.total]
  exact h2.symm

theorem abs_append (h : inp.abs.Ok) :
    (if (inp.e - inp.r).toNat < INPUT_BUF then
      if c = newline ∨ c = C 'D' ∨ (inp.store c).e =
        (inp.store c).r + BitVec.ofNat 32 INPUT_BUF then
        (inp.store c).commit
      else inp.store c
    else inp).abs = inp.abs.append c := by
  unfold Queue.append
  change _ = if inp.committed.length + inp.edit.length < INPUT_BUF then
    if c = newline ∨ c = C 'D' ∨ inp.committed.length + inp.edit.length + 1 = INPUT_BUF then
      ⟨inp.committed ++ (inp.edit ++ [c]), []⟩
    else ⟨inp.committed, inp.edit ++ [c]⟩
    else inp.abs
  rw [h.total]
  by_cases hs : inp.committed.length + inp.edit.length < INPUT_BUF
  · rw [if_pos hs, if_pos hs]
    have hst := abs_store (c := c) hs
    have h1 : (inp.store c).committed = inp.committed := congrArg Queue.committed hst
    have h2 : (inp.store c).edit = inp.edit ++ [c] := congrArg Queue.edit hst
    simp only [full_iff h hs]
    split
    · rw [abs_commit, h1, h2]
      rw [h1, h2, List.length_append, List.length_singleton]
      omega
    · exact hst
  · rw [if_neg hs, if_neg hs]

theorem abs_key (h : inp.abs.Ok) (c : Byte) : (inp.key c).abs = inp.abs.key c := by
  unfold Input.key Queue.key
  by_cases hP : c = C 'P'
  · rw [if_pos hP, if_pos (.inr hP)]
  by_cases h0 : c = 0
  · -- `0` is not one of the characters before the default
    subst h0
    rw [if_neg hP, if_neg (by decide), if_neg (by decide), if_neg (fun hc => hc.1 rfl),
      if_pos (.inl rfl)]
  have h0P : ¬ (c = 0 ∨ c = C 'P') := fun hc => hc.elim h0 hP
  rw [if_neg hP, if_neg h0P]
  by_cases hU : c = C 'U'
  · rw [if_pos hU, if_pos hU]
    exact abs_killLine h.line
  rw [if_neg hU, if_neg hU]
  by_cases hH : c = C 'H' ∨ c = DEL
  · rw [if_pos hH, if_pos hH]
    by_cases he : inp.e = inp.w
    · rw [if_neg (not_not.2 he), Input.abs, Input.edit_eq_nil he]
      rfl
    · rw [if_pos he]
      have h1 : inp.abs.edit.dropLast = ({ inp with e := inp.e - 1 } : Input).edit := by
        change inp.edit.dropLast = _
        rw [abs_backspace he, List.dropLast_concat]
      rw [h1]
      rfl
  rw [if_neg hH, if_neg hH]
  have ha := abs_append (c := if c = carriageReturn then newline else c) h
  rw [← ha]
  by_cases hs : (inp.e - inp.r).toNat < INPUT_BUF
  · rw [if_pos ⟨h0, hs⟩, if_pos hs]
    rfl
  · rw [if_neg fun hc => hs hc.2, if_neg hs]

theorem Queue.Ok.append (h : q.Ok) (c : Byte) : (q.append c).Ok := by
  unfold Queue.append
  split
  · next hs =>
    split
    · refine ⟨?_, List.not_mem_nil⟩
      simp only [List.length_append, List.length_singleton, List.length_nil]
      omega
    · next hc =>
      refine ⟨?_, fun hm => ?_⟩
      · simp only [List.length_append, List.length_singleton]
        omega
      · rcases List.mem_append.1 hm with hm | hm
        · exact h.line hm
        · exact hc (.inl (List.mem_singleton.1 hm).symm)
  · exact h

theorem Queue.Ok.key (h : q.Ok) (c : Byte) : (q.key c).Ok := by
  unfold Queue.key
  have hsize := h.size
  split
  · exact h
  split
  · exact ⟨by simp only [List.length_nil]; omega, List.not_mem_nil⟩
  split
  · refine ⟨?_, fun hm => h.line (List.dropLast_subset _ hm)⟩
    simp only [List.length_dropLast]
    omega
  · exact h.append _

theorem abs_consoleintr (h : inp.abs.Ok) (cs : List Byte) :
    (Input.consoleintr cs inp).abs = cs.foldl Queue.key inp.abs ∧
    (cs.foldl Queue.key inp.abs).Ok := by
  induction cs generalizing inp with
  | nil => exact ⟨rfl, h⟩
  | cons c cs ih =>
    have hk := abs_key h c
    have hok : (inp.key c).abs.Ok := hk ▸ h.key c
    have := ih hok
    rw [hk] at this
    exact this

/-! ## `consoleread` -/

theorem abs_pop (h : inp.r ≠ inp.w) :
    inp.committed = inp.get inp.r :: ({ inp with r := inp.r + 1 } : Input).committed := by
  refine Fifo.contents_pop (q := inp.part inp.r inp.w) (Nat.pos_of_ne_zero fun h0 => h ?_)
  exact Fifo.count_eq_zero.1 h0

theorem abs_consoleread (h : dst.length + n = target) :
    ((Input.consoleread target n inp dst).1.abs, (Input.consoleread target n inp dst).2) =
      inp.abs.deliver n dst := by
  induction n generalizing inp dst with
  | zero => rfl
  | succ n ih =>
    unfold Input.consoleread
    by_cases hr : inp.r = inp.w
    · have hnil : inp.committed = [] := by
        rw [← List.length_eq_zero_iff, Input.length_committed, hr]
        simp
      rw [if_pos hr, Input.abs, hnil]
      rfl
    · rw [if_neg hr]
      have hpop := abs_pop hr
      generalize hc : inp.get inp.r = c at hpop
      have habs : inp.abs = ⟨c :: ({ inp with r := inp.r + 1 } : Input).committed, inp.edit⟩ := by
        rw [Input.abs, hpop]
      dsimp only
      rw [habs, Queue.deliver]
      by_cases hD : c = C 'D'
      · rw [if_pos hD, if_pos hD]
        by_cases hd : dst = []
        · have hlt : ¬ n + 1 < target := by
            rw [← h, hd, List.length_nil]
            omega
          rw [if_neg hlt, if_pos hd]
          rfl
        · have hlt : n + 1 < target := by
            have := List.length_pos_iff.2 hd
            omega
          rw [if_pos hlt, if_neg hd, BitVec.add_sub_cancel, ← habs]
      · rw [if_neg hD, if_neg hD]
        by_cases hn : c = newline
        · rw [if_pos hn, if_pos hn]
          rfl
        · rw [if_neg hn, if_neg hn]
          refine ih ?_
          rw [List.length_append, List.length_singleton]
          omega

theorem deliver_spec (h : q.Ok) (ht : dst.length + n = target) :
    (q.deliver n dst).1.Ok ∧
      ∀ n' dst', (q.deliver n dst).2 = .wait n' dst' → dst'.length + n' = target := by
  induction n generalizing q dst with
  | zero => exact ⟨h, nofun⟩
  | succ n ih =>
    match q, h with
    | ⟨[], edit⟩, h =>
      refine ⟨h, fun n' dst' he => ?_⟩
      cases he
      exact ht
    | ⟨c :: l, edit⟩, h =>
      have hl : (⟨l, edit⟩ : Queue).Ok := by
        refine ⟨?_, h.line⟩
        have := h.size
        simp only [List.length_cons] at this
        dsimp only
        omega
      unfold Queue.deliver
      split
      · refine ⟨?_, nofun⟩
        dsimp only
        split
        · exact hl
        · exact h
      · split
        · exact ⟨hl, nofun⟩
        · refine ih hl ?_
          rw [List.length_append, List.length_singleton]
          omega

theorem abs_input₀ : input₀.abs = ⟨[], []⟩ := by
  have h1 : input₀.committed = [] := List.length_eq_zero_iff.1 (Input.length_committed.trans rfl)
  have h2 : input₀.edit = [] := Input.edit_eq_nil rfl
  rw [Input.abs, h1, h2]

/-! ## Runs -/

section Runs

variable {π : Type} [DecidableEq π] {s : St π Input} {t : St π Queue} {p : π}

structure Sim (s : St π Input) (t : St π Queue) : Prop where
  dev : s.dev.abs = t.dev
  ok : t.dev.Ok
  waits : s.waits = t.waits
  answers : s.answers = t.answers
  dumps : s.dumps = t.dumps
  wants : ∀ p x, t.waits p = some x → x.dst.length + x.n = x.target

theorem Sim.readOn (h : Sim s t) {x : Reader} (hx : x.dst.length + x.n = x.target) (killed : Bool) :
    Sim (readOn ring s p x killed) (readOn queue t p x killed) := by
  have hr : ((Input.consoleread x.target x.n s.dev x.dst).1.abs,
      (Input.consoleread x.target x.n s.dev x.dst).2) = s.dev.abs.deliver x.n x.dst :=
        abs_consoleread hx
  have hd := deliver_spec h.ok hx
  rw [h.dev] at hr
  rcases hc : Input.consoleread x.target x.n s.dev x.dst with ⟨inp', out⟩
  rw [hc] at hr
  have h1 : ring.read x.target x.n s.dev x.dst = (inp', out) := hc
  have h2 : queue.read x.target x.n t.dev x.dst = (inp'.abs, out) := hr.symm
  rw [← hr] at hd
  -- the process leaves or goes to sleep; the others wait as before
  have hleave : ∀ {a : Answer π}, Sim
      { s with dev := inp', waits := Function.update s.waits p none, answers := a :: s.answers }
      { t with dev := inp'.abs, waits := Function.update t.waits p none,
               answers := a :: t.answers } := by
    intro a
    refine ⟨rfl, hd.1, congrArg (Function.update · p none) h.waits, congrArg (a :: ·) h.answers,
      h.dumps, fun p' x' hx' => ?_⟩
    change Function.update t.waits p none p' = some x' at hx'
    by_cases hp : p' = p
    · subst hp
      rw [Function.update_self] at hx'
      cases hx'
    · rw [Function.update_of_ne hp] at hx'
      exact h.wants p' x' hx'
  unfold Console.readOn
  rw [h1, h2]
  cases out with
  | done n dst => exact hleave
  | wait n dst =>
    dsimp only
    cases killed with
    | true => exact hleave
    | false =>
      refine ⟨rfl, hd.1, congrArg (Function.update · p _) h.waits, h.answers, h.dumps,
        fun p' x' hx' => ?_⟩
      change Function.update t.waits p _ p' = some x' at hx'
      by_cases hp : p' = p
      · subst hp
        rw [Function.update_self] at hx'
        cases hx'
        exact hd.2 n dst rfl
      · rw [Function.update_of_ne hp] at hx'
        exact h.wants p' x' hx'

theorem Sim.step (h : Sim s t) (ev : Event π) : Sim (step ring s ev) (step queue t ev) := by
  cases ev with
  | intr cs =>
    have hok : s.dev.abs.Ok := h.dev ▸ h.ok
    obtain ⟨h1, h2⟩ := abs_consoleintr hok cs
    rw [h.dev] at h1 h2
    refine ⟨h1, h2, h.waits, h.answers, ?_, h.wants⟩
    change (if _ then s.dumps + 1 else s.dumps) = _
    rw [h.dumps]
    rfl
  | read p n killed =>
    unfold Console.step
    dsimp only
    rw [congrFun h.waits p]
    cases t.waits p with
    | some x => exact h
    | none =>
      dsimp only
      split
      · exact ⟨h.dev, h.ok, h.waits, congrArg (_ :: ·) h.answers, h.dumps, h.wants⟩
      · exact h.readOn (Nat.zero_add _) killed
  | awake p killed =>
    unfold Console.step
    dsimp only
    rw [congrFun h.waits p]
    cases hx : t.waits p with
    | some x => exact h.readOn (h.wants p x hx) killed
    | none => exact h

omit [DecidableEq π] in
theorem sim_start : Sim (start input₀ : St π Input) (start ⟨[], []⟩) :=
  ⟨abs_input₀, ⟨Nat.zero_le _, List.not_mem_nil⟩, rfl, rfl, rfl, nofun⟩

/-- In every run, of any length, of batches of characters and calls of `consoleread` by any
processes, `input.w - input.r`, `input.e - input.r` and `INPUT_BUF` are in this order, and the ring
has done what the queue does: the two parts are the same, and so are the answers to the calls and
the calls that wait. -/
theorem console_refines (evs : List (Event π)) :
    let s := exec ring input₀ evs
    let t := exec queue ⟨[], []⟩ evs
    s.dev.w - s.dev.r ≤ s.dev.e - s.dev.r ∧ (s.dev.e - s.dev.r).toNat ≤ INPUT_BUF ∧
    s.dev.committed = t.dev.committed ∧ s.dev.edit = t.dev.edit ∧ s.answers = t.answers ∧
    s.waits = t.waits ∧ s.dumps = t.dumps := by
  have hrun : ∀ (s : St π Input) (t : St π Queue), Sim s t →
      Sim (evs.foldl (step ring) s) (evs.foldl (step queue) t) := by
    induction evs with
    | nil => exact fun _ _ h => h
    | cons ev evs ih => exact fun s t h => ih _ _ (h.step ev)
  intro s t
  have h : Sim s t := hrun _ _ sim_start
  have hok : s.dev.abs.Ok := by
    rw [h.dev]
    exact h.ok
  have htot := hok.total
  refine ⟨?_, ?_, congrArg Queue.committed h.dev, congrArg Queue.edit h.dev, h.answers,
    h.waits, h.dumps⟩
  · rw [BitVec.le_def, htot, ← Input.length_committed]
    exact Nat.le_add_right _ _
  · rw [htot]
    exact hok.size

/-- A line with a correction, read in two calls: the second one gets the rest. -/
example : (exec queue ⟨[], []⟩ [.read () 2 false, .intr [0x61, 0x62, C 'H', 0x63, carriageReturn],
    .awake () false, .read () 9 false]).answers =
    [⟨(), [newline], 1⟩, ⟨(), [0x61, 0x63], 2⟩] := by decide

end Runs

end Xv6.Console
