import Mathlib.Tactic.FieldSimp
import Mathlib.Tactic.Linarith

/-!
# Elapsed times

`printint` and `cprintf` (`console.c`), and the times that `procdump` and `cps` (`proc.c`) print as
`%d.%d`. The part behind the point is printed without leading zeros, so a remainder below 100 is
read as a larger part of a second than it is.
-/

namespace Xv6.Console

def digits : List Char := "0123456789abcdef".toList

/-- `do buf[i++] = digits[x % base]; while((x /= base) != 0);` -/
def digitLoop (base : Nat) : Nat → Nat → List Char
  | 0, _ => []
  | fuel + 1, x =>
    digits.getD (x % base) '0' :: if x / base ≠ 0 then digitLoop base fuel (x / base) else []

/-- `printint`: the characters in the order in which they are printed. A word has at most 32
digits. -/
def printint (xx : BitVec 32) (base : Nat) (sign : Bool) : List Char :=
  let sign := sign && xx.toInt < 0
  let x := if sign then (-xx).toNat else xx.toNat
  (digitLoop base 32 x ++ if sign then ['-'] else []).reverse

/-- An argument of `cprintf`; a string may be a null pointer. -/
inductive Arg where
  | word (w : BitVec 32)
  | str (s : Option (List Char))

/-- `cprintf`, none if the arguments are not what the format asks for. -/
def cprintf : List Char → List Arg → Option (List Char)
  | [], _ => some []
  | ['%'], _ => some []
  | '%' :: c :: fmt, args =>
    match c, args with
    | 'd', .word w :: args => (cprintf fmt args).map (printint w 10 true ++ ·)
    | 'x', .word w :: args | 'p', .word w :: args =>
      (cprintf fmt args).map (printint w 16 false ++ ·)
    | 's', .str s :: args => (cprintf fmt args).map (s.getD "(null)".toList ++ ·)
    | 'd', _ | 'x', _ | 'p', _ | 's', _ => none
    | '%', args => (cprintf fmt args).map ('%' :: ·)
    | c, args => (cprintf fmt args).map ('%' :: c :: ·)
  | c :: fmt, args => (cprintf fmt args).map (c :: ·)

/-- `%d.%d` of the seconds and the milliseconds, as they are computed in `procdump` and `cps`. -/
def elapsedText (ticks start_ticks : BitVec 32) : List Char :=
  let elapsed := ticks - start_ticks
  printint (elapsed / 1000) 10 true ++ '.' :: printint (elapsed % 1000) 10 true

/-- The line of `procdump` for a process; `ppid` is the pid of the parent, or of the process
itself. -/
def procdumpLine (pid uid gid ppid sz ticks start_ticks : BitVec 32) (state name : List Char) :
    Option (List Char) :=
  let elapsed := ticks - start_ticks
  let front := elapsed / 1000
  let back := elapsed % 1000
  cprintf "%d\t%s\t%s\t%d\t%d\t%d\t%d.%d seconds\t%d bytes\t".toList
    [.word pid, .str state, .str name, .word uid, .word gid, .word ppid, .word front, .word back,
      .word sz]

/-- The end of the line of `cps`. -/
def cpsEnd (sz priority ticks start_ticks : BitVec 32) : Option (List Char) :=
  let timechange := ticks - start_ticks
  let started := timechange / 1000
  let finished := timechange % 1000
  cprintf "\t %d.%d \t\t %d \t %d \n".toList
    [.word started, .word finished, .word sz, .word priority]

/-! ## Reading a number -/

def value (l : List Char) : Nat := l.foldl (fun v c => 10 * v + (c.toNat - 48)) 0

def decimal (l : List Char) : ℚ :=
  let behind := (l.dropWhile (· ≠ '.')).tail
  value (l.takeWhile (· ≠ '.')) + value behind / 10 ^ behind.length

theorem value_concat (l : List Char) (c : Char) :
    value (l ++ [c]) = 10 * value l + (c.toNat - 48) := by
  rw [value, List.foldl_append]
  rfl

theorem digits_spec : ∀ d < 10, (digits.getD d '0').toNat - 48 = d ∧ digits.getD d '0' ≠ '.' ∧
    '0' ≤ digits.getD d '0' ∧ digits.getD d '0' ≤ '9' := by
  decide

theorem value_digitLoop {fuel x : Nat} (hx : x < 10 ^ fuel) :
    value (digitLoop 10 fuel x).reverse = x := by
  induction fuel generalizing x with
  | zero =>
    obtain rfl : x = 0 := by simpa using hx
    rfl
  | succ fuel ih =>
    rw [Nat.pow_succ] at hx
    rw [digitLoop, List.reverse_cons, value_concat, (digits_spec _ (Nat.mod_lt x (by decide))).1]
    split
    · rw [ih (by omega)]
      omega
    · rw [List.reverse_nil, show value [] = 0 from rfl]
      omega

theorem mem_digitLoop {fuel x : Nat} {c : Char} (hc : c ∈ digitLoop 10 fuel x) :
    ∃ d < 10, digits.getD d '0' = c := by
  induction fuel generalizing x with
  | zero => cases hc
  | succ fuel ih =>
    rw [digitLoop, List.mem_cons] at hc
    rcases hc with rfl | hc
    · exact ⟨x % 10, Nat.mod_lt x (by decide), rfl⟩
    · split at hc
      · exact ih hc
      · cases hc

theorem ne_point_of_mem {fuel x : Nat} {c : Char} (hc : c ∈ digitLoop 10 fuel x) : c ≠ '.' := by
  obtain ⟨d, hd, rfl⟩ := mem_digitLoop hc
  exact (digits_spec d hd).2.1

theorem printint_of_lt {w : BitVec 32} (hw : w.toNat < 2 ^ 31) :
    printint w 10 true = (digitLoop 10 32 w.toNat).reverse := by
  have hpos : ¬ w.toInt < 0 := by
    rw [BitVec.toInt_eq_toNat_of_lt (by omega)]
    omega
  simp [printint, hpos]

def width (r : Nat) : Nat := if r < 10 then 1 else if r < 100 then 2 else 3

theorem length_digitLoop {r : Nat} (hr : r < 1000) : (digitLoop 10 32 r).length = width r := by
  have hend : r / 10 / 10 / 10 = 0 := by omega
  show (digitLoop 10 (29 + 1 + 1 + 1) r).length = width r
  simp only [digitLoop, hend, ne_eq, not_true, if_false]
  unfold width
  by_cases h1 : r < 10
  · rw [if_neg (by omega), if_pos h1]
    rfl
  · by_cases h2 : r < 100
    · rw [if_pos (by omega), if_neg (by omega), if_neg h1, if_pos h2]
      rfl
    · rw [if_pos (by omega), if_pos (by omega), if_neg h1, if_neg h2]
      rfl

theorem decimal_point {x y : Nat} (hx : x < 10 ^ 32) (hy : y < 1000) :
    decimal ((digitLoop 10 32 x).reverse ++ '.' :: (digitLoop 10 32 y).reverse) =
      x + y / 10 ^ width y := by
  have hfront : ∀ c ∈ (digitLoop 10 32 x).reverse, decide (c ≠ '.') = true := fun c hc =>
    decide_eq_true (ne_point_of_mem (List.mem_reverse.1 hc))
  dsimp only [decimal]
  rw [List.takeWhile_append_of_pos hfront, List.dropWhile_append_of_pos hfront,
    List.takeWhile_cons_of_neg (by decide), List.dropWhile_cons_of_neg (by decide), List.append_nil,
    List.tail_cons, value_digitLoop hx, value_digitLoop (by omega), List.length_reverse,
    length_digitLoop hy]

theorem elapsedText_eq (ticks start_ticks : BitVec 32) : elapsedText ticks start_ticks =
    (digitLoop 10 32 ((ticks - start_ticks).toNat / 1000)).reverse ++
      '.' :: (digitLoop 10 32 ((ticks - start_ticks).toNat % 1000)).reverse := by
  have hlt := (ticks - start_ticks).isLt
  have hfront : ((ticks - start_ticks) / 1000).toNat = (ticks - start_ticks).toNat / 1000 :=
    BitVec.toNat_udiv
  have hback : ((ticks - start_ticks) % 1000).toNat = (ticks - start_ticks).toNat % 1000 :=
    BitVec.toNat_umod
  simp only [elapsedText]
  rw [printint_of_lt (by omega), printint_of_lt (by omega), hfront, hback]

theorem fraction_eq {r : Nat} : (r : ℚ) / 10 ^ width r = r / 1000 ↔ r = 0 ∨ 100 ≤ r := by
  have hpow : ∀ k : ℚ, 0 < k → k < 1000 → ((r : ℚ) / k = r / 1000 ↔ r = 0) := by
    intro k hk hlt
    constructor
    · intro h
      rw [div_eq_div_iff hk.ne' (by norm_num)] at h
      by_contra hr
      have hr' : (r : ℚ) ≠ 0 := Nat.cast_ne_zero.2 hr
      have := mul_left_cancel₀ hr' h
      linarith
    · rintro rfl
      simp
  unfold width
  split
  · next h1 =>
    rw [hpow _ (by norm_num) (by norm_num)]
    omega
  · split
    · next h2 =>
      rw [hpow _ (by norm_num) (by norm_num)]
      omega
    · norm_num
      omega

/-- What `procdump` and `cps` show for a process: the text `elapsedText` stands for the elapsed
thousands and, behind the point, for as many digits as the remainder has. It is the elapsed time if
and only if the remainder is 0 or has three digits. -/
theorem elapsed_shown (ticks start_ticks : BitVec 32) :
    (∀ pid uid gid ppid sz state name, ∃ before after,
      procdumpLine pid uid gid ppid sz ticks start_ticks state name =
        some (before ++ '\t' :: elapsedText ticks start_ticks ++ " seconds".toList ++ after)) ∧
    (∀ sz priority, ∃ after, cpsEnd sz priority ticks start_ticks =
      some ("\t ".toList ++ elapsedText ticks start_ticks ++ ' ' :: after)) ∧
    decimal (elapsedText ticks start_ticks) = ((ticks - start_ticks).toNat / 1000 : ℕ) +
      ((ticks - start_ticks).toNat % 1000 : ℕ) / 10 ^ width ((ticks - start_ticks).toNat % 1000) ∧
    (decimal (elapsedText ticks start_ticks) = (ticks - start_ticks).toNat / 1000 ↔
      (ticks - start_ticks).toNat % 1000 = 0 ∨ 100 ≤ (ticks - start_ticks).toNat % 1000) := by
  have hlt := (ticks - start_ticks).isLt
  have hdec := elapsedText_eq ticks start_ticks ▸
    decimal_point (x := (ticks - start_ticks).toNat / 1000) (by omega)
      (Nat.mod_lt (ticks - start_ticks).toNat (by decide : 1000 > 0))
  refine ⟨fun pid uid gid ppid sz state name => ?_, fun sz priority => ?_, hdec, ?_⟩
  · exact ⟨printint pid 10 true ++ '\t' :: state ++ '\t' :: name ++ '\t' :: printint uid 10 true ++
      '\t' :: printint gid 10 true ++ '\t' :: printint ppid 10 true,
      '\t' :: printint sz 10 true ++ " bytes\t".toList,
      by simp [procdumpLine, cprintf, elapsedText]⟩
  · exact ⟨"\t\t ".toList ++ printint sz 10 true ++ " \t ".toList ++ printint priority 10 true ++
      " \n".toList, by simp [cpsEnd, cprintf, elapsedText]⟩
  · have hsplit : ((ticks - start_ticks).toNat : ℚ) / 1000 =
        ((ticks - start_ticks).toNat / 1000 : ℕ) + ((ticks - start_ticks).toNat % 1000 : ℕ)
          / 1000 := by
      have := Nat.div_add_mod (ticks - start_ticks).toNat 1000
      have hq : ((ticks - start_ticks).toNat : ℚ) =
        1000 * ((ticks - start_ticks).toNat / 1000 : ℕ) +
          ((ticks - start_ticks).toNat % 1000 : ℕ) := by exact_mod_cast this.symm
      rw [hq]
      field_simp
    rw [hdec, hsplit, add_right_inj, fraction_eq]

/-- After 1005 ticks a process is shown with 1.5 seconds, and with 1.100 after 1100. -/
theorem elapsed_misread : elapsedText 1005 0 = "1.5".toList ∧ elapsedText 1100 0 = "1.100".toList ∧
    decimal "1.5".toList ≠ 1005 / 1000 ∧ decimal "1.100".toList < decimal "1.5".toList := by
  decide +kernel

/-! ## Reading a number back -/

/-- The loop of `atoi` (`ulib.c`). -/
def atoiLoop (n : BitVec 32) : List Char → BitVec 32
  | [] => n
  | c :: s =>
    if '0' ≤ c ∧ c ≤ '9' then atoiLoop (n * 10 + BitVec.ofNat 32 c.toNat - 48) s else n

def atoi (s : List Char) : BitVec 32 := atoiLoop 0 s

theorem atoiLoop_digits {l rest : List Char} {v : Nat} (hl : ∀ c ∈ l, '0' ≤ c ∧ c ≤ '9')
    (hrest : ∀ c ∈ rest.head?, ¬ ('0' ≤ c ∧ c ≤ '9')) :
    atoiLoop (BitVec.ofNat 32 v) (l ++ rest) =
      BitVec.ofNat 32 (l.foldl (fun v c => 10 * v + (c.toNat - 48)) v) := by
  induction l generalizing v with
  | nil =>
    cases rest with
    | nil => rfl
    | cons c rest => exact if_neg (hrest c rfl)
  | cons c l ih =>
    have hc := hl c List.mem_cons_self
    have hle : 48 ≤ c.toNat := hc.1
    rw [List.cons_append, atoiLoop, if_pos hc, List.foldl_cons,
      ← ih fun c hc => hl c (List.mem_cons_of_mem _ hc)]
    congr 1
    apply BitVec.eq_of_toNat_eq
    simp only [BitVec.toNat_sub, BitVec.toNat_add, BitVec.toNat_mul, BitVec.toNat_ofNat,
      BitVec.ofNat_eq_ofNat]
    omega

/-- A number that `cprintf` has printed with `%d` is read back by `atoi`, whatever follows it but a
digit. -/
theorem atoi_printint {w : BitVec 32} (hw : w.toNat < 2 ^ 31) {rest : List Char}
    (hrest : ∀ c ∈ rest.head?, ¬ ('0' ≤ c ∧ c ≤ '9')) : atoi (printint w 10 true ++ rest) = w := by
  have hdigit : ∀ c ∈ (digitLoop 10 32 w.toNat).reverse, '0' ≤ c ∧ c ≤ '9' := fun c hc => by
    obtain ⟨d, hd, rfl⟩ := mem_digitLoop (List.mem_reverse.1 hc)
    exact (digits_spec d hd).2.2
  rw [printint_of_lt hw, atoi]
  refine (atoiLoop_digits (v := 0) hdigit hrest).trans ?_
  rw [← value, value_digitLoop (by omega), BitVec.ofNat_toNat, BitVec.setWidth_eq]

theorem atoi_printint_pid : atoi (printint 3 10 true ++ ['\t']) = 3 :=
  atoi_printint (by decide) (by simp)

end Xv6.Console
