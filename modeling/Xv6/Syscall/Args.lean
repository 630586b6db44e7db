import Mathlib.Data.BitVec
import Mathlib.Tactic.Ring

/-!
# The arguments of system calls

The kernel reads the arguments of a system call from the stack of the process, and the strings and
blocks they point to. All addresses come from the process. Here the functions that fetch them are
computed on 32-bit words, with the list of the user addresses they read. The loop of `sys_exec` does
not check the sum `uargv + 4 * i` for itself: the word at `uargv` has been read before.
-/

namespace Xv6.Syscall

/-- `uint`, `int` and user addresses. -/
abbrev Word := BitVec 32

def KERNBASE : Nat := 0x80000000
def MAXARG : Nat := 32

/-- What the functions see of the current process: its size, its stack pointer and its memory. -/
structure UProc where
  sz : Word
  esp : Word
  mem : Word → UInt8

/-- A function that returns a value or -1, and the user addresses it reads. -/
def Fetch (α : Type) := UProc → Option α × List Word

namespace Fetch

variable {α β : Type}

def ret (a : α) : Fetch α := fun _ => (some a, [])

def bind (x : Fetch α) (f : α → Fetch β) : Fetch β := fun p =>
  match x p with
  | (none, l) => (none, l)
  | (some a, l) => ((f a p).1, l ++ (f a p).2)

instance : Monad Fetch where
  pure := ret
  bind := bind

/-- `return -1`. -/
def fail : Fetch α := fun _ => (none, [])

def myproc : Fetch UProc := fun p => (some p, [])

/-- Read the byte at `a`. -/
def read (a : Word) : Fetch UInt8 := fun p => (some (p.mem a), [a])

end Fetch

open Fetch

/-! ## The functions -/

def ofBytes (b0 b1 b2 b3 : UInt8) : Word := b3.toBitVec ++ b2.toBitVec ++ b1.toBitVec ++ b0.toBitVec

/-- `*(int*)addr`. -/
def readInt (addr : Word) : Fetch Word := do
  let b0 ← read addr
  let b1 ← read (addr + 1)
  let b2 ← read (addr + 2)
  let b3 ← read (addr + 3)
  return ofBytes b0 b1 b2 b3

def fetchint (addr : Word) : Fetch Word := do
  let curproc ← myproc
  if curproc.sz ≤ addr ∨ curproc.sz < addr + 4 then fail
  else readInt addr

/-- The loop of `fetchstr` from `s` on, for at most `n` rounds: the index of the first NUL. -/
def scan (pp : Word) : Nat → Word → Fetch Word
  | 0, _ => fail
  | n + 1, s => do
    let curproc ← myproc
    if s < curproc.sz then
      let b ← read s
      if b = 0 then return s - pp else scan pp n (s + 1)
    else fail

/-- Fetch the nul-terminated string at addr from the current process. Returns the pointer and the
length of the string, not including nul. The loop makes at most `sz` rounds. -/
def fetchstr (addr : Word) : Fetch (Word × Word) := do
  let curproc ← myproc
  if curproc.sz ≤ addr then fail
  else
    let len ← scan addr curproc.sz.toNat addr
    return (addr, len)

def argint (n : Word) : Fetch Word := do
  let curproc ← myproc
  fetchint (curproc.esp + 4 + 4 * n)

/-- Fetch the nth word-sized system call argument as a pointer to a block of memory of size
bytes. -/
def argptr (n size : Word) : Fetch Word := do
  let curproc ← myproc
  let i ← argint n
  if size.toInt < 0 ∨ curproc.sz ≤ i ∨ curproc.sz < i + size then fail
  else return i

/-- Fetch the nth word-sized system call argument as a string pointer. -/
def argstr (n : Word) : Fetch (Word × Word) := do
  let addr ← argint n
  fetchstr addr

/-- The loop of `sys_exec` from `i` on, with `n = MAXARG - i` rounds left. -/
def execArgs (uargv : Word) : Nat → Word → Fetch (List (Word × Word))
  | 0, _ => fail
  | n + 1, i => do
    let uarg ← fetchint (uargv + 4 * i)
    if uarg = 0 then return []
    else
      let arg ← fetchstr uarg
      let args ← execArgs uargv n (i + 1)
      return arg :: args

/-- `sys_exec` up to the call of `exec`: the path, `uargv` and the arguments. -/
def sysExec : Fetch ((Word × Word) × Word × List (Word × Word)) := do
  let path ← argstr 0
  let uargv ← argint 1
  let args ← execArgs uargv MAXARG 0
  return (path, uargv, args)

/-! ## Steps -/

section Steps

variable {α β : Type} {p : UProc} {x : Fetch α} {f : α → Fetch β} {a : α} {b : β}

def Safe (p : UProc) (x : Fetch α) : Prop := ∀ a ∈ (x p).2, a.toNat < p.sz.toNat

theorem bind_eq_some : ((x >>= f) p).1 = some b ↔ ∃ a, (x p).1 = some a ∧ (f a p).1 = some b := by
  change (Fetch.bind x f p).1 = some b ↔ _
  unfold Fetch.bind
  rcases x p with ⟨_ | a, l⟩
  · simp
  · simp

theorem pure_eq_some : ((pure a : Fetch α) p).1 = some a' ↔ a = a' := Option.some_inj

@[simp] theorem fail_eq_some : ((fail : Fetch α) p).1 = some a ↔ False := by
  simp [fail]

@[simp] theorem myproc_bind {f : UProc → Fetch α} : (myproc >>= f) p = f p p := rfl

theorem read_eq_some {s : Word} {c : UInt8} : (read s p).1 = some c ↔ c = p.mem s := by
  simp only [Fetch.read, Option.some.injEq]
  exact eq_comm

theorem safe_pure : Safe p (pure a) := nofun

theorem safe_fail : Safe p (fail : Fetch α) := nofun

theorem safe_read {s : Word} (h : s.toNat < p.sz.toNat) : Safe p (read s) := by
  intro a ha
  rw [List.mem_singleton.1 ha]
  exact h

theorem Safe.bind (hx : Safe p x) (hf : ∀ a, (x p).1 = some a → Safe p (f a)) :
    Safe p (x >>= f) := by
  intro s hs
  have hs' : s ∈ (Fetch.bind x f p).2 := hs
  unfold Fetch.bind at hs'
  cases hr : x p with
  | mk r l =>
    rw [hr] at hs'
    have hl : ∀ s ∈ l, s.toNat < p.sz.toNat := fun s hs => hx s (by rw [hr]; exact hs)
    cases r with
    | none => exact hl s hs'
    | some a =>
      rcases List.mem_append.1 hs' with h | h
      · exact hl s h
      · exact hf a (by rw [hr]) s h

end Steps

/-! ## Ints -/

variable {p : UProc} {addr n size v : Word}

theorem toNat_add_lt {a : Word} {k : Nat} (h : a.toNat + k < 2 ^ 32) :
    (a + BitVec.ofNat 32 k).toNat = a.toNat + k := by
  rw [BitVec.toNat_add, BitVec.toNat_ofNat, Nat.add_mod_mod]
  exact Nat.mod_eq_of_lt h

/-- The int at `addr`. -/
def intAt (p : UProc) (addr : Word) : Word :=
  ofBytes (p.mem addr) (p.mem (addr + 1)) (p.mem (addr + 2)) (p.mem (addr + 3))

/-- The four bytes at `addr` are in the process, and have the value `v`. -/
def IsInt (p : UProc) (addr v : Word) : Prop := addr.toNat + 4 ≤ p.sz.toNat ∧ v = intAt p addr

theorem readInt_eq : ((readInt addr) p).1 = some (intAt p addr) := rfl

theorem safe_readInt (h : addr.toNat + 4 ≤ p.sz.toNat) : Safe p (readInt addr) := by
  have hsz := p.sz.isLt
  have hk : ∀ k < 4, (addr + BitVec.ofNat 32 k).toNat < p.sz.toNat := fun k hk => by
    rw [toNat_add_lt (by omega)]
    omega
  have h0 : addr.toNat < p.sz.toNat := by omega
  exact (safe_read h0).bind fun _ _ => (safe_read (hk 1 (by omega))).bind fun _ _ =>
    (safe_read (hk 2 (by omega))).bind fun _ _ => (safe_read (hk 3 (by omega))).bind fun _ _ =>
    safe_pure

section

variable (hsz : p.sz.toNat < KERNBASE)

include hsz

theorem fits_iff : (p.sz ≤ addr ∨ p.sz < addr + 4) ↔ ¬ addr.toNat + 4 ≤ p.sz.toNat := by
  unfold KERNBASE at hsz
  have h4 : addr.toNat < p.sz.toNat → (addr + 4).toNat = addr.toNat + 4 := fun h =>
    toNat_add_lt (k := 4) (by omega)
  rw [BitVec.le_def, BitVec.lt_def]
  constructor
  · rintro (h | h)
    · omega
    · by_cases ha : addr.toNat < p.sz.toNat
      · rw [h4 ha] at h
        omega
      · omega
  · intro h
    by_cases ha : addr.toNat < p.sz.toNat
    · refine .inr ?_
      rw [h4 ha]
      omega
    · exact .inl (by omega)

theorem fetchint_eq_some : ((fetchint addr) p).1 = some v ↔ IsInt p addr v := by
  unfold fetchint IsInt
  rw [myproc_bind]
  split
  · next h =>
    rw [fits_iff hsz] at h
    simp [h]
  · next h =>
    rw [fits_iff hsz, not_not] at h
    rw [readInt_eq, Option.some_inj]
    simp [h, eq_comm]

theorem safe_fetchint : Safe p (fetchint addr) := by
  unfold Safe fetchint
  rw [myproc_bind]
  split
  · exact safe_fail
  · next h =>
    rw [fits_iff hsz, not_not] at h
    exact safe_readInt h

theorem argint_eq_some :
    ((argint n) p).1 = some v ↔ IsInt p (p.esp + 4 + 4 * n) v := fetchint_eq_some hsz

theorem safe_argint : Safe p (argint n) := safe_fetchint hsz

/-! ## Blocks -/

theorem argptr_range {q : Word} (h : ((argptr n size) p).1 = some q) :
    IsInt p (p.esp + 4 + 4 * n) q ∧ 0 ≤ size.toInt ∧ q.toNat < p.sz.toNat ∧
      q.toNat + size.toNat ≤ p.sz.toNat := by
  unfold argptr at h
  rw [myproc_bind, bind_eq_some] at h
  obtain ⟨i, hi, h⟩ := h
  split at h
  · cases h
  · next hc =>
    obtain rfl := pure_eq_some.1 h
    rw [argint_eq_some hsz] at hi
    simp only [not_or, BitVec.le_def, BitVec.lt_def, not_lt, not_le] at hc
    obtain ⟨h0, hlt, hle⟩ := hc
    refine ⟨hi, h0, hlt, ?_⟩
    -- a size that is not negative is less than 2^31
    have hs : 2 * size.toNat < 2 ^ 32 := by
      rw [BitVec.toInt_eq_toNat_cond] at h0
      split at h0
      · assumption
      · have := size.isLt
        omega
    unfold KERNBASE at hsz
    have hsum : (i + size).toNat = i.toNat + size.toNat := by
      rw [BitVec.toNat_add]
      exact Nat.mod_eq_of_lt (by omega)
    omega

theorem safe_argptr : Safe p (argptr n size) := by
  unfold Safe argptr
  rw [myproc_bind]
  refine (safe_argint hsz).bind fun i _ => ?_
  split
  · exact safe_fail
  · exact safe_pure

end

/-! ## Strings -/

/-- There is a string of length `len` at `q`, with its NUL in the process. -/
def IsStr (p : UProc) (q len : Word) : Prop :=
  q.toNat + len.toNat < p.sz.toNat ∧ p.mem (q + len) = 0 ∧
    ∀ k < len.toNat, p.mem (q + BitVec.ofNat 32 k) ≠ 0

theorem ofNat_toNat_add (q : Word) (k : Nat) :
    q + BitVec.ofNat 32 (k + 1) = q + BitVec.ofNat 32 k + 1 := by
  rw [BitVec.ofNat_add, ← add_assoc]
  rfl

theorem scan_eq_some {q len : Word} {m k : Nat} (hm : p.sz.toNat ≤ q.toNat + k + m)
    (hk : q.toNat + k ≤ p.sz.toNat) (hne : ∀ j < k, p.mem (q + BitVec.ofNat 32 j) ≠ 0) :
    ((scan q m (q + BitVec.ofNat 32 k)) p).1 = some len ↔ IsStr p q len := by
  induction m generalizing k with
  | zero =>
    simp only [scan, fail_eq_some, false_iff]
    rintro ⟨hlt, hz, -⟩
    refine hne len.toNat (by omega) ?_
    rwa [BitVec.ofNat_toNat, BitVec.setWidth_eq]
  | succ m ih =>
    have hsz := p.sz.isLt
    rw [scan, myproc_bind]
    by_cases hlt : q.toNat + k < p.sz.toNat
    · have haddr : (q + BitVec.ofNat 32 k).toNat = q.toNat + k := toNat_add_lt (by omega)
      rw [if_pos (by rw [BitVec.lt_def, haddr]; exact hlt), bind_eq_some]
      simp only [read_eq_some, exists_eq_left]
      by_cases hz : p.mem (q + BitVec.ofNat 32 k) = 0
      · rw [if_pos hz, pure_eq_some]
        have hsub : q + BitVec.ofNat 32 k - q = BitVec.ofNat 32 k := by ring
        have hk32 : (BitVec.ofNat 32 k).toNat = k := by
          rw [BitVec.toNat_ofNat]
          exact Nat.mod_eq_of_lt (by omega)
        rw [hsub]
        constructor
        · rintro rfl
          refine ⟨by omega, hz, fun j hj => hne j (by omega)⟩
        · rintro ⟨_, hz', hne'⟩
          -- the first NUL is the only one up to there
          have hle : len.toNat ≤ k := by
            by_contra hlt'
            exact hne' k (by omega) hz
          have hge : k ≤ len.toNat := by
            by_contra hlt'
            refine hne len.toNat (by omega) ?_
            rwa [BitVec.ofNat_toNat, BitVec.setWidth_eq]
          apply BitVec.eq_of_toNat_eq
          omega
      · rw [if_neg hz, ← ofNat_toNat_add]
        refine ih (by omega) (by omega) fun j hj => ?_
        by_cases hjk : j = k
        · rw [hjk]
          exact hz
        · exact hne j (by omega)
    · have haddr : (q + BitVec.ofNat 32 k).toNat = q.toNat + k := toNat_add_lt (by omega)
      rw [if_neg (by rw [BitVec.lt_def, haddr]; exact hlt)]
      simp only [fail_eq_some, false_iff]
      rintro ⟨hlt', hz, -⟩
      refine hne len.toNat (by omega) ?_
      rwa [BitVec.ofNat_toNat, BitVec.setWidth_eq]

theorem safe_scan {q s : Word} {m : Nat} : Safe p (scan q m s) := by
  induction m generalizing s with
  | zero => exact safe_fail
  | succ m ih =>
    unfold Safe
    rw [scan, myproc_bind]
    split
    · next h =>
      refine (safe_read h).bind fun b _ => ?_
      split
      · exact safe_pure
      · exact ih
    · exact safe_fail

theorem fetchstr_eq_some {q len : Word} :
    ((fetchstr addr) p).1 = some (q, len) ↔ q = addr ∧ IsStr p addr len := by
  unfold fetchstr
  rw [myproc_bind]
  by_cases h : p.sz ≤ addr
  · rw [if_pos h]
    rw [BitVec.le_def] at h
    simp only [fail_eq_some, false_iff]
    rintro ⟨-, hlt, -⟩
    omega
  · rw [if_neg h, bind_eq_some]
    rw [BitVec.le_def, not_le] at h
    have hscan : ∀ r, ((scan addr p.sz.toNat addr) p).1 = some r ↔ IsStr p addr r := fun r => by
      have h0 : ((scan addr p.sz.toNat (addr + BitVec.ofNat 32 0)) p).1 = some r ↔ IsStr p addr r :=
        scan_eq_some (by omega) (by omega) fun j hj => absurd hj (Nat.not_lt_zero j)
      simpa using h0
    simp only [hscan, pure_eq_some, Prod.mk.injEq]
    constructor
    · rintro ⟨r, hr, rfl, rfl⟩
      exact ⟨rfl, hr⟩
    · rintro ⟨rfl, hr⟩
      exact ⟨len, hr, rfl, rfl⟩

theorem safe_fetchstr : Safe p (fetchstr addr) := by
  unfold Safe fetchstr
  rw [myproc_bind]
  split
  · exact safe_fail
  · exact safe_scan.bind fun _ _ => safe_pure

theorem argstr_eq_some (hsz : p.sz.toNat < KERNBASE) {q len : Word} :
    ((argstr n) p).1 = some (q, len) ↔ IsInt p (p.esp + 4 + 4 * n) q ∧ IsStr p q len := by
  unfold argstr
  rw [bind_eq_some]
  simp only [argint_eq_some hsz, fetchstr_eq_some]
  constructor
  · rintro ⟨a, ha, rfl, hs⟩
    exact ⟨ha, hs⟩
  · rintro ⟨ha, hs⟩
    exact ⟨q, ha, rfl, hs⟩

theorem safe_argstr (hsz : p.sz.toNat < KERNBASE) : Safe p (argstr n) :=
  (safe_argint hsz).bind fun _ _ => safe_fetchstr

/-! ## The loop of `sys_exec` -/

/-- The words from `uargv + 4 * i` on are in the process: pointers to the strings `args`, and 0. -/
def IsArgs (p : UProc) (uargv : Word) : Nat → List (Word × Word) → Prop
  | i, [] => uargv.toNat + 4 * i + 4 ≤ p.sz.toNat ∧ intAt p (uargv + BitVec.ofNat 32 (4 * i)) = 0
  | i, (q, len) :: args => uargv.toNat + 4 * i + 4 ≤ p.sz.toNat ∧
    intAt p (uargv + BitVec.ofNat 32 (4 * i)) = q ∧ q ≠ 0 ∧ IsStr p q len ∧
      IsArgs p uargv (i + 1) args

theorem four_mul (i : Nat) : (4 : Word) * BitVec.ofNat 32 i = BitVec.ofNat 32 (4 * i) := by
  rw [BitVec.ofNat_mul]
  rfl

theorem isInt_arg (hsz : p.sz.toNat < KERNBASE) {uargv v : Word} {i : Nat} (hi : i < MAXARG)
    (hprev : i ≠ 0 → uargv.toNat < p.sz.toNat)
    (h : IsInt p (uargv + 4 * BitVec.ofNat 32 i) v) :
    uargv.toNat + 4 * i + 4 ≤ p.sz.toNat ∧ intAt p (uargv + BitVec.ofNat 32 (4 * i)) = v := by
  unfold KERNBASE at hsz
  unfold MAXARG at hi
  rw [four_mul] at h
  refine ⟨?_, h.2.symm⟩
  have hle := h.1
  by_cases h0 : i = 0
  · subst h0
    simpa using hle
  · rw [toNat_add_lt (by have := hprev h0; omega)] at hle
    omega

theorem execArgs_eq_some (hsz : p.sz.toNat < KERNBASE) {uargv : Word} {args : List (Word × Word)}
    {m i : Nat} (hm : i + m = MAXARG) (hprev : i ≠ 0 → uargv.toNat < p.sz.toNat)
    (h : ((execArgs uargv m (BitVec.ofNat 32 i)) p).1 = some args) :
    IsArgs p uargv i args ∧ i + args.length < MAXARG := by
  induction m generalizing i args with
  | zero => cases h
  | succ m ih =>
    rw [execArgs, bind_eq_some] at h
    obtain ⟨uarg, hu, h⟩ := h
    rw [fetchint_eq_some hsz] at hu
    have hint := isInt_arg hsz (by omega) hprev hu
    split at h
    · next h0 =>
      subst h0
      obtain rfl := pure_eq_some.1 h
      exact ⟨hint, by rw [List.length_nil]; omega⟩
    · next h0 =>
      obtain ⟨⟨q, len⟩, harg, h⟩ := bind_eq_some.1 h
      obtain ⟨rest, hrest, h⟩ := bind_eq_some.1 h
      obtain rfl := pure_eq_some.1 h
      obtain ⟨rfl, hstr⟩ := fetchstr_eq_some.1 harg
      rw [show BitVec.ofNat 32 i + 1 = BitVec.ofNat 32
        (i + 1) from (BitVec.ofNat_add i 1).symm] at hrest
      obtain ⟨hargs, hlen⟩ := ih (by omega) (fun _ => by omega) hrest
      refine ⟨⟨hint.1, hint.2, h0, hstr, hargs⟩, ?_⟩
      rw [List.length_cons]
      omega

theorem safe_execArgs (hsz : p.sz.toNat < KERNBASE) {uargv i : Word} {m : Nat} :
    Safe p (execArgs uargv m i) := by
  induction m generalizing i with
  | zero => exact safe_fail
  | succ m ih =>
    refine (safe_fetchint hsz).bind fun uarg _ => ?_
    split
    · exact safe_pure
    · exact safe_fetchstr.bind fun _ _ => ih.bind fun _ _ => safe_pure

/-- Whatever a process passes to a system call, what the kernel fetches for it stays inside the
process, and what does not fit is refused. -/
theorem args_inside (p : UProc) (hsz : p.sz.toNat < KERNBASE) :
    (∀ addr, Safe p (fetchint addr) ∧
      ∀ v, ((fetchint addr) p).1 = some v ↔ IsInt p addr v) ∧
    (∀ n, Safe p (argint n) ∧
      ∀ v, ((argint n) p).1 = some v ↔ IsInt p (p.esp + 4 + 4 * n) v) ∧
    (∀ n size, Safe p (argptr n size) ∧
      ∀ q, ((argptr n size) p).1 = some q → IsInt p (p.esp + 4 + 4 * n) q ∧ 0 ≤ size.toInt ∧
        q.toNat < p.sz.toNat ∧ q.toNat + size.toNat ≤ p.sz.toNat) ∧
    (∀ addr, Safe p (fetchstr addr) ∧
      ∀ q len, ((fetchstr addr) p).1 = some (q, len) ↔ q = addr ∧ IsStr p addr len) ∧
    (∀ n, Safe p (argstr n) ∧
      ∀ q len, ((argstr n) p).1 = some (q, len) ↔
        IsInt p (p.esp + 4 + 4 * n) q ∧ IsStr p q len) ∧
    Safe p sysExec ∧
    ∀ path len uargv args, (sysExec p).1 = some ((path, len), uargv, args) →
      IsStr p path len ∧ IsArgs p uargv 0 args ∧ args.length < MAXARG := by
  refine ⟨fun addr => ⟨safe_fetchint hsz, fun v => fetchint_eq_some hsz⟩,
    fun n => ⟨safe_argint hsz, fun v => argint_eq_some hsz⟩,
    fun n size => ⟨safe_argptr hsz, fun q => argptr_range hsz⟩,
    fun addr => ⟨safe_fetchstr, fun q len => fetchstr_eq_some⟩,
    fun n => ⟨safe_argstr hsz, fun q len => argstr_eq_some hsz⟩, ?_, ?_⟩
  · exact (safe_argstr hsz).bind fun _ _ => (safe_argint hsz).bind fun _ _ =>
      (safe_execArgs hsz).bind fun _ _ => safe_pure
  · intro path len uargv args h
    obtain ⟨⟨q, k⟩, hpath, h⟩ := bind_eq_some.1 h
    obtain ⟨u, -, h⟩ := bind_eq_some.1 h
    obtain ⟨as, has, h⟩ := bind_eq_some.1 h
    cases pure_eq_some.1 h
    obtain ⟨hargs, hlen⟩ := execArgs_eq_some hsz (i := 0) (by omega) (fun h0 => absurd rfl h0) has
    exact ⟨((argstr_eq_some hsz).1 hpath).2, hargs, by omega⟩

/-- A process of 64 bytes with the stack pointer 16: the first argument is the int 32, where the
string `hi` is. -/
theorem args_inside_hi :
    let p : UProc := ⟨64, 16, fun a => if a = 20 then 32 else if a = 32 then 104 else
      if a = 33 then 105 else 0⟩
    p.sz.toNat < KERNBASE ∧ ((argstr 0) p).1 = some (32, 2) ∧ IsStr p 32 2 := by
  intro p
  have hsz : p.sz.toNat < KERNBASE := by decide
  have hr : ((argstr 0) p).1 = some (32, 2) := by decide +kernel
  exact ⟨hsz, hr, ((args_inside p hsz).2.2.2.2.1 0).2 32 2 |>.1 hr |>.2⟩

end Xv6.Syscall
