import Mathlib.Data.BitVec
import Xv6.Vm.Elf

/-!
# The multiprocessor table

`mpconfig` and `mpinit` (`mp.c`), from the floating pointer structure that `mpsearch` found. The
table is in memory that the firmware has filled. An entry of a type that `mpinit` does not know
leaves the `switch`, but neither the loop nor the entry: the loop then never ends. Without such an
entry it ends, and the panic after the loop is never reached.
-/

namespace Xv6.Boot

open Vm (Byte KERNBASE half word)

def NCPU : Nat := 8

/-- The fields of `struct mp` that are used. -/
structure Mp where
  physaddr : Nat
  imcrp : Byte

inductive Panic where
  /-- `Expect to run on an SMP` -/
  | expectSmp
  /-- `Didn't find a suitable machine` -/
  | unsuitable
deriving DecidableEq

/-- What `mpinit` sets: the processors by their APIC ids, and the mode of the interrupts. -/
structure Machine where
  lapic : Nat
  cpus : List Byte
  ioapicid : Byte
  ismp : Bool
  imcr : Bool
deriving DecidableEq

def Machine.ncpu (s : Machine) : Nat := s.cpus.length

inductive EntryType where
  | MPPROC | MPBUS | MPIOAPIC | MPIOINTR | MPLINTR
deriving DecidableEq

def entryType (b : Byte) : Option EntryType :=
  match b.toNat with
  | 0 => some .MPPROC
  | 1 => some .MPBUS
  | 2 => some .MPIOAPIC
  | 3 => some .MPIOINTR
  | 4 => some .MPLINTR
  | _ => none

def sum (c : Nat → Byte) (addr len : Nat) : Byte := ((List.range len).map fun i => c (addr + i)).sum

/-- `mpconfig`: the address of the table. Its header has 44 bytes. -/
def mpconfig (c : Nat → Byte) : Option Mp → Option Nat
  | none => none
  | some mp =>
    let conf := (mp.physaddr + KERNBASE) % 2 ^ 32
    if mp.physaddr = 0 then none
    else if (List.range 4).map (fun i => c (conf + i)) ≠ [80, 67, 77, 80] then none
    else if c (conf + 6) ≠ 1 ∧ c (conf + 6) ≠ 4 then none
    else if sum c conf (half c (conf + 4)) ≠ 0 then none
    else some conf

/-- The loop of `mpinit` from entry `p` to the end `e`, none while it is running. -/
def scan (c : Nat → Byte) (e : Nat) : Nat → Nat → Machine → Option Machine
  | 0, _, _ => none
  | fuel + 1, p, s =>
    if p < e then
      match entryType (c p) with
      | some .MPPROC => scan c e fuel (p + 20)
          { s with cpus := if s.ncpu < NCPU then s.cpus ++ [c (p + 1)] else s.cpus }
      | some .MPIOAPIC => scan c e fuel (p + 8) { s with ioapicid := c (p + 1) }
      | some .MPBUS | some .MPIOINTR | some .MPLINTR => scan c e fuel (p + 8) s
      | none => scan c e fuel p { s with ismp := false }
    else some s

/-- `mpinit`, none while it is running. -/
def mpinit (fuel : Nat) (c : Nat → Byte) (mp : Option Mp) : Option (Except Panic Machine) :=
  match mp, mpconfig c mp with
  | some mp, some conf =>
    (scan c (conf + half c (conf + 4)) fuel (conf + 44) ⟨word c (conf + 36), [], 0, true,
      false⟩).map
      fun s => if s.ismp then .ok { s with imcr := mp.imcrp ≠ 0 } else .error .unsuitable
  | _, _ => some (.error .expectSmp)

variable {c : Nat → Byte} {e p q fuel : Nat} {s s' : Machine} {mp : Mp} {conf : Nat}

def EntryType.size : EntryType → Nat
  | .MPPROC => 20
  | _ => 8

/-- The entries of the table from `p` on. -/
inductive Meets (c : Nat → Byte) (e : Nat) : Nat → Nat → Prop
  | here {p : Nat} : p < e → Meets c e p p
  | next {p q : Nat} {t : EntryType} : p < e → entryType (c p) = some t → Meets c e (p + t.size) q →
    Meets c e p q

def Unknown (c : Nat → Byte) (e p : Nat) : Prop := ∃ q, Meets c e p q ∧ entryType (c q) = none

theorem scan_known {t : EntryType} (fuel : Nat) (hp : p < e) (ht : entryType (c p) = some t)
    (hn : s.ncpu ≤ NCPU) :
    ∃ s₁, scan c e (fuel + 1) p s = scan c e fuel (p + t.size) s₁ ∧ s₁.ismp = s.ismp ∧
      s₁.ncpu ≤ NCPU := by
  cases t with
  | MPPROC =>
    refine ⟨{ s with cpus := if s.ncpu < NCPU then s.cpus ++ [c (p + 1)] else s.cpus },
      by rw [scan, if_pos hp, ht]; rfl, rfl, ?_⟩
    unfold Machine.ncpu at hn ⊢
    dsimp only
    split
    · rw [List.length_append, List.length_singleton]
      omega
    · exact hn
  | MPIOAPIC =>
    exact ⟨{ s with ioapicid := c (p + 1) }, by rw [scan, if_pos hp, ht]; rfl, rfl, hn⟩
  | MPBUS | MPIOINTR | MPLINTR => exact ⟨s, by rw [scan, if_pos hp, ht]; rfl, rfl, hn⟩

theorem scan_unknown (hp : p < e) (ht : entryType (c p) = none) : scan c e fuel p s = none := by
  induction fuel generalizing s with
  | zero => rfl
  | succ fuel ih => rw [scan, if_pos hp, ht, ih]

theorem scan_of_meets (h : Meets c e p q) (ht : entryType (c q) = none) (hn : s.ncpu ≤ NCPU) :
    scan c e fuel p s = none := by
  induction h generalizing fuel s with
  | here hp => exact scan_unknown hp ht
  | next hp hknown _ ih =>
    cases fuel with
    | zero => rfl
    | succ fuel =>
      obtain ⟨s1, he, -, hn1⟩ := scan_known _ hp hknown hn
      rw [he, ih ht hn1]

theorem scan_ends (h : ¬ Unknown c e p) (hn : s.ncpu ≤ NCPU) :
    (e - p < fuel → scan c e fuel p s ≠ none) ∧
    ∀ s', scan c e fuel p s = some s' → s'.ismp = s.ismp ∧ s'.ncpu ≤ NCPU := by
  -- every entry that the loop passes has at least 8 bytes
  induction fuel generalizing p s with
  | zero => exact ⟨fun hfuel => absurd hfuel (Nat.not_lt_zero _), nofun⟩
  | succ fuel ih =>
    by_cases hp : p < e
    · cases ht : entryType (c p) with
      | none => exact absurd ⟨p, .here hp, ht⟩ h
      | some t =>
        obtain ⟨s1, he, hismp, hn1⟩ := scan_known fuel hp ht hn
        have hsize : 8 ≤ t.size := by cases t <;> decide
        have hno : ¬ Unknown c e (p + t.size) := fun ⟨q, hq, hnone⟩ => h ⟨q, .next hp ht hq, hnone⟩
        rw [he, ← hismp]
        exact ⟨fun hfuel => (ih hno hn1).1 (by omega), (ih hno hn1).2⟩
    · rw [scan, if_neg hp]
      refine ⟨fun _ => nofun, ?_⟩
      rintro _ ⟨⟩
      exact ⟨rfl, hn⟩

/-- `mpinit` on a table that passes the tests of `mpconfig`. It ends if and only if no entry of
unknown type is met, and then as soon as the entries have been passed, with at most `NCPU`
processors and without a panic. -/
theorem mpinit_ends (h : mpconfig c (some mp) = some conf) :
    ((∃ fuel, mpinit fuel c (some mp) ≠ none) ↔
      ¬ Unknown c (conf + half c (conf + 4)) (conf + 44)) ∧
    (¬ Unknown c (conf + half c (conf + 4)) (conf + 44) →
      mpinit (half c (conf + 4) + 1) c (some mp) ≠ none) ∧
    ∀ fuel r, mpinit fuel c (some mp) = some r → ∃ s, r = .ok s ∧ s.ncpu ≤ NCPU := by
  have hzero : Machine.ncpu ⟨word c (conf + 36), [], 0, true, false⟩ ≤ NCPU := Nat.zero_le _
  have hrun : ∀ fuel, mpinit fuel c (some mp) = (scan c (conf + half c (conf + 4)) fuel (conf + 44)
      ⟨word c (conf + 36), [], 0, true, false⟩).map fun s =>
        if s.ismp then .ok { s with imcr := mp.imcrp ≠ 0 } else .error .unsuitable := by
    intro fuel
    simp only [mpinit, h]
  have hstuck : ∀ fuel, Unknown c (conf + half c (conf + 4)) (conf + 44) →
      mpinit fuel c (some mp) = none := by
    rintro fuel ⟨q, hq, ht⟩
    rw [hrun, scan_of_meets hq ht hzero, Option.map_none]
  have hends : ¬ Unknown c (conf + half c (conf + 4)) (conf + 44) →
      mpinit (half c (conf + 4) + 1) c (some mp) ≠ none := by
    intro hno hnone
    rw [hrun, Option.map_eq_none_iff] at hnone
    exact (scan_ends hno hzero).1 (by omega) hnone
  refine ⟨⟨fun ⟨fuel, hf⟩ hun => hf (hstuck fuel hun), fun hno => ⟨_, hends hno⟩⟩, hends, ?_⟩
  intro fuel r hr
  have hno : ¬ Unknown c (conf + half c (conf + 4)) (conf + 44) := fun hun => by
    rw [hstuck fuel hun] at hr
    cases hr
  rw [hrun] at hr
  obtain ⟨s, hs, rfl⟩ := Option.map_eq_some_iff.1 hr
  obtain ⟨hismp, hn⟩ := (scan_ends hno hzero).2 s hs
  exact ⟨_, if_pos hismp, hn⟩

/-- The memory with a table of `n` bytes at physical address 4096: a header, and entries with the
bytes of a list. The checksum is at byte 7. -/
def tableAt (checksum n : Byte) (entries : List Byte) (a : Nat) : Byte :=
  ([80, 67, 77, 80, n, 0, 4, checksum] ++ List.replicate 36 0 ++ entries).getD
    (a - (KERNBASE + 4096)) 0

/-- A processor and an I/O APIC. -/
theorem mpinit_ends_two : ∃ s, mpinit 73 (tableAt 120 72 (0 :: 1 :: List.replicate 18 0 ++
    2 :: 9 :: List.replicate 6 0)) (some ⟨4096, 0⟩) = some (.ok s) ∧ s.ncpu ≤ NCPU := by
  have h : mpconfig (tableAt 120 72 (0 :: 1 :: List.replicate 18 0 ++ 2 :: 9 :: List.replicate 6 0))
      (some ⟨4096, 0⟩) = some (KERNBASE + 4096) := by decide +kernel
  cases hr : mpinit 73 (tableAt 120 72 (0 :: 1 :: List.replicate 18 0 ++
      2 :: 9 :: List.replicate 6 0)) (some ⟨4096, 0⟩) with
  | none => exact absurd hr (by decide +kernel)
  | some r =>
    obtain ⟨s, rfl, hs⟩ := (mpinit_ends h).2.2 73 r hr
    exact ⟨s, rfl, hs⟩

/-- A table with one entry, of type 5. -/
theorem mpinit_loops : mpconfig (tableAt 147 52 [5]) (some ⟨4096, 0⟩) = some (KERNBASE + 4096) ∧
    ∀ fuel, mpinit fuel (tableAt 147 52 [5]) (some ⟨4096, 0⟩) = none := by
  have h : mpconfig (tableAt 147 52 [5]) (some ⟨4096, 0⟩) = some (KERNBASE + 4096) := by
    decide +kernel
  refine ⟨h, fun fuel => ?_⟩
  simp only [mpinit, h]
  rw [scan_unknown (by decide +kernel) (by decide +kernel)]
  rfl

end Xv6.Boot
