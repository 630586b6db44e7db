import Xv6.Vm.Elf

/-!
# The boot loader

`bootmain.c`. `readseg` reads whole sectors, from the one in which the segment starts in the file:
it writes up to 511 bytes before the segment, and some behind it. What lies behind it is loaded
later; what lies before it has been loaded already, and gets the bytes that the file has before the
segment. So the loading is right exactly if these are the bytes that belong there.
-/

namespace Xv6.Boot

open Vm (Byte ELF_MAGIC half word)

def SECTSIZE : Nat := 512

/-- The physical memory. Addresses are `uint`s. -/
abbrev Memory := Nat → Byte

abbrev Disk := Nat → Nat → Byte

def image (disk : Disk) (i : Nat) : Byte := disk (i / SECTSIZE + 1) (i % SECTSIZE)

/-- The distance from `dst` up to `a`, around the end of the address space. -/
def ahead (dst a : Nat) : Nat := (a + 2 ^ 32 - dst) % 2 ^ 32

def readsect (disk : Disk) (m : Memory) (dst offset : Nat) : Memory := fun a =>
  if ahead dst a < SECTSIZE then disk offset (ahead dst a) else m a

def stosb (m : Memory) (addr : Nat) (data : Byte) (cnt : Nat) : Memory := fun a =>
  if ahead addr a < cnt then data else m a

/-- The loop of `readseg`, none while it is running. -/
def readLoop (disk : Disk) (epa : Nat) : Nat → Memory → Nat → Nat → Option Memory
  | 0, _, _, _ => none
  | fuel + 1, m, pa, offset =>
    if pa < epa then
      readLoop disk epa fuel (readsect disk m pa offset) ((pa + SECTSIZE) % 2 ^ 32) (offset + 1)
    else some m

def readseg (disk : Disk) (fuel : Nat) (m : Memory) (pa count offset : Nat) : Option Memory :=
  readLoop disk ((pa + count) % 2 ^ 32) fuel m ((pa + 2 ^ 32 - offset % SECTSIZE) % 2 ^ 32)
    (offset / SECTSIZE + 1)

/-- The fields of `struct proghdr` that are used, at their offsets. -/
structure Proghdr where
  off : Nat
  paddr : Nat
  filesz : Nat
  memsz : Nat
deriving DecidableEq

def proghdr (m : Memory) (ph : Nat) : Proghdr :=
  ⟨word m (ph + 4), word m (ph + 12), word m (ph + 16), word m (ph + 20)⟩

/-- The loop of `bootmain` for the `n` headers at `ph`. The fields are read where they are used. -/
def loadSegments (disk : Disk) (fuel : Nat) : Nat → Nat → Memory → Option Memory
  | 0, _, m => some m
  | n + 1, ph, m => do
    let pa := (proghdr m ph).paddr
    let m ← readseg disk fuel m pa (proghdr m ph).filesz (proghdr m ph).off
    let m := if (proghdr m ph).memsz > (proghdr m ph).filesz then
        stosb m ((pa + (proghdr m ph).filesz) % 2 ^ 32) 0
          ((proghdr m ph).memsz - (proghdr m ph).filesz)
      else m
    loadSegments disk fuel n (ph + 32) m

variable {disk : Disk} {m m' : Memory} {dst a fuel pa count offset epa n ph ph' : Nat} {h : Proghdr}

/-! ## Reading a segment -/

theorem ahead_of_le (h : dst ≤ a) (ha : a < 2 ^ 32) : ahead dst a = a - dst := by
  unfold ahead
  omega

theorem ahead_of_lt (h : a < dst) (hd : dst < 2 ^ 32) : ahead dst a = a + 2 ^ 32 - dst := by
  unfold ahead
  omega

theorem readLoop_spec (disk : Disk) (m : Memory) (pa offset : Nat) (hepa : epa + SECTSIZE ≤ 2 ^ 32)
    (hfuel : epa - pa < fuel) :
    ∃ m', readLoop disk epa fuel m pa offset = some m' ∧
      (∀ a, pa ≤ a → a < epa →
        m' a = disk (offset + (a - pa) / SECTSIZE) ((a - pa) % SECTSIZE)) ∧
      ∀ a, a < pa → m' a = m a := by
  induction fuel generalizing m pa offset with
  | zero => exact absurd hfuel (Nat.not_lt_zero _)
  | succ fuel ih =>
    by_cases hpa : pa < epa
    · have hnext : (pa + SECTSIZE) % 2 ^ 32 = pa + SECTSIZE := Nat.mod_eq_of_lt (by omega)
      obtain ⟨m', hm', hread, hbefore⟩ := ih (readsect disk m pa offset) (pa + SECTSIZE)
        (offset + 1) (by unfold SECTSIZE at *; omega)
      refine ⟨m', by rw [readLoop, if_pos hpa, hnext, hm'], fun a h1 h2 => ?_, fun a ha => ?_⟩
      · by_cases hsect : a < pa + SECTSIZE
        · -- the sector that was just read
          rw [hbefore a hsect, readsect, ahead_of_le h1 (by omega), if_pos (by omega),
            Nat.div_eq_of_lt (by omega), Nat.mod_eq_of_lt (by omega), Nat.add_zero]
        · have hge : SECTSIZE ≤ a - pa := by omega
          rw [hread a (by omega) h2, Nat.div_eq_sub_div (by decide) hge, Nat.mod_eq_sub_mod hge,
            Nat.sub_add_eq, Nat.add_right_comm]
          rfl
      · rw [hbefore a (by omega), readsect, ahead_of_lt ha (by omega), if_neg (by omega)]
    · exact ⟨m,
        by rw [readLoop, if_neg hpa], fun a h1 h2 => absurd (h1.trans_lt h2) hpa, fun _ _ => rfl⟩

theorem readseg_spec (disk : Disk) (m : Memory) (hpa : offset % SECTSIZE ≤ pa)
    (hend : pa + count + SECTSIZE ≤ 2 ^ 32) (hfuel : count + SECTSIZE < fuel) :
    ∃ m', readseg disk fuel m pa count offset = some m' ∧
      (∀ a, pa - offset % SECTSIZE ≤ a → a < pa + count → m' a = image disk (offset + a - pa)) ∧
      ∀ a, a < pa - offset % SECTSIZE → m' a = m a := by
  have hmod : offset % SECTSIZE < SECTSIZE := Nat.mod_lt _ (by decide)
  have hepa : (pa + count) % 2 ^ 32 = pa + count :=
    Nat.mod_eq_of_lt (by unfold SECTSIZE at *; omega)
  have hstart : (pa + 2 ^ 32 - offset % SECTSIZE) % 2 ^ 32 = pa - offset % SECTSIZE := by omega
  obtain ⟨m', hm', hread, hbefore⟩ := readLoop_spec disk m (pa - offset % SECTSIZE)
    (offset / SECTSIZE + 1) hend (show _ < fuel by omega)
  refine ⟨m', by rw [readseg, hepa, hstart, hm'], fun a h1 h2 => ?_, hbefore⟩
  rw [hread a h1 h2, image]
  unfold SECTSIZE at *
  congr 1 <;> omega

/-! ## The segments -/

def Proghdr.size (h : Proghdr) : Nat := max h.filesz h.memsz

def Proghdr.start (h : Proghdr) : Nat := h.paddr - h.off % SECTSIZE

/-- Byte `k` of the segment. -/
def Proghdr.byte (disk : Disk) (h : Proghdr) (k : Nat) : Byte :=
  if k < h.filesz then image disk (h.off + k) else 0

def Proghdr.Loaded (disk : Disk) (m : Memory) (h : Proghdr) : Prop :=
  ∀ k < h.size, m (h.paddr + k) = h.byte disk k

def proghdrs (m : Memory) (ph : Nat) : Nat → List Proghdr
  | 0 => []
  | n + 1 => proghdr m ph :: proghdrs m (ph + 32) n

theorem word_congr (h : ∀ k < 4, m (a + k) = m' (dst + k)) : word m a = word m' dst := by
  unfold word
  rw [h 1 (by omega), h 2 (by omega), h 3 (by omega), show m a = m' dst from h 0 (by omega)]

theorem proghdr_congr (h : ∀ k < 32, m (ph + k) = m' (ph' + k)) :
    proghdr m ph = proghdr m' ph' := by
  have hword : ∀ i, i + 4 ≤ 32 → word m (ph + i) = word m' (ph' + i) := fun i hi =>
    word_congr fun k hk => by
      rw [Nat.add_assoc, Nat.add_assoc]
      exact h (i + k) (by omega)
  simp only [proghdr, hword 4 (by omega), hword 12 (by omega), hword 16 (by omega),
    hword 20 (by omega)]

theorem proghdrs_congr (h : ∀ k < 32 * n, m (ph + k) = m' (ph' + k)) :
    proghdrs m ph n = proghdrs m' ph' n := by
  induction n generalizing ph ph' with
  | zero => rfl
  | succ n ih =>
    rw [proghdrs, proghdrs, proghdr_congr fun k hk => h k (by omega), ih fun k hk => ?_]
    rw [Nat.add_assoc, Nat.add_assoc]
    exact h (32 + k) (by omega)

/-- A segment that can be loaded: it does not run over the end of memory, and its first sector lies
above `low`. -/
structure Proghdr.Fits (low : Nat) (h : Proghdr) : Prop where
  low : low + h.off % SECTSIZE ≤ h.paddr
  high : h.paddr + h.size + SECTSIZE ≤ 2 ^ 32

theorem Proghdr.Fits.mono {low low' : Nat} (hf : h.Fits low) (hle : low' ≤ low) : h.Fits low' :=
  ⟨(Nat.add_le_add_right hle _).trans hf.low, hf.high⟩

/-- The byte at `a`, below the segment, when it has been loaded. -/
def Proghdr.before (disk : Disk) (h : Proghdr) (a : Nat) (b : Byte) : Byte :=
  if h.start ≤ a then image disk (h.off + a - h.paddr) else b

theorem load_one (disk : Disk) (n : Nat) (hh : proghdr m ph = h) (hf : h.Fits (ph + 32))
    (hfuel : 2 ^ 32 < fuel) :
    ∃ m', loadSegments disk fuel (n + 1) ph m = loadSegments disk fuel n (ph + 32) m' ∧
      h.Loaded disk m' ∧ ∀ a < h.paddr, m' a = h.before disk a (m a) := by
  obtain ⟨hlow, hhigh⟩ := hf
  have hfile : h.filesz ≤ h.size := le_max_left _ _
  have hmem : h.memsz ≤ h.size := le_max_right _ _
  obtain ⟨m1, hm1, hread, hbefore⟩ := readseg_spec disk m
    (show h.off % SECTSIZE ≤ h.paddr by omega)
      (show h.paddr + h.filesz + SECTSIZE ≤ 2 ^ 32 by omega)
    (show _ < fuel by omega)
  -- the header is still in place
  have hsame : proghdr m1 ph = h := (proghdr_congr fun k hk => hbefore _ (by omega)).trans hh
  have hfill : (h.paddr + h.filesz) % 2 ^ 32 = h.paddr + h.filesz := by
    unfold SECTSIZE at hhigh
    omega
  refine ⟨if h.memsz > h.filesz then stosb m1 (h.paddr + h.filesz) 0 (h.memsz - h.filesz) else m1,
    ?_, fun k hk => ?_, fun a ha => ?_⟩
  · simp only [loadSegments, hh, hm1, Option.bind_eq_bind, Option.bind_some, hsame, hfill]
  · unfold Proghdr.byte
    by_cases hkf : k < h.filesz
    · have hfileByte : m1 (h.paddr + k) = image disk (h.off + k) := by
        rw [hread (h.paddr + k) (by omega) (by omega)]
        congr 1
        omega
      rw [if_pos hkf, ← hfileByte]
      split
      · rw [stosb, ahead_of_lt (by omega) (by omega), if_neg (by omega)]
      · rfl
    · have hzero : h.memsz > h.filesz := by
        unfold Proghdr.size at hk
        omega
      have hk' : k < h.memsz := by
        unfold Proghdr.size at hk
        omega
      rw [if_neg hkf, if_pos hzero, stosb, ahead_of_le (by omega) (by omega), if_pos (by omega)]
  · have hm1a : m1 a = h.before disk a (m a) := by
      unfold Proghdr.before
      split
      · next hstart => exact hread a hstart (by omega)
      · next hstart => exact hbefore a (not_le.1 hstart)
    rw [← hm1a]
    split
    · rw [stosb, ahead_of_lt (by omega) (by omega), if_neg (by omega)]
    · rfl

/-- The byte at `a`, below the segments, when they have been loaded one after the other. -/
def after (disk : Disk) (l : List Proghdr) (a : Nat) (b : Byte) : Byte :=
  l.foldl (fun b h => h.before disk a b) b

/-- What the first sectors of later segments bring to the place of a segment is what belongs
there. -/
def Spared (disk : Disk) : List Proghdr → Prop
  | [] => True
  | h :: l =>
    (∀ k < h.size, after disk l (h.paddr + k) (h.byte disk k) = h.byte disk k) ∧ Spared disk l

def Ascending (l : List Proghdr) : Prop := l.Pairwise fun h h' => h.paddr + h.size ≤ h'.paddr

theorem loadSegments_spec (disk : Disk) (m : Memory) (ph n : Nat)
    (hf : ∀ h ∈ proghdrs m ph n, h.Fits (ph + 32 * n)) (hfuel : 2 ^ 32 < fuel)
    (hasc : Ascending (proghdrs m ph n)) :
    ∃ m', loadSegments disk fuel n ph m = some m' ∧
      ((∀ h ∈ proghdrs m ph n, h.Loaded disk m') ↔ Spared disk (proghdrs m ph n)) ∧
      ∀ a, (∀ h ∈ proghdrs m ph n, a < h.paddr) → m' a = after disk (proghdrs m ph n) a (m a) := by
  induction n generalizing ph m with
  | zero => exact ⟨m, rfl, iff_of_true nofun trivial, fun _ _ => rfl⟩
  | succ n ih =>
    rw [proghdrs, Ascending, List.pairwise_cons] at hasc
    rw [proghdrs, List.forall_mem_cons] at hf
    obtain ⟨m1, hm1, hload, hbefore⟩ := load_one disk n rfl
      (hf.1.mono (show ph + 32 ≤ ph + 32 * (n + 1) by omega)) hfuel
    have hlow := hf.1.low
    have hrest : proghdrs m1 (ph + 32) n = proghdrs m (ph + 32) n :=
      proghdrs_congr fun k hk => by
        rw [hbefore _ (by omega), Proghdr.before, if_neg (by unfold Proghdr.start; omega)]
    obtain ⟨m', hm', hloaded, hkept⟩ := ih m1 (ph + 32)
      (by rw [hrest]; exact fun h hh => (hf.2 h hh).mono (by omega)) (by rw [hrest]; exact hasc.2)
    rw [hrest] at hloaded hkept
    refine ⟨m', hm1.trans hm', ?_, fun a ha => ?_⟩
    · rw [proghdrs, List.forall_mem_cons, Spared, hloaded]
      refine and_congr_left' (forall₂_congr fun k hk => ?_)
      -- the later segments lie behind this one
      rw [hkept _ fun h' hh' => lt_of_lt_of_le (by omega) (hasc.1 h' hh'), hload k hk]
    · rw [proghdrs, List.forall_mem_cons] at ha
      rw [hkept a ha.2, hbefore a ha.1]
      rfl

def bytes (w : Nat) : List Byte :=
  [.ofNat 8 w, .ofNat 8 (w / 2 ^ 8), .ofNat 8 (w / 2 ^ 16), .ofNat 8 (w / 2 ^ 24)]

def header (h : Proghdr) : List Byte :=
  [1, h.off, 0, h.paddr, h.filesz, h.memsz, 0, 0].flatMap bytes

/-- A file with two program headers behind the ELF header, and the byte 7 from there on. -/
def twoSegments (h h' : Proghdr) : Disk := fun n i =>
  ([0x464C457F, 0, 0, 0, 0, 0, 0x100000, 52, 0, 0, 0, 2, 0].flatMap bytes ++ header h ++
    header h').getD
    (SECTSIZE * (n - 1) + i) 7

/-- The second segment is behind the first, and starts at byte 2 of a sector of the file. -/
def shared : Disk := twoSegments ⟨512, 0x100000, 1, 2⟩ ⟨514, 0x100002, 1, 1⟩

end Xv6.Boot
