import Xv6.Vm.Space

/-!
# Executable files

The part of `exec` that reads the file: the ELF header, the program headers and the segments. Every
field of a header may be anything. The tests of `exec`, `allocuvm` and `readi` are enough for the
loading to end without a panic, and what a program finds in its memory is then what the loaded
segments say: `laid` overlays their bytes in the order of the headers on a memory of zeros.
-/

namespace Xv6.Vm

variable {t t' : Pgdir} {k k' : Kmem} {sz sz' : Nat} {file : List Byte}

/-! ## The file -/

/-- `readi` of a file with these contents; none is its result -1. -/
def readi (file : List Byte) (off n : Nat) : Option (List Byte) :=
  if off > file.length ∨ (off + n) % 2 ^ 32 < off then none else some ((file.drop off).take n)

/-- The bytes, if `readi` returns `n`. -/
def readn (file : List Byte) (off n : Nat) : Option (List Byte) :=
  (readi file off n).filter fun b => b.length = n

/-- The little-endian halfword at byte `i`. -/
def half (c : Nat → Byte) (i : Nat) : Nat := (c i).toNat + 2 ^ 8 * (c (i + 1)).toNat

def ELF_MAGIC : Nat := 0x464C457F
def ELF_PROG_LOAD : Nat := 1

/-- `struct elfhdr`, of 52 bytes. -/
structure Elfhdr where
  magic : Nat
  phoff : Nat
  phnum : Nat
deriving DecidableEq

def elfhdr (file : List Byte) : Option Elfhdr :=
  (readn file 0 52).map fun b =>
    ⟨word (fun i => b.getD i 0) 0, word (fun i => b.getD i 0) 28, half (fun i => b.getD i 0) 44⟩

/-- `struct proghdr`, of 32 bytes. -/
structure Proghdr where
  type : BitVec 32
  off : BitVec 32
  vaddr : BitVec 32
  filesz : BitVec 32
  memsz : BitVec 32
deriving DecidableEq

def proghdr (file : List Byte) (pos : Nat) : Option Proghdr :=
  (readn file pos 32).map fun b =>
    let field i := BitVec.ofNat 32 (word (fun i => b.getD i 0) i)
    ⟨field 0, field 4, field 8, field 16, field 20⟩

namespace Proghdr

def load (ph : Proghdr) : Bool := ph.type = ELF_PROG_LOAD

/-- What `loaduvm` reads for page `i` of the segment. -/
def chunk (file : List Byte) (ph : Proghdr) (i : Nat) : Option (List Byte) :=
  let n := if ph.filesz.toNat - i * PGSIZE < PGSIZE then ph.filesz.toNat - i * PGSIZE else PGSIZE
  readn file ((ph.off.toNat + i * PGSIZE) % 2 ^ 32) n

def segment (file : List Byte) (ph : Proghdr) : Segment where
  readable := true
  load := ph.load
  vaddr := ph.vaddr
  memsz := ph.memsz
  filesz := ph.filesz
  failsAt := (List.range (pgroundup ph.filesz.toNat)).find? fun i => (ph.chunk file i).isNone
  data i c := (ph.chunk file i).elim c fun b => patch 0 b c

/-- Address `a` is in the segment. -/
def Has (ph : Proghdr) (a : Nat) : Prop :=
  ph.vaddr.toNat ≤ a ∧ a < ph.vaddr.toNat + ph.memsz.toNat

end Proghdr

def Segment.unreadable : Segment := ⟨false, false, 0, 0, 0, none, fun _ c => c⟩

def segmentAt (file : List Byte) (pos : Nat) : Segment :=
  (proghdr file pos).elim .unreadable (Proghdr.segment file)

/-- The places of the program headers; `off` is an `int`. -/
def Elfhdr.places (elf : Elfhdr) : List Nat :=
  (List.range elf.phnum).map fun i => (elf.phoff + i * 32) % 2 ^ 32

/-- What `exec` finds in a file. -/
def imageOf (file : List Byte) : Image :=
  match elfhdr file with
  | none => ⟨false, []⟩
  | some elf => ⟨elf.magic = ELF_MAGIC, elf.places.map (segmentAt file)⟩

def loadsAt (file : List Byte) (l : List Nat) : List Proghdr :=
  (l.filterMap (proghdr file)).filter Proghdr.load

/-- The headers of the segments that are loaded, in their order in the file. -/
def loads (file : List Byte) : List Proghdr :=
  match elfhdr file with
  | none => []
  | some elf => loadsAt file elf.places

/-! ## Loading -/

/-- The first half of `exec`: the header and the segments. The result is the size and the directory
of the new address space. -/
def load (ly : Layout) (img : Image) (k : Kmem) : Except Panic (Option (Nat × Pgdir) × Kmem) :=
  if img.header = false then .ok (none, k)
  else do
    let (d, k) ← setupkvm ly k
    match d with
    | none => return (none, k)
    | some t =>
      let (r, t, k) ← loadSegments img.segments 0 t k
      match r with
      | none => return (none, freevm t k)
      | some sz => return (some (sz, t), k)

/-- The byte at address `a` of an address space. -/
def Pgdir.peek (t : Pgdir) (k : Kmem) (a : Nat) : Option Byte :=
  (t.pte (a / PGSIZE)).map fun e => k.mem e.pa (Fin.ofNat PGSIZE a)

/-- The memory below `sz`, up to the end of its last page, has the bytes of `m`, and `m` has zeros
behind them. -/
structure Holds (t : Pgdir) (k : Kmem) (sz : Nat) (m : Nat → Byte) : Prop where
  peek : ∀ a, a / PGSIZE < pgroundup sz → t.peek k a = some (m a)
  zero : ∀ a, pgroundup sz ≤ a / PGSIZE → m a = 0

/-- The bytes of a segment over those of `m`. -/
def Proghdr.overlay (file : List Byte) (ph : Proghdr) (m : Nat → Byte) (a : Nat) : Byte :=
  if ph.vaddr.toNat ≤ a ∧ a < ph.vaddr.toNat + ph.filesz.toNat then
    file.getD (ph.off.toNat + (a - ph.vaddr.toNat)) 0
  else m a

def laid (file : List Byte) (l : List Proghdr) (m : Nat → Byte) : Nat → Byte :=
  l.foldl (fun m ph => ph.overlay file m) m

variable {n : Nat} {b : List Byte}

theorem readn_some {off : Nat} (h : readn file off n = some b) :
    off + n ≤ file.length ∧ b = (file.drop off).take n := by
  unfold readn readi at h
  split at h
  · cases h
  · next hok =>
    obtain ⟨hb, hlen⟩ := Option.filter_eq_some_iff.1 h
    cases hb
    have hle : ((file.drop off).take n).length = n := by simpa using hlen
    rw [List.length_take, List.length_drop] at hle
    exact ⟨by omega, rfl⟩

variable {ph : Proghdr} {i : Nat}

theorem Proghdr.chunk_some (hfile : file.length < 2 ^ 32)
    (hoff : ph.off.toNat + i * PGSIZE ≤ file.length) (h : ph.chunk file i = some b) :
    ph.off.toNat + i * PGSIZE + b.length ≤ file.length ∧
      b.length = min PGSIZE (ph.filesz.toNat - i * PGSIZE) ∧
      ∀ j < b.length, b.getD j 0 = file.getD (ph.off.toNat + i * PGSIZE + j) 0 := by
  unfold chunk at h
  rw [Nat.mod_eq_of_lt (by omega)] at h
  obtain ⟨hle, rfl⟩ := readn_some h
  have hmin : (if ph.filesz.toNat - i * PGSIZE < PGSIZE then ph.filesz.toNat - i * PGSIZE
      else PGSIZE) = min PGSIZE (ph.filesz.toNat - i * PGSIZE) := by
    split <;> omega
  rw [hmin] at hle ⊢
  have hlen : ((file.drop (ph.off.toNat + i * PGSIZE)).take
      (min PGSIZE (ph.filesz.toNat - i * PGSIZE))).length
      = min PGSIZE (ph.filesz.toNat - i * PGSIZE) := by
    rw [List.length_take, List.length_drop]
    omega
  refine ⟨by rw [hlen]; exact hle, hlen, fun j hj => ?_⟩
  rw [hlen] at hj
  rw [List.getD_eq_getElem?_getD, List.getD_eq_getElem?_getD, List.getElem?_take_of_lt hj,
    List.getElem?_drop]

/-! ## Pages -/

theorem Pgdir.pa_inj {x y : Nat} {e e' : Pte} (hnd : t.pages.Nodup) (hx : x < KERNPAGE)
    (hy : y < KERNPAGE) (he : t.pte x = some e) (he' : t.pte y = some e') (hpa : e.pa = e'.pa) :
    x = y := by
  by_contra hne
  have hfx : t.frame x = some e.pa := by rw [frame, he, Option.map_some]
  have hfy : t.frame y = some e.pa := by rw [frame, he', Option.map_some, hpa]
  rw [Pgdir.pages] at hnd
  replace hnd := (Multiset.nodup_add.1 hnd).2.1
  rw [← Lib.held_take (Finset.mem_range.2 hx) hfx, Lib.nodup_add_singleton] at hnd
  exact hnd.2 (Lib.mem_held.2 ⟨y, Finset.mem_range.2 hy, by
    rw [Function.update_of_ne (Ne.symm hne), hfy]⟩)

variable {newsz r : Nat}

theorem allocuvm_mem {oldsz : Nat} (ht : t.Ok) (habove : Above t oldsz) (hnd : k.free.Nodup)
    (h : allocuvm t oldsz newsz k = .ok (r, t', k')) (hr : r ≠ 0) :
    (∀ x, x < pgroundup oldsz → t'.pte x = t.pte x) ∧
    (∀ x, pgroundup oldsz ≤ x → x < pgroundup r →
      ∃ e, t'.pte x = some e ∧ k'.mem e.pa = fun _ => 0) ∧
    ∀ q, q ∉ k.free → k'.mem q = k.mem q := by
  unfold allocuvm at h
  split at h
  · cases h
    exact absurd rfl hr
  next hbig =>
  split at h
  · cases h
    exact ⟨fun _ _ => rfl, fun x h1 h2 => absurd h2 (by omega), fun _ _ => rfl⟩
  next hlt =>
  have hup := pgroundup_mono (not_lt.1 hlt)
  have hupK : pgroundup newsz ≤ KERNPAGE := pgroundup_le (by omega)
  obtain ⟨o, t1, k1, m, hloop, -, -, -, hm, hpte, hnew, hmem, -⟩ :=
    allocLoop_spec (pgroundup newsz - pgroundup oldsz) (pgroundup oldsz) t k ht (by omega)
      (fun x h1 h2 => habove x h1 (by omega)) hnd
  simp only [hloop, bind, Except.bind] at h
  cases o with
  | none =>
    have hmn := hm rfl
    cases h
    refine ⟨fun x hx => hpte x (by omega), fun x h1 h2 => ?_, hmem⟩
    obtain ⟨e, he, -, hz⟩ := hnew x h1 (by omega)
    exact ⟨e, he, hz⟩
  | some o =>
    simp only [pure, Except.pure, Except.ok.injEq, Prod.mk.injEq] at h
    exact absurd h.1.symm hr

theorem loaduvm_mem {g : Segment} {v : Nat} (hnd : t.pages.Nodup) (hv : v + n ≤ KERNPAGE)
    (h : loaduvm t g n i v k = .ok (true, k')) : (∀ j < n, g.failsAt ≠ some (i + j)) ∧
    (∀ j < n, ∀ e, t.pte (v + j) = some e → k'.mem e.pa = g.data (i + j) (k.mem e.pa)) ∧
    ∀ q, (∀ j < n, ∀ e, t.pte (v + j) = some e → e.pa ≠ q) → k'.mem q = k.mem q := by
  induction n generalizing i v k with
  | zero =>
    cases h
    exact ⟨nofun, nofun, fun _ _ => rfl⟩
  | succ n ih =>
    unfold loaduvm at h
    split at h
    · cases h
    · cases h
    next e _ he =>
    split at h
    · cases h
    next hfail =>
    obtain ⟨h1, h2, h3⟩ := ih (by omega) h
    -- the other pages of the segment have other frames
    have hother : ∀ j < n, ∀ e', t.pte (v + 1 + j) = some e' → e'.pa ≠ e.pa := by
      intro j hj e' he' heq
      have := Pgdir.pa_inj hnd (by omega) (by omega) he' he heq
      omega
    have hfill : ∀ q, q ≠ e.pa → (k.fill e.pa (g.data i (k.mem e.pa))).mem q = k.mem q :=
      fun q hq => Function.update_of_ne hq ..
    refine ⟨fun j hj => ?_, fun j hj e' he' => ?_, fun q hq => ?_⟩
    · cases j with
      | zero => exact hfail
      | succ j =>
        rw [show i + (j + 1) = i + 1 + j by omega]
        exact h1 j (by omega)
    · cases j with
      | zero =>
        obtain rfl : e = e' := Option.some.inj (he.symm.trans he')
        rw [h3 e.pa hother]
        exact Function.update_self ..
      | succ j =>
        have hj' : v + (j + 1) = v + 1 + j := by omega
        rw [hj'] at he'
        rw [h2 j (by omega) e' he', hfill _ (hother j (by omega) e' he'),
          show i + (j + 1) = i + 1 + j by omega]
    · rw [h3 q fun j hj e' he' => ?_, hfill]
      · rintro rfl
        exact hq 0 (by omega) e he rfl
      · exact hq (j + 1) (by omega) e' (by rwa [show v + (j + 1) = v + 1 + j by omega])

/-! ## Memory -/

variable {m : Nat → Byte}

theorem Holds.alloc (h : Holds t k sz m) (ht : t.Ok) (hsz : sz ≤ KERNBASE) (hab : Above t sz)
    (hnd : (k.free + t.pages).Nodup) (ha : allocuvm t sz newsz k = .ok (r, t', k')) (hr : r ≠ 0)
    (hle : sz ≤ r) : Holds t' k' r m := by
  obtain ⟨hfree, -, hdisj⟩ := Multiset.nodup_add.1 hnd
  obtain ⟨hold, hnew, hmem⟩ := allocuvm_mem ht hab hfree ha hr
  have hup := pgroundup_mono hle
  refine ⟨fun a ha => ?_, fun a ha => h.zero a (by omega)⟩
  by_cases hlt : a / PGSIZE < pgroundup sz
  · rw [← h.peek a hlt, Pgdir.peek, Pgdir.peek, hold _ hlt]
    cases he : t.pte (a / PGSIZE) with
    | none => rfl
    | some e =>
      have hK := pgroundup_le hsz
      have hin : e.pa ∈ t.pages := Pgdir.pa_mem (by omega) he
      rw [Option.map_some, Option.map_some,
        hmem e.pa fun hq => Multiset.disjoint_left.1 hdisj hq hin]
  · obtain ⟨e, he, hz⟩ := hnew _ (not_lt.1 hlt) ha
    rw [Pgdir.peek, he, Option.map_some, hz, h.zero a (not_lt.1 hlt)]

theorem Proghdr.chunk_isSome (hfile : file.length < 2 ^ 32)
    (hf : ∀ j < pgroundup ph.filesz.toNat, (ph.segment file).failsAt ≠ some j) (j : Nat)
    (hj : j < pgroundup ph.filesz.toNat) :
    ph.off.toNat + j * PGSIZE ≤ file.length ∧ ∃ b, ph.chunk file j = some b := by
  have hsome : ∀ j < pgroundup ph.filesz.toNat, ∃ b, ph.chunk file j = some b := by
    intro j hj
    by_contra hno
    have hnone : ph.chunk file j = none := by
      cases hc : ph.chunk file j with
      | none => rfl
      | some b => exact absurd ⟨b, hc⟩ hno
    cases hfind : (ph.segment file).failsAt with
    | none =>
      have := List.find?_eq_none.1 hfind j (List.mem_range.2 hj)
      simp [hnone] at this
    | some i => exact hf i (List.mem_range.1 (List.mem_of_find?_eq_some hfind)) hfind
  refine ⟨?_, hsome j hj⟩
  induction j with
  | zero =>
    obtain ⟨b, hb⟩ := hsome 0 hj
    unfold chunk at hb
    have := (readn_some hb).1
    have hlt := ph.off.isLt
    omega
  | succ j ih =>
    obtain ⟨b, hb⟩ := hsome j (by omega)
    obtain ⟨hle, hlen, -⟩ := chunk_some hfile (ih (by omega)) hb
    simp only [pgroundup, PGSIZE] at hj hlen hle ⊢
    omega

theorem Holds.load (h : Holds t k sz m)
    (hfile : file.length < 2 ^ 32) (halign : ph.vaddr.toNat % PGSIZE = 0)
    (hend : ph.vaddr.toNat + ph.filesz.toNat ≤ sz) (hsz : sz ≤ KERNBASE) (hnd : t.pages.Nodup)
    (hl : loaduvm t (ph.segment file) (pgroundup ph.filesz.toNat) 0 (ph.vaddr.toNat / PGSIZE) k
      = .ok (true, k')) :
    Holds t k' sz (ph.overlay file m) := by
  have hP : PGSIZE = 4096 := rfl
  have hszK := pgroundup_le hsz
  have hvK : ph.vaddr.toNat / PGSIZE + pgroundup ph.filesz.toNat ≤ pgroundup sz := by
    simp only [pgroundup, hP] at halign hend ⊢
    omega
  obtain ⟨hf, hin, hout⟩ := loaduvm_mem hnd (by omega) hl
  have hchunk := Proghdr.chunk_isSome hfile fun j hj => by
    have := hf j hj
    rwa [Nat.zero_add] at this
  refine ⟨fun a ha => ?_, fun a ha => ?_⟩
  · have hpeek := h.peek a ha
    rw [Pgdir.peek] at hpeek ⊢
    obtain ⟨e, he, hbyte⟩ := Option.map_eq_some_iff.1 hpeek
    rw [he, Option.map_some]
    have hval : (Fin.ofNat PGSIZE a).val = a % PGSIZE := rfl
    by_cases hx : ph.vaddr.toNat / PGSIZE ≤ a / PGSIZE ∧
        a / PGSIZE < ph.vaddr.toNat / PGSIZE + pgroundup ph.filesz.toNat
    · -- a page of the segment: the bytes that were read, and the rest of the last page
      obtain ⟨j, hj⟩ := Nat.exists_eq_add_of_le hx.1
      have hjn : j < pgroundup ph.filesz.toNat := by omega
      obtain ⟨hoff, b, hb⟩ := hchunk j hjn
      obtain ⟨-, hlen, hget⟩ := Proghdr.chunk_some hfile hoff hb
      rw [hin j hjn e (by rw [← hj]; exact he), Nat.zero_add]
      change some (((ph.chunk file j).elim (k.mem e.pa) fun b => patch 0 b (k.mem e.pa)) _) = _
      rw [hb]
      change some (patch 0 b (k.mem e.pa) (Fin.ofNat PGSIZE a)) = _
      unfold patch Proghdr.overlay
      rw [hval, Nat.zero_add, Nat.sub_zero]
      have hmod : a % PGSIZE < PGSIZE := Nat.mod_lt _ (by decide)
      have hloc : a = ph.vaddr.toNat + j * PGSIZE + a % PGSIZE := by
        simp only [hP] at halign hj ⊢
        omega
      by_cases hlt : a % PGSIZE < b.length
      · rw [if_pos ⟨Nat.zero_le _, hlt⟩, if_pos (by omega), hget _ hlt,
          show ph.off.toNat + j * PGSIZE + a % PGSIZE = ph.off.toNat + (a - ph.vaddr.toNat)
            by omega]
      · rw [if_neg (by omega), if_neg (by omega), hbyte]
    · have hmem : k'.mem e.pa = k.mem e.pa := by
        refine hout e.pa fun j hj e' he' heq => ?_
        have := Pgdir.pa_inj hnd (by omega) (by omega) he' he heq
        omega
      rw [hmem, hbyte, Proghdr.overlay, if_neg]
      simp only [pgroundup, hP] at *
      omega
  · rw [Proghdr.overlay, if_neg, h.zero a ha]
    simp only [pgroundup, hP] at ha
    omega

theorem Proghdr.in_file (hfile : file.length < 2 ^ 32)
    (hf : ∀ j < pgroundup ph.filesz.toNat, (ph.segment file).failsAt ≠ some j)
    (hpos : 0 < ph.filesz.toNat) : ph.off.toNat + ph.filesz.toNat ≤ file.length := by
  have hlast := pgroundup_pos hpos
  obtain ⟨hoff, b, hb⟩ := chunk_isSome hfile hf (pgroundup ph.filesz.toNat - 1) (by omega)
  obtain ⟨hle, hlen, -⟩ := chunk_some hfile hoff hb
  simp only [pgroundup, PGSIZE] at hlast hle hlen
  omega

/-- A segment that has been loaded: its bytes are in the file, and it lies below the size. -/
structure Loaded (file : List Byte) (sz : Nat) (ph : Proghdr) : Prop where
  filesz : ph.filesz.toNat ≤ ph.memsz.toNat
  below : ph.vaddr.toNat + ph.memsz.toNat ≤ sz
  bytes : 0 < ph.filesz.toNat → ph.off.toNat + ph.filesz.toNat ≤ file.length

theorem loadSegments_holds (hfile : file.length < 2 ^ 32) (l : List Nat) (ht : t.Ok)
    (hsz : sz ≤ KERNBASE) (hab : Above t sz) (hbel : Below t sz) (hnd : (k.free + t.pages).Nodup)
    (hm : Holds t k sz m) (h : loadSegments (l.map (segmentAt file)) sz t k =
      .ok (some sz', t', k')) :
    sz ≤ sz' ∧ Holds t' k' sz' (laid file (loadsAt file l) m) ∧
      ∀ ph ∈ loadsAt file l, Loaded file sz' ph := by
  induction l generalizing sz t k m with
  | nil =>
    cases h
    exact ⟨le_rfl, hm, List.forall_mem_nil _⟩
  | cons pos l ih =>
    rw [List.map_cons] at h
    unfold loadSegments at h
    cases hp : proghdr file pos with
    | none =>
      have hseg : segmentAt file pos = .unreadable := by rw [segmentAt, hp, Option.elim_none]
      rw [hseg, if_pos (show Segment.unreadable.readable = false from rfl)] at h
      cases h
    | some ph =>
      have hseg : segmentAt file pos = ph.segment file := by rw [segmentAt, hp, Option.elim_some]
      have hcons : loadsAt file (pos :: l)
          = if ph.load then ph :: loadsAt file l else loadsAt file l := by
        rw [loadsAt, List.filterMap_cons_some hp, List.filter_cons]
        rfl
      rw [hcons]
      rw [hseg,
        if_neg (show ¬ (ph.segment file).readable = false from Bool.false_ne_true.symm)] at h
      split at h
      · next hload =>
        rw [if_neg (by rw [show ph.load = false from hload]; decide)]
        exact ih ht hsz hab hbel hnd hm h
      next hload =>
      rw [if_pos (show ph.load = true from Bool.eq_true_of_not_eq_false hload)]
      split at h
      · cases h
      next hmem =>
      split at h
      · cases h
      next hwrap =>
      obtain ⟨a, t1, k1, ha, ht1, hc1, -, h1⟩ := allocuvm_spec sz (ph.vaddr + ph.memsz).toNat
        ht hab (Multiset.nodup_add.1 hnd).1
      change (allocuvm t sz (ph.vaddr + ph.memsz).toNat k >>= _) = _ at h
      simp only [ha, bind, Except.bind, pure, Except.pure] at h
      split at h
      · cases h
      next ha0 =>
      obtain ⟨hmax, hlt, hab1, hbel1⟩ := h1 ha0
      split at h
      · cases h
      next halign =>
      split at h
      · cases h
      next x hx =>
      obtain ⟨b, k2⟩ := x
      dsimp only at h
      split at h
      · next hb =>
        subst hb
        have hend : ph.vaddr.toNat + ph.memsz.toNat = (ph.vaddr + ph.memsz).toNat := by
          change ¬ ph.vaddr + ph.memsz < ph.vaddr at hwrap
          rw [BitVec.lt_def, BitVec.toNat_add] at hwrap
          rw [BitVec.toNat_add]
          omega
        have hfilesz : ph.filesz.toNat ≤ ph.memsz.toNat := by
          change ¬ ph.memsz < ph.filesz at hmem
          rw [BitVec.lt_def] at hmem
          omega
        have hf := loaduvm_free hx
        have hnd1 : (k1.free + t1.pages).Nodup := by rw [hc1]; exact hnd
        have hm1 := hm.alloc ht hsz hab hnd ha ha0 (by omega)
        have hm2 := hm1.load hfile (not_not.1 halign) (by omega) (by omega)
          (Multiset.nodup_add.1 hnd1).2.1 hx
        obtain ⟨h₁, h2, h3⟩ := ih ht1 (by omega) hab1 (hbel1 hbel) (by rw [hf]; exact hnd1) hm2 h
        refine ⟨by omega, h2, List.forall_mem_cons.2 ⟨⟨hfilesz, by omega, ?_⟩, h3⟩⟩
        have hvK : ph.vaddr.toNat / PGSIZE + pgroundup ph.filesz.toNat ≤ KERNPAGE := by
          have hK := pgroundup_le (show ph.vaddr.toNat + ph.filesz.toNat ≤ KERNBASE by omega)
          have hal : ph.vaddr.toNat % PGSIZE = 0 := not_not.1 halign
          simp only [pgroundup, PGSIZE] at hK hal ⊢
          omega
        obtain ⟨hfail, -⟩ := loaduvm_mem (Multiset.nodup_add.1 hnd1).2.1 hvK hx
        simp only [Nat.zero_add] at hfail
        exact ph.in_file hfile hfail
      · cases h

theorem laid_cons (ph : Proghdr) (l : List Proghdr) (m : Nat → Byte) :
    laid file (ph :: l) m = laid file l (ph.overlay file m) := rfl

variable {a : Nat}

theorem Proghdr.overlay_of_not (hsz : ph.filesz.toNat ≤ ph.memsz.toNat) (h : ¬ ph.Has a)
    (m : Nat → Byte) : ph.overlay file m a = m a := by
  rw [overlay, if_neg]
  unfold Has at h
  omega

variable {l : List Proghdr}

theorem laid_of_not (hsz : ∀ ph ∈ l, ph.filesz.toNat ≤ ph.memsz.toNat) (ha : ∀ ph ∈ l, ¬ ph.Has a)
    (m : Nat → Byte) : laid file l m a = m a := by
  induction l generalizing m with
  | nil => rfl
  | cons ph l ih =>
    obtain ⟨hsz0, hsz⟩ := List.forall_mem_cons.1 hsz
    obtain ⟨ha0, ha⟩ := List.forall_mem_cons.1 ha
    rw [laid_cons, ih hsz ha, ph.overlay_of_not hsz0 ha0]

theorem laid_of_mem (hsz : ∀ ph ∈ l, ph.filesz.toNat ≤ ph.memsz.toNat)
    (hd : l.Pairwise fun g g' => ∀ a, ¬ (g.Has a ∧ g'.Has a)) (hph : ph ∈ l) (ha : ph.Has a)
    (m : Nat → Byte) : laid file l m a = ph.overlay file m a := by
  induction l generalizing m with
  | nil => cases hph
  | cons g l ih =>
    obtain ⟨hsz0, hsz'⟩ := List.forall_mem_cons.1 hsz
    obtain ⟨hd0, hd⟩ := List.pairwise_cons.1 hd
    rw [laid_cons]
    rcases List.mem_cons.1 hph with rfl | hph
    · exact laid_of_not hsz' (fun g' hg' hin => hd0 g' hg' a ⟨ha, hin⟩) _
    · rw [ih hsz' hd hph, Proghdr.overlay, g.overlay_of_not hsz0 fun hin => hd0 ph hph a ⟨hin, ha⟩,
        Proghdr.overlay]

theorem Holds.round (h : Holds t k sz m) : Holds t k (pgroundup sz * PGSIZE) m := by
  exact ⟨fun a ha => h.peek a (by rwa [pgroundup_mul] at ha),
    fun a ha => h.zero a (by rwa [pgroundup_mul] at ha)⟩

theorem clearpteu_pte (h : clearpteu t v = .ok t') :
    t' = t.setPte v ((t.pte v).map fun e => { e with u := false }) := by
  unfold clearpteu at h
  cases htab : t.tab (v / NPDENTRIES) with
  | none =>
    rw [htab] at h
    cases h
  | some q =>
    rw [htab] at h
    cases h
    rfl

theorem Holds.clear {v : Nat} (h : Holds t k sz m) (hc : clearpteu t v = .ok t') :
    Holds t' k sz m := by
  refine ⟨fun a ha => ?_, h.zero⟩
  rw [← h.peek a ha, clearpteu_pte hc, Pgdir.peek, Pgdir.peek]
  by_cases hv : a / PGSIZE = v
  · simp only [Pgdir.setPte, hv, Function.update_self]
    cases t.pte v <;> rfl
  · simp only [Pgdir.setPte, Function.update_of_ne hv]

/-- The pages of the stack do not disturb what has been loaded. -/
theorem Holds.makeStack (h : Holds t k sz m) (ht : t.Ok) (hsz : sz ≤ KERNBASE) (hab : Above t sz)
    (hnd : (k.free + t.pages).Nodup) (hs : Vm.makeStack sz t k = .ok (some sz', t', k')) :
    Holds t' k' sz' m ∧ sz' = pgroundup sz * PGSIZE + 2 * PGSIZE := by
  obtain ⟨a, t₁, k₁, ha, -, -, -, h1⟩ :=
    allocuvm_spec (pgroundup sz * PGSIZE) (pgroundup sz * PGSIZE + 2 * PGSIZE) ht hab.round
      (Multiset.nodup_add.1 hnd).1
  simp only [Vm.makeStack, ha, bind, Except.bind, pure, Except.pure] at hs
  split at hs
  · cases hs
  next ha0 =>
  obtain ⟨hmax, -⟩ := h1 ha0
  split at hs
  · cases hs
  next t2 hcl =>
  cases hs
  exact ⟨(h.round.alloc ht (pgroundup_mul_le hsz) hab.round hnd ha ha0 (by omega)).clear hcl,
    by omega⟩

/-- The segments of the file are in memory: the bytes of the file at their addresses, and zeros
behind them. -/
def SegmentsAt (file : List Byte) (sz : Nat) (t : Pgdir) (k : Kmem) : Prop :=
  ∀ ph ∈ loads file, ∀ i < ph.memsz.toNat, ph.vaddr.toNat + i < sz ∧
    t.peek k (ph.vaddr.toNat + i) = if i < ph.filesz.toNat then file[ph.off.toNat + i]? else some 0

theorem Holds.segmentsAt {fsz : Nat} (h : Holds t k sz (laid file (loads file) fun _ => 0))
    (hle : fsz ≤ sz) (hl : ∀ ph ∈ loads file, Loaded file fsz ph)
    (hd : (loads file).Pairwise fun g g' => ∀ a, ¬ (g.Has a ∧ g'.Has a)) :
    SegmentsAt file sz t k := by
  intro ph hph i hi
  obtain ⟨-, hbelow, hbytes⟩ := hl ph hph
  have hlt : ph.vaddr.toNat + i < sz := by omega
  refine ⟨hlt, ?_⟩
  rw [h.peek _ (by simp only [pgroundup, PGSIZE]; omega),
    laid_of_mem (fun g hg => (hl g hg).filesz) hd hph ⟨Nat.le_add_right _ _, by omega⟩,
    Proghdr.overlay]
  by_cases hif : i < ph.filesz.toNat
  · have hin := hbytes (by omega)
    rw [if_pos hif, if_pos (by omega), Nat.add_sub_cancel_left,
      List.getD_eq_getElem?_getD, List.getElem?_eq_getElem (by omega), Option.getD_some]
  · rw [if_neg hif, if_neg (by omega)]

theorem Holds.mapped (h : Holds t k sz m) : ∀ a < sz, t.peek k a ≠ none := fun a ha => by
  rw [h.peek a (by simp only [pgroundup, PGSIZE]; omega)]
  exact Option.some_ne_none _

/-- `exec` reads any file and makes the stack, with any number of free pages, without a panic. When
it has loaded the file, every address below the size is mapped, and is below `KERNBASE`; and if no
two of the segments overlap then each is in memory. The same holds when it has made the stack. -/
theorem exec_loads (ly : Layout) (hfile : file.length < 2 ^ 32) (hnd : k.free.Nodup) :
    ∃ r k₁, load ly (imageOf file) k = .ok (r, k₁) ∧
      ∀ fsz t, r = some (fsz, t) → fsz ≤ KERNBASE ∧ (∀ a < fsz, t.peek k₁ a ≠ none) ∧
        ((loads file).Pairwise (fun g g' => ∀ a, ¬ (g.Has a ∧ g'.Has a)) →
          SegmentsAt file fsz t k₁) ∧
        ∃ r' t' k', makeStack fsz t k₁ = .ok (r', t', k') ∧
          ∀ sz, r' = some sz → sz < KERNBASE ∧ (∀ a < sz, t'.peek k' a ≠ none) ∧
            ((loads file).Pairwise (fun g g' => ∀ a, ¬ (g.Has a ∧ g'.Has a)) →
              SegmentsAt file sz t' k') := by
  unfold load
  cases helf : elfhdr file with
  | none =>
    refine ⟨none, k, ?_, nofun⟩
    rw [imageOf, helf]
    exact if_pos rfl
  | some elf =>
    have himg : imageOf file = ⟨elf.magic = ELF_MAGIC, elf.places.map (segmentAt file)⟩ := by
      rw [imageOf, helf]
    have hloads : loads file = loadsAt file elf.places := by rw [loads, helf]
    rw [himg]
    split
    · exact ⟨none, k, rfl, nofun⟩
    obtain ⟨o, k1, hset, -, ⟨d, rfl, hd, -, -, hlow, -, hc⟩ | ⟨rfl, -, -⟩⟩ := setupkvm_spec ly k
    · simp only [hset, bind, Except.bind]
      have hnd1 : (k1.free + d.pages).Nodup := by rwa [hc]
      have h0 : pgroundup 0 = 0 := rfl
      have hab : Above d 0 := fun v _ hv => hlow v hv
      have hbel : Below d 0 := fun v hv => absurd hv (by rw [h0]; omega)
      have hm : Holds d k1 0 fun _ => 0 :=
        ⟨fun a ha => absurd ha (by rw [h0]; exact Nat.not_lt_zero _), fun _ _ => rfl⟩
      obtain ⟨r, t, k2, hseg⟩ := loadSegments_ok (l := elf.places.map (segmentAt file)) hd
        (Nat.zero_le _) hab hbel hnd1
      simp only [hseg]
      cases r with
      | none => exact ⟨none, _, rfl, nofun⟩
      | some sz =>
        refine ⟨some (sz, t), k2, rfl, ?_⟩
        rintro _ _ ⟨⟩
        obtain ⟨ht, hpages, hspec⟩ := loadSegments_spec hd (Nat.zero_le _) hab hbel hnd1 hseg
        obtain ⟨hsz, hab2, hbel2⟩ := hspec sz rfl
        have hnd2 : (k2.free + t.pages).Nodup := by rwa [hpages]
        obtain ⟨-, hholds, hloaded⟩ :=
          loadSegments_holds hfile elf.places hd (Nat.zero_le _) hab hbel hnd1 hm hseg
        rw [← hloads] at hholds hloaded
        refine ⟨hsz, hholds.mapped, hholds.segmentsAt le_rfl hloaded, ?_⟩
        obtain ⟨r', t', k', hst⟩ := makeStack_ok (k := k2) ht hab2 hbel2 hnd2
        refine ⟨r', t', k', hst, ?_⟩
        rintro sz' rfl
        obtain ⟨-, -, hspec'⟩ := makeStack_spec ht hab2 hbel2 hnd2 hst
        obtain ⟨hholds', hsz'⟩ := hholds.makeStack ht hsz hab2 hnd2 hst
        have hle : sz ≤ sz' := by
          simp only [pgroundup, PGSIZE] at hsz'
          omega
        exact ⟨(hspec' sz' rfl).1, hholds'.mapped, hholds'.segmentsAt hle hloaded⟩
    · simp only [hset, bind, Except.bind]
      exact ⟨none, k1, rfl, nofun⟩

/-- A file with two segments, of one byte in the file and two in memory each. The upper one comes
first. -/
def smallFile : List Byte :=
  [0x7F, 0x45, 0x4C, 0x46] ++ List.replicate 24 0 ++ [52, 0, 0, 0] ++ List.replicate 12 0 ++ [2, 0]
    ++ List.replicate 6 0
    ++ [1, 0, 0, 0] ++ [116, 0, 0, 0] ++ [0, 16, 0, 0] ++ List.replicate 4 0
    ++ [1, 0, 0, 0] ++ [2, 0, 0, 0] ++ List.replicate 8 0
    ++ [1, 0, 0, 0] ++ [117, 0, 0, 0] ++ List.replicate 8 0
    ++ [1, 0, 0, 0] ++ [2, 0, 0, 0] ++ List.replicate 8 0
    ++ [42, 43]

def upperHdr : Proghdr := ⟨1, 116, 4096, 1, 2⟩
def lowerHdr : Proghdr := ⟨1, 117, 0, 1, 2⟩

theorem imageOf_small :
    imageOf smallFile = ⟨true, [upperHdr.segment smallFile, lowerHdr.segment smallFile]⟩ ∧
      loads smallFile = [upperHdr, lowerHdr] := by
  have h1 : elfhdr smallFile = some ⟨ELF_MAGIC, 52, 2⟩ := by decide +kernel
  have h2 : proghdr smallFile 52 = some upperHdr := by decide +kernel
  have h2' : proghdr smallFile 84 = some lowerHdr := by decide +kernel
  have h3 : (⟨ELF_MAGIC, 52, 2⟩ : Elfhdr).places = [52, 84] := by decide
  refine ⟨?_, ?_⟩
  · rw [imageOf, h1]
    dsimp only
    rw [h3, List.map_cons, List.map_singleton, segmentAt, segmentAt, h2, h2']
    rfl
  · rw [loads, h1]
    dsimp only
    rw [h3, loadsAt, List.filterMap_cons_some h2, List.filterMap_cons_some h2']
    rfl

theorem loaduvm_one {g : Segment} {v : Nat} (ht : t.Ok) (hpte : t.pte v ≠ none)
    (hfail : g.failsAt = none) : ∃ k', loaduvm t g 1 0 v k = .ok (true, k') := by
  obtain ⟨x, hx⟩ := Option.ne_none_iff_exists'.1 fun hn => hpte (ht.tab v hn)
  obtain ⟨e, he⟩ := Option.ne_none_iff_exists'.1 hpte
  unfold loaduvm
  rw [hx, he, hfail]
  exact ⟨_, rfl⟩

theorem load_small (ly : Layout) (hnd : k.free.Nodup) (hF : 1100 < k.freelist.length) :
    ∃ t k', load ly (imageOf smallFile) k = .ok (some (4098, t), k') := by
  obtain ⟨d, k1, hset, hd, -, hlow, hc, -, hF1⟩ := setupkvm_enough (k := k) ly (by omega)
  have h2 : pgroundup 4098 = 2 := rfl
  have hnd1 : k1.free.Nodup := Multiset.nodup_of_le (hc ▸ Multiset.le_add_right ..) hnd
  obtain ⟨t, k2, hal, ht, -, -, hnew, -⟩ :=
    allocuvm_enough (k := k1) hd (fun v _ hv => hlow v hv) hnd1 (Nat.zero_le 4098) (by decide)
      (by rw [h2]; omega)
  obtain ⟨k3, hup⟩ := loaduvm_one (k := k2) (g := upperHdr.segment smallFile) ht
    (hnew 1 (by decide) (by decide)) (by decide +kernel)
  obtain ⟨k4, hlo⟩ := loaduvm_one (k := k3) (g := lowerHdr.segment smallFile) ht
    (hnew 0 le_rfl (by decide)) (by decide +kernel)
  have hal' : allocuvm t 4098 2 k3 = .ok (4098, t, k3) := rfl
  have hlower : loadSegments [lowerHdr.segment smallFile] 4098 t k3 = .ok (some 4098, t, k4) := by
    unfold loadSegments
    rw [if_neg (by decide), if_neg (by decide), if_neg (by decide), if_neg (by decide)]
    change (allocuvm t 4098 2 k3 >>= _) = _
    rw [hal']
    dsimp only [bind, Except.bind]
    rw [if_neg (by decide), if_neg (by decide)]
    have hn : pgroundup (lowerHdr.segment smallFile).filesz.toNat = 1 := by decide
    have hv : (lowerHdr.segment smallFile).vaddr.toNat / PGSIZE = 0 := by decide
    rw [hn, hv, hlo]
    rfl
  have hsegs : loadSegments [upperHdr.segment smallFile, lowerHdr.segment smallFile] 0 d k1
      = .ok (some 4098, t, k4) := by
    unfold loadSegments
    rw [if_neg (by decide), if_neg (by decide), if_neg (by decide), if_neg (by decide)]
    change (allocuvm d 0 4098 k1 >>= _) = _
    rw [hal]
    dsimp only [bind, Except.bind]
    rw [if_neg (by decide), if_neg (by decide)]
    have hn : pgroundup (upperHdr.segment smallFile).filesz.toNat = 1 := by decide
    have hv : (upperHdr.segment smallFile).vaddr.toNat / PGSIZE = 1 := by decide
    rw [hn, hv, hup]
    exact hlower
  refine ⟨t, k4, ?_⟩
  rw [imageOf_small.1]
  unfold load
  rw [hset, if_neg (by decide)]
  dsimp only [bind, Except.bind]
  rw [hsegs]
  rfl

/-- Both segments are then in memory. -/
theorem exec_loads_small : ∃ t k',
    load someLayout (imageOf smallFile) (freePages 0)
      = .ok (some (4098, t), k') ∧
      t.peek k' 4096 = some 42 ∧ t.peek k' 4097 = some 0 ∧
      t.peek k' 0 = some 43 ∧ t.peek k' 1 = some 0 := by
  have hnd : (freePages 0).free.Nodup := List.nodup_range'
  have hlen : (freePages 0).freelist.length = 2000 := List.length_range'
  generalize freePages 0 = k at hnd hlen ⊢
  obtain ⟨t, k', hload⟩ := load_small someLayout hnd (by omega)
  have hlen : smallFile.length < 2 ^ 32 := by decide
  obtain ⟨r, k1, hload1, h⟩ := exec_loads someLayout hlen hnd
  rw [hload] at hload1
  cases hload1
  obtain ⟨-, -, hbytes, -⟩ := h 4098 t rfl
  have hd : (loads smallFile).Pairwise fun g g' => ∀ a, ¬ (g.Has a ∧ g'.Has a) := by
    rw [imageOf_small.2, List.pairwise_pair]
    rintro a ⟨⟨h1, -⟩, -, h2⟩
    simp only [upperHdr, lowerHdr, BitVec.reduceToNat] at h1 h2
    omega
  have hsegs := hbytes hd
  rw [SegmentsAt, imageOf_small.2] at hsegs
  have hup := hsegs upperHdr List.mem_cons_self
  have hlo := hsegs lowerHdr (List.mem_cons_of_mem _ List.mem_cons_self)
  exact ⟨t, k', hload, (hup 0 (by decide)).2, (hup 1 (by decide)).2, (hlo 0 (by decide)).2,
    (hlo 1 (by decide)).2⟩

end Xv6.Vm
