import Xv6.Vm.Pages

/-!
# Freeing the pages of a range

`deallocuvm` as it goes through the addresses. Where a page table is missing, the loop sets its
index to the last page of the table's 4 MB, and the increment takes it to the next table. The index
is a `uint`; for sizes up to `KERNBASE` it does not wrap. The loop that visits every page instead
has the same effect: both free the pages that are present in the range, each once, and clear their
entries.
-/

namespace Xv6.Vm.Raw

/-- The page tables that are present, by the index in the directory, and their entries as words. The
tables are pages of their own. -/
structure Dir where
  tab : Nat → Option (Nat → Nat)

def PDX (va : Nat) : Nat := va / 2 ^ 22 % 1024
def PTX (va : Nat) : Nat := va / 2 ^ 12 % 1024
def PGADDR (d t o : Nat) : Nat := (d * 2 ^ 22 + t * 2 ^ 12 + o) % 2 ^ 32
def PGROUNDUP (sz : Nat) : Nat := (sz + PGSIZE - 1) % 2 ^ 32 / PGSIZE * PGSIZE
def PTE_ADDR (e : Nat) : Nat := e / PGSIZE * PGSIZE

/-- `walkpgdir` without `alloc`: the entry that the pointer points to. -/
def walkpgdir (d : Dir) (va : Nat) : Option Nat := (d.tab (PDX va)).map fun pgtab => pgtab (PTX va)

/-- `*pte = 0` -/
def Dir.clear (d : Dir) (va : Nat) : Dir where
  tab i := (d.tab i).map fun pgtab j => if i = PDX va ∧ j = PTX va then 0 else pgtab j

/-- The test of `kfree` for the page at physical address `pa`; the kernel ends at `kend`. -/
def Freeable (kend pa : Nat) : Prop := kend ≤ (pa + KERNBASE) % 2 ^ 32 ∧ pa < PHYSTOP

instance (kend pa : Nat) : Decidable (Freeable kend pa) := inferInstanceAs (Decidable (_ ∧ _))

/-- The panic `kfree`, of `deallocuvm` or of `kfree`. -/
inductive Panic where
  | kfree
deriving DecidableEq

/-- The loop of `deallocuvm` from address `a` on, none while it is running. Where there is no page
table, the index becomes `skip a`. -/
def deallocLoop (skip : Nat → Nat) (kend oldsz : Nat) :
    Nat → Nat → Dir → Kmem → Option (Except Panic (Dir × Kmem))
  | 0, _, _, _ => none
  | fuel + 1, a, d, k =>
    if a < oldsz then
      match walkpgdir d a with
      | none => deallocLoop skip kend oldsz fuel ((skip a + PGSIZE) % 2 ^ 32) d k
      | some e =>
        if e % 2 ≠ 0 then
          if PTE_ADDR e = 0 then some (.error .kfree)
          else if ¬ Freeable kend (PTE_ADDR e) then some (.error .kfree)
          else deallocLoop skip kend oldsz fuel ((a + PGSIZE) % 2 ^ 32) (d.clear a)
            (kfree (PTE_ADDR e / PGSIZE) k)
        else deallocLoop skip kend oldsz fuel ((a + PGSIZE) % 2 ^ 32) d k
    else some (.ok (d, k))

/-- `deallocuvm` with a way to skip. -/
def deallocBy (skip : Nat → Nat) (kend fuel : Nat) (d : Dir) (oldsz newsz : Nat) (k : Kmem) :
    Option (Except Panic (Nat × Dir × Kmem)) :=
  if newsz ≥ oldsz then some (.ok (oldsz, d, k))
  else (deallocLoop skip kend oldsz fuel (PGROUNDUP newsz) d k).map fun r => r.map fun r =>
    (newsz, r)

/-- `deallocuvm`: `a = PGADDR(PDX(a) + 1, 0, 0) - PGSIZE` -/
def deallocuvm : Nat → Nat → Dir → Nat → Nat → Kmem → Option (Except Panic (Nat × Dir × Kmem)) :=
  deallocBy fun a => (PGADDR (PDX a + 1) 0 0 + 2 ^ 32 - PGSIZE) % 2 ^ 32

def deallocEach : Nat → Nat → Dir → Nat → Nat → Kmem → Option (Except Panic (Nat × Dir × Kmem)) :=
  deallocBy id

/-! ## What is freed -/

/-- The physical page of page `v`, if it is present. -/
def Dir.page (d : Dir) (v : Nat) : Option Nat :=
  (d.tab (v / 1024)).bind fun pgtab =>
    if pgtab (v % 1024) % 2 ≠ 0 then some (pgtab (v % 1024) / PGSIZE) else none

/-- The directory without the present entries of the pages from `lo` to `hi`. -/
def Dir.without (d : Dir) (lo hi : Nat) : Dir where
  tab i := (d.tab i).map fun pgtab j =>
    if j < 1024 ∧ lo ≤ 1024 * i + j ∧ 1024 * i + j < hi ∧ pgtab j % 2 ≠ 0 then 0 else pgtab j

/-- The pages that are present from `lo` to `hi`. -/
def Dir.present (d : Dir) (lo hi : Nat) : List Nat := (List.range' lo (hi - lo)).filterMap d.page

/-- The entries of user pages refer to pages that can be freed, and no two to the same one. -/
structure Dir.Ok (d : Dir) (kend : Nat) : Prop where
  freeable : ∀ v p, v < KERNPAGE → d.page v = some p → p ≠ 0 ∧ Freeable kend (p * PGSIZE)
  distinct : ∀ v w p, v < KERNPAGE → w < KERNPAGE → d.page v = some p →
    d.page w = some p → v = w

variable {d d' : Dir} {skip : Nat → Nat} {kend oldsz newsz a v v' lo hi fuel : Nat} {k : Kmem}

theorem Dir.ext (h : ∀ i, d.tab i = d'.tab i) : d = d' := by
  cases d
  cases d'
  exact congrArg Dir.mk (funext h)

theorem Dir.present_eq_nil (h : hi ≤ v) : d.present v hi = [] := by
  rw [present, Nat.sub_eq_zero_of_le h]
  rfl

theorem Dir.without_eq (h : hi ≤ v) : d.without v hi = d := by
  refine Dir.ext fun i => ?_
  dsimp only [without]
  cases d.tab i with
  | none => rfl
  | some pgtab => exact congrArg some (funext fun j => if_neg (by omega))

theorem Dir.present_eq (h : v < hi) :
    d.present v hi = (d.page v).toList ++ d.present (v + 1) hi := by
  rw [present, show hi - v = hi - (v + 1) + 1 by omega, List.range'_succ, List.filterMap_cons]
  cases d.page v <;> rfl

theorem pass (hi : Nat) (hle : v ≤ v') (h : ∀ u, v ≤ u → u < v' → d.page u = none) :
    d.without v hi = d.without v' hi ∧ d.present v hi = d.present v' hi := by
  constructor
  · refine Dir.ext fun i => ?_
    dsimp only [Dir.without]
    cases htab : d.tab i with
    | none => rfl
    | some pgtab =>
      refine congrArg some (funext fun j => ?_)
      by_cases hj : j < 1024 ∧ v ≤ 1024 * i + j ∧ 1024 * i + j < v' ∧ pgtab j % 2 ≠ 0
      · -- such an entry would be of a page that is passed over
        have hnone := h (1024 * i + j) hj.2.1 hj.2.2.1
        rw [Dir.page, show (1024 * i + j) / 1024 =
          i by omega, show (1024 * i + j) % 1024 = j by omega, htab,
          Option.bind_some, if_pos hj.2.2.2] at hnone
        cases hnone
      · refine if_congr ⟨?_, ?_⟩ rfl rfl
        · rintro ⟨h1, h2, h3, h4⟩
          exact ⟨h1, not_lt.1 fun hlt => hj ⟨h1, h2, hlt, h4⟩, h3, h4⟩
        · rintro ⟨h1, h2, h3, h4⟩
          exact ⟨h1, hle.trans h2, h3, h4⟩
  · obtain ⟨n, rfl⟩ := Nat.exists_eq_add_of_le hle
    induction n generalizing v with
    | zero => rfl
    | succ n ih =>
      have hrest := ih (v := v + 1) (by omega) fun u h1 h2 => h u (by omega) (by omega)
      rw [show v + (n + 1) = v + 1 + n by omega, ← hrest]
      by_cases hv : v < hi
      · rw [Dir.present_eq hv, h v le_rfl (by omega)]
        rfl
      · rw [Dir.present_eq_nil (by omega), Dir.present_eq_nil (by omega)]

theorem index_page (hv : v < 2 ^ 20) : PDX (v * PGSIZE) = v / 1024 ∧ PTX (v * PGSIZE) =
    v % 1024 := by
  unfold PDX PTX PGSIZE
  omega

theorem page_clear_of_ne {u : Nat} (hv : v < 2 ^ 20) (hne : u ≠ v) :
    (d.clear (v * PGSIZE)).page u = d.page u := by
  dsimp only [Dir.page, Dir.clear]
  rw [(index_page hv).1, (index_page hv).2]
  cases d.tab (u / 1024) with
  | none => rfl
  | some pgtab =>
    have hindex : ¬ (u / 1024 = v / 1024 ∧ u % 1024 = v % 1024) := by omega
    simp only [Option.map_some, Option.bind_some, if_neg hindex]

theorem take {p : Nat} (hv : v < hi) (hv' : v < 2 ^ 20) (hp : d.page v = some p) :
    d.without v hi = (d.clear (v * PGSIZE)).without (v + 1) hi ∧
      d.present v hi = p :: (d.clear (v * PGSIZE)).present (v + 1) hi := by
  constructor
  · refine Dir.ext fun i => ?_
    dsimp only [Dir.without, Dir.clear]
    rw [(index_page hv').1, (index_page hv').2]
    cases htab : d.tab i with
    | none => rfl
    | some pgtab =>
      refine congrArg some (funext fun j => ?_)
      dsimp only
      by_cases hij : i = v / 1024 ∧ j = v % 1024
      · have hset : pgtab j % 2 ≠ 0 := by
          intro hz
          rw [Dir.page, ← hij.1, ← hij.2, htab, Option.bind_some, if_neg (not_not.2 hz)] at hp
          cases hp
        rw [if_pos ⟨by omega, by omega, by omega, hset⟩]
        simp only [if_pos hij, ite_self]
      · simp only [if_neg hij]
        refine if_congr ⟨?_, ?_⟩ rfl rfl
        · rintro ⟨h1, h2, h3, h4⟩
          exact ⟨h1, by omega, h3, h4⟩
        · rintro ⟨h1, h2, h3, h4⟩
          exact ⟨h1, by omega, h3, h4⟩
  · rw [Dir.present_eq hv, hp, Option.toList_some, List.singleton_append]
    refine congrArg (p :: ·) (List.filterMap_congr fun u hu => ?_)
    rw [List.mem_range'_1] at hu
    exact (page_clear_of_ne hv' (by omega)).symm

def Skips (skip : Nat → Nat) : Prop :=
  ∀ a < KERNBASE, a % PGSIZE = 0 → a ≤ skip a ∧ skip a % PGSIZE = 0 ∧
    skip a < (a / 2 ^ 22 + 1) * 2 ^ 22

theorem deallocLoop_spec (hskip : Skips skip) (hold : oldsz ≤ KERNBASE) (hv : v ≤ KERNPAGE)
    (hd : ∀ u p, v ≤ u → u < KERNPAGE → d.page u = some p → p ≠ 0 ∧ Freeable kend (p * PGSIZE))
    (hfuel : pgroundup oldsz - v < fuel) :
    deallocLoop skip kend oldsz fuel (v * PGSIZE) d k = some (.ok (d.without v (pgroundup oldsz),
      (d.present v (pgroundup oldsz)).foldl (fun k p => kfree p k) k)) := by
  induction fuel generalizing v d k with
  | zero => exact absurd hfuel (Nat.not_lt_zero _)
  | succ fuel ih =>
    rw [KERNPAGE_eq] at hv
    rw [deallocLoop]
    by_cases hlt : v * PGSIZE < oldsz
    · have hround : v < pgroundup oldsz := by
        unfold pgroundup PGSIZE at *
        omega
      have hvk : v < KERNPAGE := by
        rw [KERNPAGE_eq]
        unfold KERNBASE PGSIZE at *
        omega
      have hv' : v < 2 ^ 20 := by omega
      have hnext : (v * PGSIZE + PGSIZE) % 2 ^ 32 = (v + 1) * PGSIZE := by
        unfold PGSIZE
        omega
      rw [if_pos hlt, walkpgdir, (index_page hv').1, (index_page hv').2]
      cases htab : d.tab (v / 1024) with
      | none =>
        -- the index goes to a page of the same table, and from there to the next one
        obtain ⟨h1, h2, h3⟩ := hskip (v * PGSIZE) (by omega) (Nat.mul_mod_left _ _)
        obtain ⟨w, hw⟩ : ∃ w, skip (v * PGSIZE) = w * PGSIZE :=
          ⟨skip (v * PGSIZE) / PGSIZE, (Nat.div_mul_cancel (Nat.dvd_of_mod_eq_zero h2)).symm⟩
        rw [hw] at h1 h3
        have hvw : v ≤ w ∧ w / 1024 = v / 1024 := by
          unfold PGSIZE at h1 h3
          omega
        have hwk : w + 1 ≤ KERNPAGE := by
          rw [KERNPAGE_eq] at hvk ⊢
          omega
        have hto : (w * PGSIZE + PGSIZE) % 2 ^ 32 = (w + 1) * PGSIZE := by
          rw [KERNPAGE_eq] at hwk
          unfold PGSIZE
          omega
        have hpass := pass (d := d) (pgroundup oldsz) (show v ≤ w + 1 by omega) fun u h1 h2 => by
          rw [Dir.page, show u / 1024 = v / 1024 by omega, htab]
          rfl
        dsimp only [Option.map_none]
        rw [hw, hto, ih hwk (fun u p hu => hd u p (by omega)) (by omega), hpass.1, hpass.2]
      | some pgtab =>
        dsimp only [Option.map_some]
        split
        · next hset =>
          have hp : d.page v = some (pgtab (v % 1024) / PGSIZE) := by
            rw [Dir.page, htab, Option.bind_some, if_pos hset]
          obtain ⟨hne, hfree⟩ := hd v _ le_rfl hvk hp
          have htake := take hround hv' hp
          have hpa : PTE_ADDR (pgtab (v % 1024)) = pgtab (v % 1024) / PGSIZE * PGSIZE := rfl
          rw [hpa, if_neg (Nat.mul_ne_zero hne (by decide)), if_neg (not_not.2 hfree), hnext,
            ih hvk (fun u p hu hu' hpage => hd u p (by omega) hu' (by
              rwa [page_clear_of_ne hv' (by omega)] at hpage)) (by omega), htake.1, htake.2,
            List.foldl_cons, Nat.mul_div_cancel _ (by decide)]
        · next hset =>
          have hpass := pass (d := d) (pgroundup oldsz) (Nat.le_add_right v 1) fun u h1 h2 => by
            obtain rfl : u = v := by omega
            rw [Dir.page, htab, Option.bind_some, if_neg hset]
          rw [hnext, ih hvk (fun u p hu => hd u p (by omega)) (by omega), hpass.1, hpass.2]
    · have hround : pgroundup oldsz ≤ v := by
        unfold pgroundup PGSIZE at *
        omega
      rw [if_neg hlt, Dir.present_eq_nil hround, Dir.without_eq hround]
      rfl

theorem skips_table : Skips fun a => (PGADDR (PDX a + 1) 0 0 + 2 ^ 32 - PGSIZE) % 2 ^ 32 := by
  intro a ha hmod
  dsimp only [PGADDR, PDX, PGSIZE, KERNBASE] at *
  omega

theorem skips_id : Skips id := by
  intro a _ hmod
  unfold PGSIZE at *
  dsimp only [id]
  omega

theorem deallocBy_spec (hskip : Skips skip) (hd : d.Ok kend) (hold : oldsz ≤ KERNBASE)
    (hlt : newsz < oldsz)
    (hfuel : KERNPAGE < fuel) : deallocBy skip kend fuel d oldsz newsz k =
      some (.ok (newsz, d.without (pgroundup newsz) (pgroundup oldsz),
        (d.present (pgroundup newsz) (pgroundup oldsz)).foldl (fun k p => kfree p k) k)) := by
  have hround : PGROUNDUP newsz = pgroundup newsz * PGSIZE := by
    unfold PGROUNDUP pgroundup PGSIZE KERNBASE at *
    omega
  have hpages : pgroundup oldsz ≤ KERNPAGE ∧ pgroundup newsz ≤ KERNPAGE := by
    rw [KERNPAGE_eq]
    unfold pgroundup PGSIZE KERNBASE at *
    omega
  rw [deallocBy, if_neg (by omega), hround, deallocLoop_spec hskip hold hpages.2
    (fun u p _ => hd.freeable u p) (by omega)]
  rfl

/-- `deallocuvm` ends, and has the effect of the loop that visits every page: the pages that are
present in the range are freed, each once, their entries are cleared, and nothing else changes. -/
theorem deallocuvm_frees (hd : d.Ok kend) (hold : oldsz ≤ KERNBASE) (k : Kmem)
    (hfuel : KERNPAGE < fuel) :
    deallocuvm kend fuel d oldsz newsz k = deallocEach kend fuel d oldsz newsz k ∧
    (newsz ≥ oldsz → deallocuvm kend fuel d oldsz newsz k = some (.ok (oldsz, d, k))) ∧
    (newsz < oldsz → deallocuvm kend fuel d oldsz newsz k =
      some (.ok (newsz, d.without (pgroundup newsz) (pgroundup oldsz),
        (d.present (pgroundup newsz) (pgroundup oldsz)).foldl (fun k p => kfree p k) k))) ∧
    (d.present (pgroundup newsz) (pgroundup oldsz)).Nodup := by
  refine ⟨?_, fun hge => if_pos hge, fun hlt => deallocBy_spec skips_table hd hold hlt hfuel, ?_⟩
  · by_cases hlt : newsz < oldsz
    · exact (deallocBy_spec skips_table hd hold hlt hfuel).trans
        (deallocBy_spec skips_id hd hold hlt hfuel).symm
    · exact (if_pos (not_lt.1 hlt)).trans (if_pos (not_lt.1 hlt)).symm
  · have hpages : pgroundup oldsz ≤ KERNPAGE := by
      rw [KERNPAGE_eq]
      unfold pgroundup PGSIZE KERNBASE at *
      omega
    refine List.pairwise_filterMap.2
      (List.Pairwise.imp_of_mem (fun {v w} hv hw hne => ?_) List.nodup_range')
    rintro p hp _ hq rfl
    rw [List.mem_range'_1] at hv hw
    exact hne (hd.distinct v w p (by omega) (by omega) hp hq)

/-- A directory without table 0, with the first two pages of table 1. -/
def twoPages : Dir where
  tab i := if i = 1 then some fun j => if j < 2 then (j + 1) * PGSIZE + 7 else 0 else none

theorem page_twoPages {p : Nat} (h : twoPages.page v = some p) :
    v / 1024 = 1 ∧ v % 1024 < 2 ∧ p = v % 1024 + 1 := by
  dsimp only [Dir.page, twoPages] at h
  split at h
  · next h1 =>
    rw [Option.bind_some] at h
    by_cases h2 : v % 1024 < 2
    · simp only [if_pos h2, PGSIZE, Option.ite_none_right_eq_some, Option.some.injEq] at h
      omega
    · simp only [if_neg h2] at h
      cases h
  · cases h

theorem ok_twoPages : twoPages.Ok 0 := by
  refine ⟨fun v p _ h => ?_, fun v w p _ _ h h' => ?_⟩
  · obtain ⟨-, h2, rfl⟩ := page_twoPages h
    refine ⟨by omega, Nat.zero_le _, ?_⟩
    unfold PGSIZE PHYSTOP
    omega
  · obtain ⟨h1, -, h3⟩ := page_twoPages h
    obtain ⟨h1', -, h3'⟩ := page_twoPages h'
    omega

/-- Shrinking to nothing. -/
theorem deallocuvm_frees_two : ∃ d' k',
    deallocuvm 0 (KERNPAGE + 1) twoPages (2 ^ 22 + 2 ^ 13) 0 ⟨[], fun _ _ => 0⟩ =
      some (.ok (0, d', k')) ∧
      k'.freelist = [2, 1] := by
  obtain ⟨-, -, h, -⟩ := deallocuvm_frees ok_twoPages
    (show 2 ^ 22 + 2 ^ 13 ≤ KERNBASE by decide) ⟨[], fun _ _ => 0⟩ (Nat.lt_succ_self KERNPAGE)
  have hpages : twoPages.present (pgroundup 0) (pgroundup (2 ^ 22 + 2 ^ 13)) = [1, 2] := by
    decide +kernel
  refine ⟨_, _, h (by decide), ?_⟩
  rw [hpages]
  rfl

end Xv6.Vm.Raw
