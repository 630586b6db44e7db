import Xv6.Vm.Pages

/-!
# New address spaces

`setupkvm` and `copyuvm`: what they build, what they allocate, and what is left when memory runs
out. The kernel's mappings take 64 page tables, and a user page takes one more for every 1024. When
`mappages` fails in `copyuvm`, the page that was allocated to be mapped is not freed.
-/

namespace Xv6.Vm

open Finset

variable {t t' d : Pgdir} {k k' : Kmem} {v n : Nat}

/-! ## Counting -/

def Pgdir.tabs (t : Pgdir) : Finset Nat := (range NPDENTRIES).filter fun i => (t.tab i).isSome

def Pgdir.users (t : Pgdir) : Finset Nat := (range KERNPAGE).filter fun v => (t.pte v).isSome

theorem Pgdir.card_pages (t : Pgdir) : t.pages.card = 1 + t.tabs.card + t.users.card := by
  have hf : ∀ v, (t.frame v).isSome = (t.pte v).isSome := fun v => by simp [frame]
  rw [pages, Multiset.card_add, Multiset.card_add, Multiset.card_singleton, Lib.card_held,
    Lib.card_held, tabs, users]
  simp only [hf]

theorem Kmem.card_free (k : Kmem) : k.free.card = k.freelist.length := Multiset.coe_card _

theorem Kmem.free_eq_zero (h : k.freelist = []) : k.free = 0 := by
  rw [free, h]
  rfl

def kernTabs : Finset Nat := Ico 512 568 ∪ Ico 1016 1024

theorem card_kernTabs : kernTabs.card = 64 := by
  decide +kernel

theorem tab_eq_none (h : t.tabs = kernTabs) {j : Nat} (hj : j < 1024) (hn : j ∉ kernTabs) :
    t.tab j = none := by
  by_contra hne
  refine hn (h ▸ ?_)
  rw [Pgdir.tabs, mem_filter, mem_range, NPDENTRIES_eq]
  exact ⟨hj, Option.isSome_iff_ne_none.2 hne⟩

/-! ## setupkvm -/

/-- Page `x` is in one of the ranges of `l`. -/
def Covers (l : List (Nat × Nat × Nat × Bool)) (x : Nat) : Prop :=
  ∃ e ∈ l, e.1 ≤ x ∧ x < e.1 + e.2.1

structure Fits (l : List (Nat × Nat × Nat × Bool)) (t : Pgdir) : Prop where
  ok : t.Ok
  range : ∀ e ∈ l, KERNPAGE ≤ e.1 ∧ e.1 + e.2.1 ≤ NPDENTRIES * NPDENTRIES
  empty : ∀ x, Covers l x → t.pte x = none
  apart : l.Pairwise fun a b => a.1 + a.2.1 ≤ b.1

theorem mapAll_spec (l : List (Nat × Nat × Nat × Bool)) (t : Pgdir) (k : Kmem) (h : Fits l t) :
    ∃ o k', mapAll l t k = .ok (o, k') ∧
      (∀ q, q ∉ k.free + t.pages → k'.mem q = k.mem q) ∧
      ((∃ d, o = some d ∧ d.Ok ∧ (∀ x < KERNPAGE, d.pte x = t.pte x) ∧
          (∀ i, d.tab i = none ↔ t.tab i = none ∧ ∀ x, Covers l x → i ≠ x / NPDENTRIES) ∧
          k'.free + d.pages = k.free + t.pages) ∨
        (o = none ∧ k'.free = k.free + t.pages ∧
          ∃ d : Pgdir, d.pages = k.free + t.pages ∧ (∀ x < KERNPAGE, d.pte x = t.pte x) ∧
            (∀ i, d.tab i ≠ none → t.tab i ≠ none ∨ ∃ x, Covers l x ∧ i = x / NPDENTRIES) ∧
            ∃ x, Covers l x ∧ d.tab (x / NPDENTRIES) = none)) := by
  induction l generalizing t k with
  | nil =>
    refine ⟨some t, k, rfl, fun _ _ => rfl, .inl ⟨t, rfl, h.ok, fun _ _ => rfl, fun i => ?_, rfl⟩⟩
    refine ⟨fun hi => ⟨hi, ?_⟩, And.left⟩
    rintro x ⟨e, he, -⟩
    cases he
  | cons a l ih =>
    obtain ⟨virt, num, phys, w⟩ := a
    obtain ⟨hr1, hr2⟩ := h.range _ List.mem_cons_self
    obtain ⟨hap, hapart⟩ := List.pairwise_cons.1 h.apart
    have hhere : ∀ x, virt ≤ x → x < virt + num → Covers ((virt, num, phys, w) :: l) x :=
      fun x h1 h2 => ⟨_, List.mem_cons_self, h1, h2⟩
    have hthere : ∀ x, Covers l x → Covers ((virt, num, phys, w) :: l) x := by
      rintro x ⟨e, he, hx⟩
      exact ⟨e, List.mem_cons_of_mem _ he, hx⟩
    obtain ⟨r, t1, k1, m, hmap, ht1, hp1, hm1, hc1, hpte1, htab1, hmn, htrue, hfalse⟩ :=
      mapKernel_spec (w := w) (f := 0) num t virt phys k h.ok hr1 hr2 fun x h1 h2 =>
        h.empty x (hhere x h1 h2)
    have hlow : ∀ x < KERNPAGE, t1.pte x = t.pte x := fun x hx => hpte1 x (by omega)
    cases r with
    | true =>
      have hmeq := htrue rfl
      have hfits : Fits l t1 := by
        refine ⟨ht1, fun e he => h.range e (List.mem_cons_of_mem _ he), fun x hx => ?_, hapart⟩
        obtain ⟨e, he, hx1, hx2⟩ := hx
        have := hap e he
        rw [hpte1 x (by dsimp only at this; omega)]
        exact h.empty x (hthere x ⟨e, he, hx1, hx2⟩)
      obtain ⟨o, k2, hall, hm2, hres⟩ := ih t1 k1 hfits
      have hmem : ∀ q, q ∉ k.free + t.pages → k2.mem q = k.mem q := by
        intro q hq
        rw [← hc1] at hq
        rw [hm2 q hq, hm1]
      refine ⟨o, k2, by simp only [mapAll, hmap, bind, Except.bind, if_true, hall], hmem, ?_⟩
      rcases hres with ⟨d, rfl, hd, hlow2, htab2, hc2⟩ | ⟨rfl, hfree, d, hc2, hlow2, hsub, hmiss⟩
      · refine .inl ⟨d, rfl, hd, fun x hx => (hlow2 x hx).trans (hlow x hx), fun i => ?_,
          hc2.trans hc1⟩
        rw [htab2, htab1, hmeq]
        constructor
        · rintro ⟨⟨h1, h2⟩, h3⟩
          refine ⟨h1, ?_⟩
          rintro x ⟨e, he, hx1, hx2⟩
          rcases List.mem_cons.1 he with rfl | he
          · exact h2 x hx1 hx2
          · exact h3 x ⟨e, he, hx1, hx2⟩
        · rintro ⟨h1, h2⟩
          exact ⟨⟨h1, fun x hx1 hx2 => h2 x (hhere x hx1 hx2)⟩, fun x hx => h2 x (hthere x hx)⟩
      · refine .inr ⟨rfl, hfree.trans hc1, d, hc2.trans hc1,
          fun x hx => (hlow2 x hx).trans (hlow x hx), fun i hi => ?_, ?_⟩
        · rcases hsub i hi with hi1 | ⟨x, hx, rfl⟩
          · by_contra hno
            simp only [not_or, ne_eq, not_not, not_exists, not_and] at hno
            refine hi1 ((htab1 i).2 ⟨hno.1, fun x hx1 hx2 => hno.2 x (hhere x hx1 ?_)⟩)
            omega
          · exact .inr ⟨x, hthere x hx, rfl⟩
        · obtain ⟨x, hx, hnone⟩ := hmiss
          exact ⟨x, hthere x hx, hnone⟩
    | false =>
      obtain ⟨hl, hlt, hnone⟩ := hfalse rfl
      obtain ⟨hfree, hmem⟩ := freevm_spec ht1 k1
      refine ⟨none, freevm t1 k1, by
          simp only [mapAll, hmap, bind, Except.bind, pure, Except.pure, Bool.false_eq_true,
            if_false],
        fun q hq => ?_, .inr ⟨rfl, hfree.trans hc1, t1, ?_, hlow, fun i hi => ?_,
        virt + m, hhere _ (by omega) (by omega), hnone⟩⟩
      · rw [← hc1, Multiset.mem_add, not_or] at hq
        rw [hmem q hq.2, hm1]
      · rw [← hc1, Kmem.free_eq_zero hl, zero_add]
      · by_contra hno
        simp only [not_or, ne_eq, not_not, not_exists, not_and] at hno
        refine hi ((htab1 i).2 ⟨hno.1, fun x hx1 hx2 => hno.2 x (hhere x hx1 ?_)⟩)
        omega

theorem kmap_fits (ly : Layout) (pg : Nat) :
    Fits (kmap ly) ⟨pg, fun _ => none, fun _ => none⟩ := by
  have hlo := ly.lo
  have hhi := ly.hi
  simp only [EXTPAGE, EXTMEM, TOPPAGE, PHYSTOP, PGSIZE, Nat.reduceDiv] at hlo hhi
  refine ⟨⟨fun _ _ => rfl, nofun⟩, ?_, fun _ _ => rfl, ?_⟩
  · simp only [kmap, List.mem_cons, List.not_mem_nil, or_false, forall_eq_or_imp, forall_eq,
      KERNPAGE_eq, NPDENTRIES_eq, EXTPAGE, EXTMEM, TOPPAGE, PHYSTOP, PGSIZE, DEVPAGE, DEVSPACE]
    omega
  · simp only [kmap, List.pairwise_cons, List.mem_cons, List.not_mem_nil, or_false,
      forall_eq_or_imp, forall_eq, KERNPAGE_eq, EXTPAGE, EXTMEM, TOPPAGE, PHYSTOP, PGSIZE, DEVPAGE,
      DEVSPACE, List.Pairwise.nil, and_true, false_implies, implies_true]
    omega

theorem covers_kmap (ly : Layout) {i : Nat} :
    (∃ x, Covers (kmap ly) x ∧ i = x / NPDENTRIES) ↔ i ∈ kernTabs := by
  have hlo := ly.lo
  have hhi := ly.hi
  simp only [EXTPAGE, EXTMEM, TOPPAGE, PHYSTOP, PGSIZE, Nat.reduceDiv] at hlo hhi
  have hc : ∀ x, Covers (kmap ly) x ↔
      (524288 ≤ x ∧ x < 581632) ∨ (1040384 ≤ x ∧ x < 1048576) := by
    intro x
    simp only [Covers, kmap, List.mem_cons, List.not_mem_nil, or_false, exists_eq_or_imp,
      exists_eq_left, KERNPAGE_eq, EXTPAGE, EXTMEM, TOPPAGE, PHYSTOP, PGSIZE, DEVPAGE, DEVSPACE]
    omega
  simp only [hc, kernTabs, mem_union, mem_Ico, NPDENTRIES_eq]
  constructor
  · rintro ⟨x, hx, rfl⟩
    omega
  · intro hi
    exact ⟨i * 1024, by omega, by omega⟩

theorem setupkvm_spec (ly : Layout) (k : Kmem) :
    ∃ o k', setupkvm ly k = .ok (o, k') ∧ (∀ q, q ∉ k.free → k'.mem q = k.mem q) ∧
      ((∃ d, o = some d ∧ d.Ok ∧ d.users = ∅ ∧ d.tabs = kernTabs ∧
          (∀ x < KERNPAGE, d.pte x = none) ∧ (∀ i < 512, d.tab i = none) ∧
          k'.free + d.pages = k.free) ∨
        (o = none ∧ k'.free = k.free ∧ k.freelist.length < 65)) := by
  unfold setupkvm
  cases hk : kalloc k with
  | none =>
    refine ⟨none, k, rfl, fun _ _ => rfl, .inr ⟨rfl, rfl, ?_⟩⟩
    rw [kalloc_none hk]
    decide
  | some a =>
    obtain ⟨pg, k1⟩ := a
    obtain ⟨hl, hfree, hmem⟩ := kalloc_some hk
    have hpages : (⟨pg, fun _ => none, fun _ => none⟩ : Pgdir).pages = {pg} := by
      have hfr : (⟨pg, fun _ => none, fun _ => none⟩ : Pgdir).frame = fun _ => none := rfl
      rw [Pgdir.pages, hfr, Lib.held_none, Lib.held_none, add_zero, add_zero]
    have hsub : kernTabs ⊆ range NPDENTRIES := by
      intro i hi
      simp only [kernTabs, mem_union, mem_Ico, mem_range, NPDENTRIES_eq] at hi ⊢
      omega
    have husers : ∀ d : Pgdir, (∀ x < KERNPAGE, d.pte x = none) → d.users = ∅ := by
      intro d hd
      refine filter_eq_empty_iff.2 fun x hx => ?_
      rw [hd x (mem_range.1 hx)]
      decide
    obtain ⟨o, k2, hall, hm2, hres⟩ := mapAll_spec (kmap ly) _ k1 (kmap_fits ly pg)
    rw [hpages] at hm2 hres
    refine ⟨o, k2, hall, fun q hq => ?_, ?_⟩
    · rw [hfree] at hq
      rw [hm2 q hq, hmem]
    · rcases hres with ⟨d, rfl, hd, hlow, htab, hc⟩ | ⟨rfl, hc, d, hdc, hlow, hin, x, hx, hnone⟩
      · have hiff : ∀ i, d.tab i = none ↔ i ∉ kernTabs := by
          intro i
          rw [htab, ← covers_kmap ly]
          simp only [true_and, not_exists, not_and, ne_eq]
        refine .inl ⟨d, rfl, hd, husers d hlow, ?_, hlow, fun i hi => ?_, hc.trans hfree.symm⟩
        · ext i
          simp only [Pgdir.tabs, mem_filter, Option.isSome_iff_ne_none, ne_eq, hiff, not_not]
          exact ⟨And.right, fun hi => ⟨hsub hi, hi⟩⟩
        · refine (hiff i).2 fun hik => ?_
          simp only [kernTabs, mem_union, mem_Ico] at hik
          omega
      · -- a table of the kernel is missing and no page is free
        refine .inr ⟨rfl, hc.trans hfree.symm, ?_⟩
        have hss : d.tabs ⊂ kernTabs := by
          refine Finset.ssubset_iff_subset_ne.2 ⟨fun i hi => ?_, fun heq => ?_⟩
          · simp only [Pgdir.tabs, mem_filter, Option.isSome_iff_ne_none] at hi
            rcases hin i hi.2 with hno | hcov
            · exact absurd rfl hno
            · exact (covers_kmap ly).1 hcov
          · have hxk : x / NPDENTRIES ∈ d.tabs := by
              rw [heq]
              exact (covers_kmap ly).1 ⟨x, hx, rfl⟩
            simp only [Pgdir.tabs, mem_filter, hnone] at hxk
            exact absurd hxk.2 (by decide)
        have hlt := card_lt_card hss
        have hcard := congrArg Multiset.card hdc
        rw [d.card_pages, husers d hlow, card_empty, ← hfree, Kmem.card_free] at hcard
        rw [card_kernTabs] at hlt
        omega

/-! ## copyuvm -/

theorem copyLoop_spec (ht : t.Ok) (n i : Nat) (d : Pgdir) (k : Kmem) (hd : d.Ok)
    (hi : i + n ≤ KERNPAGE) (hdst : ∀ x, i ≤ x → x < i + n → d.pte x = none) :
    (copyLoop t n i d k = .error .copyuvm ∧ ∃ x < i + n, t.pte x = none) ∨
    ∃ r d' k' m lost, copyLoop t n i d k = .ok (r, d', k') ∧ d'.Ok ∧ m ≤ n ∧
      (∀ x, d'.pte x ≠ none ↔ d.pte x ≠ none ∨ (i ≤ x ∧ x < i + m)) ∧
      (∀ j, d'.tab j = none ↔ d.tab j = none ∧ ∀ x, i ≤ x → x < i + m → j ≠ x / NPDENTRIES) ∧
      (∀ q, q ∉ k.free → k'.mem q = k.mem q) ∧
      k'.free + d'.pages + Lib.unit lost = k.free + d.pages ∧
      (r = true → m = n ∧ lost = none) ∧
      (r = false → k'.freelist = [] ∧ m < n ∧
        (lost ≠ none → d'.tab ((i + m) / NPDENTRIES) = none)) := by
  have hzero : ∀ (d : Pgdir) (i x : Nat),
      d.pte x ≠ none ↔ d.pte x ≠ none ∨ (i ≤ x ∧ x < i + 0) :=
    fun d i x => ⟨.inl, fun h => h.resolve_right (by omega)⟩
  induction n generalizing i d k with
  | zero =>
    exact .inr ⟨true, d, k, 0, none, rfl, hd, le_rfl, hzero d i, tabs_zero d i,
      fun _ _ => rfl, add_zero _, fun _ => ⟨rfl, rfl⟩, nofun⟩
  | succ n ih =>
    cases he : t.pte i with
    | none =>
      refine .inl ⟨?_, i, by omega, he⟩
      unfold copyLoop
      rw [he]
      cases t.tab (i / NPDENTRIES) <;> rfl
    | some e =>
      have htab : t.tab (i / NPDENTRIES) ≠ none := by
        intro h
        rw [ht.tab i h] at he
        cases he
      obtain ⟨pgtab, htab⟩ := Option.ne_none_iff_exists'.1 htab
      unfold copyLoop
      rw [htab, he]
      dsimp only
      cases hk : kalloc k with
      | none =>
        exact .inr ⟨false, d, k, 0, none, rfl, hd, Nat.zero_le _, hzero d i, tabs_zero d i,
          fun _ _ => rfl, add_zero _, nofun, fun _ => ⟨kalloc_none hk, Nat.succ_pos n, nofun⟩⟩
      | some a =>
        obtain ⟨q, k1⟩ := a
        obtain ⟨-, hfree, hmem⟩ := kalloc_some hk
        have hqin : q ∈ k.free := by simp [hfree]
        have hfill : ∀ c : Page, ∀ q', q' ∉ k.free → (k1.fill q c).mem q' = k.mem q' := by
          intro c q' hq'
          have hqq : q' ≠ q := fun h => hq' (h ▸ hqin)
          rw [← hmem]
          exact Function.update_of_ne hqq ..
        dsimp only
        rcases mapUser_spec (w := e.w) (u := e.u) (f := e.rest) q hd (v := i) (by omega)
            (hdst i le_rfl (by omega)) (k1.fill q (k1.mem e.pa)) with
          ⟨hmap, hl, hnone⟩ | ⟨d2, k2, hmap, hd2, -, hpte2, hm2, hle, hc2, htab2⟩
        · refine .inr ⟨false, d, k1.fill q (k1.mem e.pa), 0, some q, ?_, hd, Nat.zero_le _,
            hzero d i, tabs_zero d i, hfill _, ?_, nofun,
            fun _ => ⟨hl, Nat.succ_pos n, fun _ => hnone⟩⟩
          · rw [hmap]
            rfl
          · rw [hfree, free_fill, Lib.unit_some]
            abel
        · have hne : ∀ x, x ≠ i → d2.pte x = d.pte x := by
            intro x hx
            rw [hpte2, Function.update_of_ne hx]
          have hself : d2.pte i ≠ none := by
            rw [hpte2, Function.update_self]
            exact Option.some_ne_none _
          rcases ih (i + 1) d2 k2 hd2 (by omega)
              fun x h1 h2 => (hne x (by omega)).trans (hdst x (by omega) (by omega)) with
            ⟨herr, x, hx, hxn⟩ | ⟨r, d3, k3, m, lost, hloop, hd3, hmn, hpte3, htab3, hm3, hc3,
              htrue, hfalse⟩
          · refine .inl ⟨?_, x, by omega, hxn⟩
            rw [hmap]
            exact herr
          refine .inr ⟨r, d3, k3, m + 1, lost, ?_, hd3, by omega, fun x => ?_,
            tabs_succ htab2 htab3, fun q' hq' => ?_, ?_,
            fun h => ⟨by rw [(htrue h).1], (htrue h).2⟩, fun h => ?_⟩
          · rw [hmap]
            exact hloop
          · rw [hpte3]
            by_cases hx : x = i
            · subst hx
              exact ⟨fun _ => .inr (by omega), fun _ => .inl hself⟩
            · rw [hne x hx]
              refine or_congr_right ?_
              omega
          · have hq2 : q' ∉ k2.free := fun hin =>
              hq' (by rw [hfree]; exact Multiset.mem_add.2 (.inl (Multiset.mem_of_le hle hin)))
            rw [hm3 q' hq2, hm2, hfill _ q' hq']
          · rw [hc3, hc2, hfree, free_fill]
            abel
          · obtain ⟨h1, h2, h3⟩ := hfalse h
            exact ⟨h1, by omega, fun hl => by
              rw [show i + (m + 1) = i + 1 + m by omega]
              exact h3 hl⟩

/-- With `free` free pages, the copy of `n` pages fails to get a page table. -/
def Leaks (free n : Nat) : Prop := ∃ j, 1024 * j < n ∧ free = 66 + 1025 * j

/-- `copyuvm` panics at a page that is not present, takes what the new directory has, or fails. When
it fails it gives back everything but a page whose table it could not allocate. -/
theorem copyuvm_spec (ly : Layout) (ht : t.Ok) {sz : Nat} (hsz : pgroundup sz ≤ KERNPAGE)
    (k : Kmem) :
    (copyuvm ly t sz k = .error .copyuvm ∧ ∃ x < pgroundup sz, t.pte x = none) ∨
    ∃ o k', copyuvm ly t sz k = .ok (o, k') ∧ (∀ q, q ∉ k.free → k'.mem q = k.mem q) ∧
      ((∃ d, o = some d ∧ d.Ok ∧ (∀ x < KERNPAGE, d.pte x ≠ none ↔ x < pgroundup sz) ∧
          k'.free + d.pages = k.free ∧ ¬ Leaks k.freelist.length (pgroundup sz)) ∨
        (o = none ∧ k.freelist.length < 67 + 2 * pgroundup sz ∧
          ∃ lost, k'.free + Lib.unit lost = k.free ∧
            (lost ≠ none ↔ Leaks k.freelist.length (pgroundup sz)))) := by
  obtain ⟨o, k1, hset, hm1, hres⟩ := setupkvm_spec ly k
  rcases hres with ⟨d, rfl, hd, -, htabs, hlow, htablow, hc⟩ | ⟨rfl, hfree, hlt⟩
  · rcases copyLoop_spec ht (pgroundup sz) 0 d k1 hd (by omega)
        fun x _ hx => hlow x (by omega) with
      ⟨herr, x, hx, hxn⟩ | ⟨r, d2, k2, m, lost, hloop, hd2, hmn, hpte, htab, hm2, hc2, htrue,
        hfalse⟩
    · refine .inl ⟨?_, x, by omega, hxn⟩
      simp only [copyuvm, hset, herr, bind, Except.bind]
    have hK := KERNPAGE_eq
    -- the new directory has `m` user pages and a table for every 1024 of them
    have husers : d2.users = range m := by
      ext x
      simp only [Pgdir.users, mem_filter, mem_range, Option.isSome_iff_ne_none, hpte]
      constructor
      · rintro ⟨hx, h | h⟩
        · exact absurd (hlow x hx) h
        · omega
      · intro hx
        exact ⟨by omega, .inr (by omega)⟩
    have htabs2 : d2.tabs = kernTabs ∪ range ((m + 1023) / 1024) := by
      ext j
      have hj : j ∈ kernTabs ↔ j < NPDENTRIES ∧ d.tab j ≠ none := by
        rw [← htabs]
        simp only [Pgdir.tabs, mem_filter, mem_range, Option.isSome_iff_ne_none]
      rw [mem_union, hj]
      simp only [Pgdir.tabs, mem_filter, mem_range, Option.isSome_iff_ne_none, ne_eq, htab,
        not_and, not_forall, not_not, NPDENTRIES_eq]
      constructor
      · rintro ⟨hj, hno⟩
        by_cases hdj : d.tab j = none
        · obtain ⟨x, -, hx, rfl⟩ := hno hdj
          exact .inr (by omega)
        · exact .inl ⟨hj, hdj⟩
      · rintro (⟨hj, hdj⟩ | hjm)
        · exact ⟨hj, fun h => absurd h hdj⟩
        · exact ⟨by omega, fun _ => ⟨j * 1024, Nat.zero_le _, by omega, by omega⟩⟩
    have hdisj : Disjoint kernTabs (range ((m + 1023) / 1024)) := by
      rw [disjoint_left]
      intro j hj hjm
      simp only [kernTabs, mem_union, mem_Ico, mem_range] at hj hjm
      omega
    have hcard : k.freelist.length = k2.freelist.length + 65 + (m + 1023) / 1024 + m
        + (Lib.unit lost).card := by
      have h := congrArg Multiset.card (hc2.trans hc)
      rw [Multiset.card_add, Multiset.card_add, d2.card_pages, husers, htabs2,
        card_union_of_disjoint hdisj, card_kernTabs, card_range, card_range, Kmem.card_free,
        Kmem.card_free] at h
      omega
    have hmem : ∀ q, q ∉ k.free → k2.mem q = k.mem q := by
      intro q hq
      have hq1 : q ∉ k1.free := fun h => hq (by rw [← hc]; exact Multiset.mem_add.2 (.inl h))
      rw [hm2 q hq1, hm1 q hq]
    cases r with
    | true =>
      obtain ⟨hmeq, rfl⟩ := htrue rfl
      refine .inr ⟨some d2, k2, ?_, hmem, .inl ⟨d2, rfl, hd2, fun x hx => ?_, ?_, ?_⟩⟩
      · simp only [copyuvm, hset, hloop, bind, Except.bind, pure, Except.pure, if_true]
      · rw [hpte, hlow x hx]
        simp only [ne_eq, not_true_eq_false, false_or]
        omega
      · rw [Lib.unit_none, add_zero] at hc2
        exact hc2.trans hc
      · rintro ⟨j, hj, hF⟩
        rw [Lib.unit_none, Multiset.card_zero] at hcard
        omega
    | false =>
      obtain ⟨hl, hlt, hmiss⟩ := hfalse rfl
      obtain ⟨hfree, hfm⟩ := freevm_spec hd2 k2
      have hpg : ∀ q, q ∈ d2.pages → q ∈ k.free := by
        intro q hq
        rw [← hc, ← hc2]
        exact Multiset.mem_add.2 (.inl (Multiset.mem_add.2 (.inr hq)))
      refine .inr ⟨none, freevm d2 k2, ?_, fun q hq => ?_, .inr ⟨rfl, ?_, lost, ?_, ?_⟩⟩
      · simp [copyuvm, hset, hloop, bind, Except.bind, pure, Except.pure]
      · rw [hfm q fun h => hq (hpg q h), hmem q hq]
      · have := Lib.card_unit_le lost
        rw [hl, List.length_nil] at hcard
        omega
      · rw [hfree, hc2, hc]
      · rw [hl, List.length_nil] at hcard
        cases lost with
        | none =>
          rw [Lib.unit_none, Multiset.card_zero] at hcard
          refine ⟨fun h => absurd rfl h, ?_⟩
          rintro ⟨j, hj, hF⟩
          omega
        | some q =>
          rw [Lib.unit_some, Multiset.card_singleton] at hcard
          refine ⟨fun _ => ⟨m / 1024, ?_⟩, fun _ => Option.some_ne_none q⟩
          -- the table of page `m` is missing, so that `m` is its first page
          have hmod : m % 1024 = 0 := by
            by_contra hne
            have := (htab _).1 (hmiss (Option.some_ne_none q))
            refine this.2 (m - 1) (Nat.zero_le _) (by omega) ?_
            simp only [NPDENTRIES_eq]
            omega
          omega
  · refine .inr ⟨none, k1, ?_, hm1, .inr ⟨rfl, by omega, none, ?_, fun h => absurd rfl h, ?_⟩⟩
    · simp only [copyuvm, hset, bind, Except.bind, pure, Except.pure]
    · rw [Lib.unit_none, add_zero, hfree]
    · rintro ⟨j, hj, hF⟩
      omega

end Xv6.Vm
