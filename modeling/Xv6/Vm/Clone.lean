import Xv6.Vm.Space

/-!
# What copyuvm copies

The entries of a directory that `setupkvm` makes do not depend on the state of memory, and `copyuvm`
adds to them one entry for each page of the old address space: with the same flags, for a page that
was free, and with the contents of the old one. In a memory in which no page is in two places, the
two address spaces then have no page in common.
-/

namespace Xv6.Vm

open Finset

variable {t t' d d' : Pgdir} {k k' : Kmem} {v n : Nat} {w u : Bool} {f : BitVec 9}

/-! ## setupkvm -/

theorem mappages_pte {pa : Nat} (ht : ∀ v, t.tab (v / NPDENTRIES) = none → t.pte v = none)
    (h : mappages w u f n t v pa k = .ok (true, t', k')) :
    (∀ x, t'.pte x = if v ≤ x ∧ x < v + n then some ⟨pa + (x - v), w, u, f⟩ else t.pte x) ∧
      ∀ v, t'.tab (v / NPDENTRIES) = none → t'.pte v = none := by
  induction n generalizing t v pa k with
  | zero =>
    cases h
    exact ⟨fun x => (if_neg (by omega)).symm, ht⟩
  | succ n ih =>
    -- a new table comes in the place of one that was missing, and has no entries either
    have hwalk : ∀ t1 k1, walkpgdir t v k = some (t1, k1) → t1.pte = t.pte ∧
        t1.tab (v / NPDENTRIES) ≠ none ∧
        ∀ x, t1.tab (x / NPDENTRIES) = none → t.tab (x / NPDENTRIES) = none := by
      intro t1 k1 hw
      unfold walkpgdir at hw
      cases htab : t.tab (v / NPDENTRIES) with
      | some y =>
        rw [htab] at hw
        cases hw
        exact ⟨rfl, by rw [htab]; exact Option.some_ne_none y, fun _ => id⟩
      | none =>
        rw [htab] at hw
        dsimp only at hw
        cases hk : kalloc k with
        | none =>
          rw [hk] at hw
          cases hw
        | some a =>
          rw [hk] at hw
          cases hw
          refine ⟨funext fun x => ?_, by simp, fun x hx => ?_⟩
          · dsimp only
            split
            · next hx => exact (ht x (by rw [hx, htab])).symm
            · rfl
          · by_cases hxv : x / NPDENTRIES = v / NPDENTRIES
            · rw [hxv, htab]
            · simpa [hxv] using hx
    unfold mappages at h
    cases hw : walkpgdir t v k with
    | none =>
      rw [hw] at h
      cases h
    | some a =>
      obtain ⟨t1, k1⟩ := a
      obtain ⟨hpte, htabv, htabx⟩ := hwalk t1 k1 hw
      rw [hw] at h
      dsimp only at h
      cases hv : t1.pte v with
      | some e =>
        rw [hv] at h
        cases h
      | none =>
        rw [hv] at h
        have hnext : ∀ x, (t1.setPte v (some ⟨pa, w, u, f⟩)).pte x
            = if x = v then some ⟨pa, w, u, f⟩ else t.pte x := by
          intro x
          by_cases hx : x = v
          · subst hx
            simp [Pgdir.setPte]
          · simp [Pgdir.setPte, hx, hpte]
        have hok : ∀ x, (t1.setPte v (some ⟨pa, w, u, f⟩)).tab (x / NPDENTRIES) = none →
            (t1.setPte v (some ⟨pa, w, u, f⟩)).pte x = none := by
          intro x hx
          rw [hnext]
          by_cases hxv : x = v
          · subst hxv
            exact absurd hx htabv
          · rw [if_neg hxv]
            exact ht x (htabx x hx)
        obtain ⟨h1, h2⟩ := ih hok h
        refine ⟨fun x => ?_, h2⟩
        rw [h1, hnext]
        by_cases hx : x = v
        · subst hx
          rw [if_neg (by omega), if_pos rfl, if_pos (by omega), Nat.sub_self, Nat.add_zero]
        · rw [if_neg hx]
          by_cases hin : v ≤ x ∧ x < v + (n + 1)
          · rw [if_pos (by omega), if_pos hin, show pa + 1 + (x - (v + 1)) = pa + (x - v) by omega]
          · rw [if_neg (by omega), if_neg hin]

/-- The entry that the ranges of `l` give page `x`. -/
def kernPte (l : List (Nat × Nat × Nat × Bool)) (x : Nat) : Option Pte :=
  (l.find? fun e => e.1 ≤ x ∧ x < e.1 + e.2.1).map fun e => ⟨e.2.2.1 + (x - e.1), e.2.2.2, false, 0⟩

theorem mapAll_pte (l : List (Nat × Nat × Nat × Bool))
    (ht : ∀ v, t.tab (v / NPDENTRIES) = none → t.pte v = none)
    (hap : l.Pairwise fun a b => a.1 + a.2.1 ≤ b.1)
    (h : mapAll l t k = .ok (some d, k')) (x : Nat) :
    d.pte x = (kernPte l x).or (t.pte x) := by
  induction l generalizing t k with
  | nil =>
    cases h
    rfl
  | cons a l ih =>
    obtain ⟨virt, num, phys, w⟩ := a
    obtain ⟨hhead, htail⟩ := List.pairwise_cons.1 hap
    unfold mapAll at h
    cases hmap : mappages w false 0 num t virt phys k with
    | error e =>
      rw [hmap] at h
      cases h
    | ok r =>
      obtain ⟨r, t1, k1⟩ := r
      rw [hmap] at h
      cases r with
      | false => cases h
      | true =>
        obtain ⟨hpte, hok⟩ := mappages_pte ht hmap
        rw [ih hok htail h, hpte]
        unfold kernPte
        by_cases hx : virt ≤ x ∧ x < virt + num
        · -- the ranges behind the first one start after it
          have hno : l.find? (fun e => e.1 ≤ x ∧ x < e.1 + e.2.1) = none := by
            refine List.find?_eq_none.2 fun e he => ?_
            have := hhead e he
            dsimp only at this
            simp only [decide_eq_true_eq]
            omega
          rw [hno, if_pos hx, List.find?_cons_of_pos (by simpa using hx)]
          rfl
        · rw [if_neg hx, List.find?_cons_of_neg (by simpa using hx)]

theorem setupkvm_pte (ly : Layout) (h : setupkvm ly k = .ok (some d, k')) (x : Nat) :
    d.pte x = kernPte (kmap ly) x := by
  unfold setupkvm at h
  cases hk : kalloc k with
  | none =>
    rw [hk] at h
    cases h
  | some a =>
    rw [hk] at h
    have hm := mapAll_pte (kmap ly) (fun _ _ => rfl) (kmap_fits ly a.1).apart h x
    rwa [Option.or_none] at hm

/-! ## copyuvm -/

/-- `e'` is the entry of the copy of the page of `e`. -/
structure Copied (k k' : Kmem) (e e' : Pte) : Prop where
  w : e'.w = e.w
  u : e'.u = e.u
  rest : e'.rest = e.rest
  mem : k'.mem e'.pa = k.mem e.pa

theorem copyLoop_succ {i : Nat} (h : copyLoop t (n + 1) i d k = .ok (true, d', k')) :
    ∃ e mem k₁ d₁ k₂, t.pte i = some e ∧ kalloc k = some (mem, k₁) ∧
      mappages e.w e.u e.rest 1 d i mem (k₁.fill mem (k₁.mem e.pa)) = .ok (true, d₁, k₂) ∧
      copyLoop t n (i + 1) d₁ k₂ = .ok (true, d', k') := by
  unfold copyLoop at h
  split at h
  · next e _ he =>
    cases hk : kalloc k with
    | none =>
      rw [hk] at h
      cases h
    | some a =>
      obtain ⟨mem, k₁⟩ := a
      rw [hk] at h
      dsimp only at h
      cases hmap : mappages e.w e.u e.rest 1 d i mem (k₁.fill mem (k₁.mem e.pa)) with
      | error p =>
        rw [hmap] at h
        cases h
      | ok r =>
        obtain ⟨r, d₁, k₂⟩ := r
        rw [hmap] at h
        cases r with
        | false => cases h
        | true => exact ⟨e, mem, k₁, d₁, k₂, he, rfl, hmap, h⟩
  · cases h

theorem copyLoop_remap {x : Nat} (n i : Nat) (d : Pgdir) (k : Kmem) (hd : d.Ok) (hx : x ≤ KERNPAGE)
    (hix : i ≤ x) (hxn : x < i + n) (hdx : d.pte x ≠ none)
    (h : copyLoop t n i d k = .ok (true, d', k')) : False := by
  induction n generalizing i d k with
  | zero => omega
  | succ n ih =>
    obtain ⟨e, mem, k1, d1, k2, -, -, hmap, hrest⟩ := copyLoop_succ h
    have hi : d.pte i = none := by
      by_contra hne
      obtain ⟨e', he'⟩ := Option.ne_none_iff_exists'.1 hne
      have htab : d.tab (i / NPDENTRIES) ≠ none := fun hno => hne (hd.tab i hno)
      obtain ⟨pgtab, hpgtab⟩ := Option.ne_none_iff_exists'.1 htab
      simp [mappages, walkpgdir, hpgtab, he'] at hmap
    have hne : i ≠ x := by
      rintro rfl
      exact hdx hi
    rcases mapUser_spec (w := e.w) (u := e.u) (f := e.rest) mem hd (v := i) (by omega) hi
        (k1.fill mem (k1.mem e.pa)) with
      ⟨hmap', -, -⟩ | ⟨d2, k2', hmap', hd2, -, hpte2, -⟩
    · rw [hmap] at hmap'
      cases hmap'
    rw [hmap] at hmap'
    cases hmap'
    refine ih (i + 1) d1 k2 hd2 (by omega) (by omega) ?_ hrest
    rwa [hpte2, Function.update_of_ne hne.symm]

theorem copyLoop_copied (n i : Nat) (d : Pgdir) (k : Kmem) (hd : d.Ok) (hi : i + n ≤ KERNPAGE)
    (hdst : ∀ x, i ≤ x → x < i + n → d.pte x = none) (hn : k.free.Nodup)
    (hfr : ∀ x e, i ≤ x → x < i + n → t.pte x = some e → e.pa ∉ k.free)
    (h : copyLoop t n i d k = .ok (true, d', k')) :
    (∀ x, i ≤ x → x < i + n →
      ∃ e e', t.pte x = some e ∧ d'.pte x = some e' ∧ e'.pa ∈ k.free ∧ Copied k k' e e') ∧
    (∀ x, ¬ (i ≤ x ∧ x < i + n) → d'.pte x = d.pte x) ∧
    (∀ q, q ∉ k.free → k'.mem q = k.mem q) ∧ k'.free + d'.pages = k.free + d.pages := by
  induction n generalizing i d k with
  | zero =>
    cases h
    exact ⟨fun x h1 h2 => absurd h2 (by omega), fun _ _ => rfl, fun _ _ => rfl, rfl⟩
  | succ n ih =>
    obtain ⟨e, q, k1, d1, k2, he, hk, hmap, hrest⟩ := copyLoop_succ h
    obtain ⟨-, hfree, hmem⟩ := kalloc_some hk
    rw [hfree, Lib.nodup_add_singleton] at hn
    have hqin : q ∈ k.free := by simp [hfree]
    have hfill : ∀ c : Page, ∀ q', q' ∉ k.free → (k1.fill q c).mem q' = k.mem q' := by
      intro c q' hq'
      have hqq : q' ≠ q := fun h => hq' (h ▸ hqin)
      rw [← hmem]
      exact Function.update_of_ne hqq ..
    rcases mapUser_spec (w := e.w) (u := e.u) (f := e.rest) q hd (v := i) (by omega)
        (hdst i le_rfl (by omega)) (k1.fill q (k1.mem e.pa)) with
      ⟨hmap', -, -⟩ | ⟨d2, k2', hmap', hd2, -, hpte2, hm2, hle, hc2, -⟩
    · rw [hmap] at hmap'
      cases hmap'
    rw [hmap] at hmap'
    cases hmap'
    have hne : ∀ x, x ≠ i → d1.pte x = d.pte x := by
      intro x hx
      rw [hpte2, Function.update_of_ne hx]
    have hsub : ∀ q', q' ∈ k2.free → q' ∈ k1.free := fun q' h => Multiset.mem_of_le hle h
    have hsub' : ∀ q', q' ∈ k2.free → q' ∈ k.free := fun q' h => by
      rw [hfree]
      exact Multiset.mem_add.2 (.inl (hsub q' h))
    obtain ⟨hcopy, hout, hm3, hc3⟩ := ih (i + 1) d1 k2 hd2 (by omega)
      (fun x h1 h2 => (hne x (by omega)).trans (hdst x (by omega) (by omega)))
      (Multiset.nodup_of_le hle hn.1)
      (fun x e h1 h2 he hin => hfr x e (by omega) (by omega) he (hsub' _ hin)) hrest
    refine ⟨fun x h1 h2 => ?_, fun x hx => ?_, fun q' hq' => ?_, ?_⟩
    · by_cases hx : x = i
      · subst hx
        refine ⟨e, ⟨q, e.w, e.u, e.rest⟩, he, ?_, hqin, rfl, rfl, rfl, ?_⟩
        · rw [hout x (by omega), hpte2, Function.update_self]
        · -- the page is in use from here on, so that nothing is written to it
          rw [hm3 q fun hin => hn.2 (hsub q hin), hm2, ← hmem]
          exact Function.update_self ..
      · obtain ⟨e1, e2, he1, he2, hin, hc⟩ := hcopy x (by omega) (by omega)
        refine ⟨e1, e2, he1, he2, hsub' _ hin, hc.w, hc.u, hc.rest, ?_⟩
        rw [hc.mem, hm2, hfill _ _ (hfr x e1 h1 h2 he1)]
    · rw [hout x (by omega), hne x (by omega)]
    · rw [hm3 q' fun hin => hq' (hsub' q' hin), hm2, hfill _ q' hq']
    · rw [hc3, hc2, hfree, free_fill]
      abel

/-- No page is in two places: neither twice in the free list nor in it and in one of the address
spaces `ts`, nor in two of them or twice in one. -/
def Distinct (k : Kmem) (ts : List Pgdir) : Prop := (k.free + (ts.map Pgdir.pages).sum).Nodup

namespace Distinct

variable {ts : List Pgdir}

theorem mem_sum (ht : t ∈ ts) {q : Nat} (hq : q ∈ t.pages) : q ∈ (ts.map Pgdir.pages).sum := by
  induction ts with
  | nil => cases ht
  | cons a ts ih =>
    rw [List.map_cons, List.sum_cons, Multiset.mem_add]
    rcases List.mem_cons.1 ht with rfl | ht
    · exact .inl hq
    · exact .inr (ih ht)

theorem not_free (h : Distinct k ts) (ht : t ∈ ts) {q : Nat} (hq : q ∈ t.pages) : q ∉ k.free :=
  fun hfree => Multiset.disjoint_left.1 (Multiset.nodup_add.1 h).2.2 hfree (mem_sum ht hq)

theorem cons (h : Distinct k ts) (hc : k'.free + d.pages = k.free) : Distinct k' (d :: ts) := by
  unfold Distinct at h ⊢
  rw [List.map_cons, List.sum_cons, ← add_assoc, hc]
  exact h

theorem apart (h : Distinct k (d :: ts)) (ht : t ∈ ts) {q : Nat} (hq : q ∈ d.pages) :
    q ∉ t.pages := by
  intro hqt
  unfold Distinct at h
  rw [List.map_cons, List.sum_cons, ← add_assoc, Multiset.nodup_add] at h
  exact Multiset.disjoint_left.1 h.2.2 (Multiset.mem_add.2 (.inr hq)) (mem_sum ht hqt)

end Distinct

theorem setupkvm_kern (ly : Layout) (h : setupkvm ly k = .ok (some d, k')) :
    d.pte KERNPAGE ≠ none := by
  rw [setupkvm_pte ly h, kernPte, kmap, List.find?_cons_of_pos]
  · exact Option.some_ne_none _
  · simp [EXTPAGE, EXTMEM, PGSIZE]

/-- `copyuvm` in a memory in which no page is in two places, with the address spaces `ts`, one of
which is copied. If it returns a directory, then it has for every page below `PGROUNDUP(sz)` an
entry with the same flags and contents, no other user pages, and the entries that `setupkvm` makes;
its user pages are pages of no other address space; what the others have is as before; and a write
to a page of the old or of the new address space, whenever it is made, is not seen in the other. -/
theorem copyuvm_copies (ly : Layout) {ts : List Pgdir} {sz : Nat} (hts : t ∈ ts)
    (hD : Distinct k ts) (h : copyuvm ly t sz k = .ok (some d, k')) :
    (∀ x < pgroundup sz, ∃ e e', t.pte x = some e ∧ d.pte x = some e' ∧ Copied k k' e e') ∧
    (∀ x e', x < KERNPAGE → d.pte x = some e' → ∀ t' ∈ ts, e'.pa ∉ t'.pages) ∧
    (∀ x, pgroundup sz ≤ x → x < KERNPAGE → d.pte x = none) ∧
    (∀ k₁ d₁ k1', setupkvm ly k₁ = .ok (some d₁, k1') → ∀ x, KERNPAGE ≤ x → d.pte x = d₁.pte x) ∧
    (∀ t' ∈ ts, ∀ q ∈ t'.pages, k'.mem q = k.mem q) ∧
    Distinct k' (d :: ts) ∧
    ∀ (m : Kmem) (c : Page) (x y : Nat) (e e' : Pte), x < KERNPAGE → y < KERNPAGE →
      t.pte x = some e → d.pte y = some e' →
      (m.fill e.pa c).mem e'.pa = m.mem e'.pa ∧ (m.fill e'.pa c).mem e.pa = m.mem e.pa := by
  obtain ⟨o, k₁, hset, hm1, hres⟩ := setupkvm_spec ly k
  rcases hres with ⟨d0, rfl, hd0, -, -, hlow, -, hc1⟩ | ⟨rfl, -, -⟩
  · have hloop : copyLoop t (pgroundup sz) 0 d0 k₁ = .ok (true, d, k') := by
      simp only [copyuvm, hset, bind, Except.bind] at h
      cases hl : copyLoop t (pgroundup sz) 0 d0 k₁ with
      | error e =>
        rw [hl] at h
        cases h
      | ok r =>
        obtain ⟨r, d₁, k2⟩ := r
        rw [hl] at h
        cases r with
        | false => cases h
        | true =>
          cases h
          rfl
    -- a copy that gets to the kernel's addresses panics
    have hsz : pgroundup sz ≤ KERNPAGE := by
      by_contra hgt
      exact copyLoop_remap _ 0 d0 k₁ hd0 le_rfl (Nat.zero_le _) (by omega) (setupkvm_kern ly hset)
        hloop
    have hfree1 : ∀ q, q ∈ k₁.free → q ∈ k.free := fun q hq => by
      rw [← hc1]
      exact Multiset.mem_add.2 (.inl hq)
    have hnodup : k₁.free.Nodup := by
      have hk := (Multiset.nodup_add.1 hD).1
      rw [← hc1] at hk
      exact (Multiset.nodup_add.1 hk).1
    obtain ⟨hcopy, hout, hm2, hc2⟩ := copyLoop_copied _ 0 d0 k₁ hd0 (by omega)
      (fun x _ hx => hlow x (by omega)) hnodup
      (fun x e _ hx he hin => hD.not_free hts (Pgdir.pa_mem (by omega) he) (hfree1 _ hin)) hloop
    have hD' : Distinct k' (d :: ts) := hD.cons (hc2.trans hc1)
    have hsame : ∀ t' ∈ ts, ∀ q ∈ t'.pages, k₁.mem q = k.mem q :=
      fun t' ht' q hq => hm1 q (hD.not_free ht' hq)
    refine ⟨fun x hx => ?_, fun x e' hx he' t' ht' => hD'.apart ht' (Pgdir.pa_mem hx he'),
      fun x hx hxK => ?_, fun k2 d2 k2' hset2 x hx => ?_, fun t' ht' q hq => ?_, hD', ?_⟩
    · obtain ⟨e, e', he, he', -, hcop⟩ := hcopy x (Nat.zero_le _) (by omega)
      refine ⟨e, e', he, he', hcop.w, hcop.u, hcop.rest, ?_⟩
      rw [hcop.mem, hsame t hts _ (Pgdir.pa_mem (by omega) he)]
    · rw [hout x (by omega), hlow x hxK]
    · rw [hout x (by omega), setupkvm_pte ly hset, setupkvm_pte ly hset2]
    · rw [hm2 q fun hin => hD.not_free ht' hq (hfree1 q hin), hsame t' ht' q hq]
    · intro m c x y e e' hx hy he he'
      have hne : e'.pa ≠ e.pa := fun heq =>
        hD'.apart hts (Pgdir.pa_mem hy he') (heq ▸ Pgdir.pa_mem hx he)
      exact ⟨Function.update_of_ne hne .., Function.update_of_ne hne.symm ..⟩
  · simp only [copyuvm, hset, bind, Except.bind, pure, Except.pure] at h
    cases h

theorem distinct_onePage (n : Nat) : Distinct ⟨List.range' 4 n, fun _ _ => 0⟩ [onePage] := by
  unfold Distinct
  rw [List.map_singleton, List.sum_singleton]
  exact (oneProc_userOk n).nodup

/-- The copy of an address space of one page. -/
theorem copyuvm_copies_onePage : ∃ d k',
    copyuvm someLayout onePage PGSIZE ⟨List.range' 4 100, fun _ _ => 0⟩ = .ok (some d, k') ∧
      ∃ e e', onePage.pte 0 = some e ∧ d.pte 0 = some e' ∧
        Copied ⟨List.range' 4 100, fun _ _ => 0⟩ k' e e' := by
  have hD := distinct_onePage 100
  have hlen : (List.range' 4 100).length = 100 := List.length_range'
  -- the layout is a variable here, so that no step evaluates `setupkvm`
  generalize List.range' 4 100 = l at hD hlen ⊢
  generalize someLayout = ly
  obtain ⟨d, k1, hset, hd, -, hlow, -, -, hF⟩ :=
    setupkvm_enough (k := ⟨l, fun _ _ => 0⟩) ly (by dsimp only; omega)
  obtain ⟨q, k2, hk, hF2⟩ := kalloc_pos (k := k1) (by dsimp only at hF; omega)
  have hpos : 0 < KERNPAGE := by
    rw [KERNPAGE_eq]
    omega
  rcases mapUser_spec (w := true) (u := true) (f := 0) q hd (v := 0) hpos (hlow 0 hpos)
      (k2.fill q (k2.mem 3)) with ⟨-, hl, -⟩ | ⟨d', k3, hmap, -⟩
  · have hempty : k2.freelist = [] := hl
    rw [hempty, List.length_nil] at hF2
    dsimp only at hF
    omega
  · have hone : pgroundup PGSIZE = 1 := by decide
    have hloop : copyLoop onePage 1 0 d k1 = .ok (true, d', k3) := by
      have htab : onePage.tab (0 / NPDENTRIES) = some 2 := by
        rw [Nat.zero_div]
        rfl
      have hpte : onePage.pte 0 = some ⟨3, true, true, 0⟩ := rfl
      unfold copyLoop
      rw [htab, hpte, hk]
      dsimp only
      rw [hmap]
      rfl
    have hcopy : copyuvm ly onePage PGSIZE ⟨l, fun _ _ => 0⟩ = .ok (some d', k3) := by
      unfold copyuvm
      rw [hset, hone]
      dsimp only [bind, Except.bind]
      rw [hloop]
      rfl
    refine ⟨d', k3, hcopy, (copyuvm_copies ly List.mem_cons_self hD hcopy).1 0 ?_⟩
    rw [hone]
    exact Nat.one_pos

end Xv6.Vm
