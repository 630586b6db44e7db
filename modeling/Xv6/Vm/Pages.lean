import Mathlib.Algebra.BigOperators.Intervals
import Xv6.Lib.Pool
import Xv6.Vm.Model

/-!
# Conservation of pages

What each function of `vm.c` does to the entries of a directory and to the contents of pages, and
that it conserves pages: the free ones and those of the directory together are the same multiset
before and after.
-/

namespace Xv6.Vm

open Finset

variable {t t' : Pgdir} {k k' : Kmem} {v n pa : Nat} {w u : Bool} {f : BitVec 9}

theorem NPDENTRIES_eq : NPDENTRIES = 1024 := by
  unfold NPDENTRIES
  rfl

theorem KERNPAGE_eq : KERNPAGE = 524288 := by
  unfold KERNPAGE
  rfl

def Kmem.free (k : Kmem) : Multiset Nat := k.freelist

def Pgdir.frame (t : Pgdir) (v : Nat) : Option Nat := (t.pte v).map Pte.pa

/-- The pages of an address space: its directory, its page tables and its user pages. -/
def Pgdir.pages (t : Pgdir) : Multiset Nat :=
  {t.page} + Lib.held (range NPDENTRIES) t.tab + Lib.held (range KERNPAGE) t.frame

theorem Pgdir.pa_mem {e : Pte} (hv : v < KERNPAGE) (he : t.pte v = some e) : e.pa ∈ t.pages := by
  refine Multiset.mem_add.2 (.inr (Lib.mem_held.2 ⟨v, mem_range.2 hv, ?_⟩))
  rw [frame, he, Option.map_some]

structure Pgdir.Ok (t : Pgdir) : Prop where
  tab : ∀ v, t.tab (v / NPDENTRIES) = none → t.pte v = none
  kern : ∀ v e, KERNPAGE ≤ v → t.pte v = some e → e.u = false

/-! ## kalloc.c -/

theorem kalloc_none (h : kalloc k = none) : k.freelist = [] := by
  unfold kalloc at h
  split at h
  · assumption
  · cases h

theorem kalloc_some {r : Nat} (h : kalloc k = some (r, k')) :
    k.freelist = r :: k'.freelist ∧ k.free = k'.free + {r} ∧ k'.mem = k.mem := by
  unfold kalloc at h
  split at h
  · cases h
  · next l hl =>
    cases h
    refine ⟨hl, ?_, rfl⟩
    rw [Kmem.free, hl, Kmem.free, ← Multiset.cons_coe, ← Multiset.singleton_add, add_comm]

theorem kalloc_pos (h : 0 < k.freelist.length) :
    ∃ v k', kalloc k = some (v, k') ∧ k.freelist.length = k'.freelist.length + 1 := by
  cases hk : kalloc k with
  | none =>
    rw [kalloc_none hk, List.length_nil] at h
    omega
  | some a => exact ⟨a.1, a.2, rfl, by rw [(kalloc_some hk).1, List.length_cons]⟩

@[simp] theorem free_fill (k : Kmem) (v : Nat) (c : Page) : (k.fill v c).free = k.free := rfl

@[simp] theorem free_kfree (v : Nat) (k : Kmem) : (kfree v k).free = k.free + {v} := by
  rw [Kmem.free, Kmem.free, kfree, ← Multiset.cons_coe, ← Multiset.singleton_add, add_comm]

theorem mem_kfree {q : Nat} (h : q ≠ v) : (kfree v k).mem q = k.mem q :=
  Function.update_of_ne h ..

/-! ## Page tables -/

theorem walkpgdir_spec (ht : t.Ok) (hv : v < NPDENTRIES * NPDENTRIES) (k : Kmem) :
    (walkpgdir t v k = none ∧ k.freelist = [] ∧ t.tab (v / NPDENTRIES) = none) ∨
    ∃ t' k', walkpgdir t v k = some (t', k') ∧ t'.Ok ∧ t'.page = t.page ∧ t'.pte = t.pte ∧
      k'.mem = k.mem ∧ k'.free ≤ k.free ∧ k'.free + t'.pages = k.free + t.pages ∧
      ∀ d, t'.tab d = none ↔ t.tab d = none ∧ d ≠ v / NPDENTRIES := by
  unfold walkpgdir
  cases htab : t.tab (v / NPDENTRIES) with
  | some x =>
    refine .inr ⟨t, k, rfl, ht, rfl, rfl, rfl, le_rfl, rfl, fun d => ⟨fun hd => ⟨hd, ?_⟩, And.left⟩⟩
    rintro rfl
    rw [htab] at hd
    cases hd
  | none =>
    dsimp only
    cases hk : kalloc k with
    | none => exact .inl ⟨rfl, kalloc_none hk, rfl⟩
    | some r =>
      obtain ⟨pgtab, k'⟩ := r
      obtain ⟨-, hfree, hmem⟩ := kalloc_some hk
      -- the table was missing, so that there is no entry that the new one drops
      have hpte : ∀ x, (if x / NPDENTRIES = v / NPDENTRIES then none else t.pte x) = t.pte x := by
        intro x
        split
        · next hx => exact (ht.tab x (by rw [hx, htab])).symm
        · rfl
      refine .inr ⟨_, k', rfl, ⟨fun x hx => ?_, fun x e hx he => ?_⟩, rfl, funext hpte, hmem,
        hfree ▸ Multiset.le_add_right .., ?_, fun d => ?_⟩
      · dsimp only at hx ⊢
        rw [hpte]
        by_cases hxv : x / NPDENTRIES = v / NPDENTRIES
        · rw [hxv, Function.update_self] at hx
          cases hx
        · rw [Function.update_of_ne hxv] at hx
          exact ht.tab x hx
      · dsimp only at he
        rw [hpte] at he
        exact ht.kern x e hx he
      · have hin : v / NPDENTRIES ∈ range NPDENTRIES := by
          rw [mem_range]
          exact Nat.div_lt_of_lt_mul hv
        have hframe : Pgdir.frame { t with
            tab := Function.update t.tab (v / NPDENTRIES) (some pgtab)
            pte := fun x => if x / NPDENTRIES = v / NPDENTRIES then none else t.pte x }
            = t.frame := by
          funext x
          simp only [Pgdir.frame, hpte]
        simp only [Pgdir.pages, hframe]
        rw [Lib.held_put hin htab, hfree]
        abel
      · by_cases hd : d = v / NPDENTRIES
        · subst hd
          simp
        · simp [hd]

theorem Pgdir.frame_setPte (t : Pgdir) (v : Nat) (e : Option Pte) :
    (t.setPte v e).frame = Function.update t.frame v (e.map Pte.pa) := by
  funext x
  by_cases hx : x = v
  · subst hx
    simp [frame, setPte]
  · simp [frame, setPte, hx]

theorem Pgdir.Ok.setPte_none (ht : t.Ok) : (t.setPte v none).Ok := by
  refine ⟨fun x hx => ?_, fun x e hx he => ?_⟩
  · by_cases hxv : x = v
    · subst hxv
      simp [setPte]
    · simpa [Pgdir.setPte, hxv] using ht.tab x hx
  · by_cases hxv : x = v
    · subst hxv
      simp [Pgdir.setPte] at he
    · exact ht.kern x e hx (by simpa [Pgdir.setPte, hxv] using he)

theorem Pgdir.Ok.setPte_some {e : Pte} (ht : t.Ok) (hv : t.tab (v / NPDENTRIES) ≠ none)
    (he : KERNPAGE ≤ v → e.u = false) : (t.setPte v (some e)).Ok := by
  refine ⟨fun x hx => ?_, fun x e' hx he' => ?_⟩
  · by_cases hxv : x = v
    · subst hxv
      exact absurd hx hv
    · simpa [Pgdir.setPte, hxv] using ht.tab x hx
  · by_cases hxv : x = v
    · subst hxv
      simp only [Pgdir.setPte, Function.update_self, Option.some.injEq] at he'
      exact he' ▸ he hx
    · exact ht.kern x e' hx (by simpa [Pgdir.setPte, hxv] using he')

theorem Pgdir.pages_setPte_some {e : Pte} (hv : t.pte v = none) :
    (t.setPte v (some e)).pages = t.pages + if v < KERNPAGE then {e.pa} else 0 := by
  rw [pages, frame_setPte]
  change {t.page} + Lib.held _ t.tab + _ = _
  have hf : t.frame v = none := by rw [frame, hv, Option.map_none]
  by_cases hk : v < KERNPAGE
  · rw [if_pos hk, Option.map_some, Lib.held_put (mem_range.2 hk) hf, pages]
    abel
  · have hsame : Lib.held (range KERNPAGE) (Function.update t.frame v ((some e).map Pte.pa))
        = Lib.held (range KERNPAGE) t.frame := by
      refine Lib.held_congr fun x hx => Function.update_of_ne ?_ ..
      rintro rfl
      exact hk (mem_range.1 hx)
    rw [if_neg hk, add_zero, pages, hsame]

theorem Pgdir.pages_setPte_none {e : Pte} (hv : t.pte v = some e) (hk : v < KERNPAGE) :
    (t.setPte v none).pages + {e.pa} = t.pages := by
  rw [pages, frame_setPte]
  change {t.page} + Lib.held _ t.tab + _ + _ = _
  have hf : t.frame v = some e.pa := by rw [frame, hv, Option.map_some]
  rw [Option.map_none, add_assoc, Lib.held_take (mem_range.2 hk) hf, pages]

theorem mapUser_spec (pa : Nat) (ht : t.Ok) (hv : v < KERNPAGE) (hn : t.pte v = none) (k : Kmem) :
    (mappages w u f 1 t v pa k = .ok (false, t, k) ∧ k.freelist = [] ∧
      t.tab (v / NPDENTRIES) = none) ∨
    ∃ t' k', mappages w u f 1 t v pa k = .ok (true, t', k') ∧ t'.Ok ∧ t'.page = t.page ∧
      t'.pte = Function.update t.pte v (some ⟨pa, w, u, f⟩) ∧ k'.mem = k.mem ∧
      k'.free ≤ k.free ∧ k'.free + t'.pages = k.free + t.pages + {pa} ∧
      ∀ d, t'.tab d = none ↔ t.tab d = none ∧ d ≠ v / NPDENTRIES := by
  have hv' : v < NPDENTRIES * NPDENTRIES := by
    simp only [NPDENTRIES_eq, KERNPAGE_eq] at hv ⊢
    omega
  rcases walkpgdir_spec ht hv' k with
    ⟨hw, hl, htab⟩ | ⟨t', k', hw, ht', hp, hpte, hm, hle, hc, htab⟩
  · exact .inl ⟨by simp only [mappages, hw], hl, htab⟩
  · have hn' : t'.pte v = none := by rw [hpte, hn]
    refine .inr ⟨t'.setPte v (some ⟨pa, w, u, f⟩), k', by simp only [mappages, hw, hn'],
      ht'.setPte_some (fun h => ((htab _).1 h).2 rfl) (fun h => absurd h (by omega)), hp, ?_, hm,
      hle, ?_, htab⟩
    · rw [← hpte]
      rfl
    · rw [Pgdir.pages_setPte_some hn', if_pos hv, ← add_assoc, hc]

theorem tabs_zero (t : Pgdir) (v d : Nat) :
    t.tab d = none ↔ t.tab d = none ∧ ∀ x, v ≤ x → x < v + 0 → d ≠ x / NPDENTRIES :=
  ⟨fun h => ⟨h, fun x h1 h2 => absurd h2 (by omega)⟩, And.left⟩

theorem tabs_succ {t₁ t2 : Pgdir} {m : Nat}
    (h1 : ∀ d, t₁.tab d = none ↔ t.tab d = none ∧ d ≠ v / NPDENTRIES)
    (h2 : ∀ d, t2.tab d = none ↔
      t₁.tab d = none ∧ ∀ x, v + 1 ≤ x → x < v + 1 + m → d ≠ x / NPDENTRIES) (d : Nat) :
    t2.tab d = none ↔ t.tab d = none ∧ ∀ x, v ≤ x → x < v + (m + 1) → d ≠ x / NPDENTRIES := by
  rw [h2, h1]
  constructor
  · rintro ⟨⟨hd, hv⟩, hm⟩
    refine ⟨hd, fun x hx hx' => ?_⟩
    by_cases hxv : x = v
    · rwa [hxv]
    · exact hm x (by omega) (by omega)
  · rintro ⟨hd, hm⟩
    exact ⟨⟨hd, hm v le_rfl (by omega)⟩, fun x hx hx' => hm x (by omega) (by omega)⟩

theorem mapKernel_spec (n : Nat) (t : Pgdir) (v pa : Nat) (k : Kmem) (ht : t.Ok)
    (hv : KERNPAGE ≤ v) (hv' : v + n ≤ NPDENTRIES * NPDENTRIES)
    (hn : ∀ x, v ≤ x → x < v + n → t.pte x = none) :
    ∃ r t' k' m, mappages w false f n t v pa k = .ok (r, t', k') ∧ t'.Ok ∧ t'.page = t.page ∧
      k'.mem = k.mem ∧ k'.free + t'.pages = k.free + t.pages ∧
      (∀ x, ¬ (v ≤ x ∧ x < v + n) → t'.pte x = t.pte x) ∧
      (∀ d, t'.tab d = none ↔ t.tab d = none ∧ ∀ x, v ≤ x → x < v + m → d ≠ x / NPDENTRIES) ∧
      m ≤ n ∧ (r = true → m = n) ∧
      (r = false → k'.freelist = [] ∧ m < n ∧ t'.tab ((v + m) / NPDENTRIES) = none) := by
  induction n generalizing t v pa k with
  | zero =>
    exact ⟨true, t, k, 0, rfl, ht, rfl, rfl, rfl, fun _ _ => rfl, tabs_zero t v, le_rfl,
      fun _ => rfl, nofun⟩
  | succ n ih =>
    rcases walkpgdir_spec ht (v := v) (by omega) k with
      ⟨hw, hl, htab⟩ | ⟨t1, k1, hw, ht1, hp1, hpte1, hm1, -, hc1, htab1⟩
    · exact ⟨false, t, k, 0, by simp only [mappages, hw], ht, rfl, rfl, rfl, fun _ _ => rfl,
        tabs_zero t v, Nat.zero_le _, nofun, fun _ => ⟨hl, Nat.succ_pos n, htab⟩⟩
    · have hn1 : t1.pte v = none := by rw [hpte1, hn v le_rfl (by omega)]
      have ht2 : (t1.setPte v (some ⟨pa, w, false, f⟩)).Ok :=
        ht1.setPte_some (fun h => ((htab1 _).1 h).2 rfl) fun _ => rfl
      have hne : ∀ x, x ≠ v → (t1.setPte v (some ⟨pa, w, false, f⟩)).pte x = t.pte x := by
        intro x hx
        simp [Pgdir.setPte, hx, hpte1]
      obtain ⟨r, t3, k3, m, hmap, ht3, hp3, hm3, hc3, hpte3, htab3, hmn, htrue, hfalse⟩ :=
        ih (t1.setPte v (some ⟨pa, w, false, f⟩)) (v + 1) (pa + 1) k1 ht2 (by omega) (by omega)
          fun x h1 h2 => (hne x (by omega)).trans (hn x (by omega) (by omega))
      refine ⟨r, t3, k3, m + 1, by simp only [mappages, hw, hn1, hmap], ht3, hp3.trans hp1,
        hm3.trans hm1, ?_, fun x hx => ?_, tabs_succ htab1 htab3, by omega,
        fun h => by rw [htrue h], ?_⟩
      · rw [hc3, Pgdir.pages_setPte_some hn1, if_neg (by omega), add_zero, hc1]
      · rw [hpte3 x (by omega), hne x (by omega)]
      · intro h
        obtain ⟨h1, h2, h3⟩ := hfalse h
        exact ⟨h1, by omega, by rwa [show v + (m + 1) = v + 1 + m by omega]⟩

/-! ## Freeing -/

theorem deallocLoop_spec {hi : Nat} (hhi : hi ≤ KERNPAGE) (fuel v : Nat) (t : Pgdir) (k : Kmem)
    (ht : t.Ok) (hf : hi ≤ v + fuel) :
    ∃ t' k', deallocLoop hi fuel v t k = (t', k') ∧ t'.Ok ∧ t'.page = t.page ∧ t'.tab = t.tab ∧
      (∀ x, t'.pte x = if v ≤ x ∧ x < hi then none else t.pte x) ∧
      k'.free + t'.pages = k.free + t.pages ∧
      ∀ q, (∀ x, v ≤ x → x < hi → t.frame x ≠ some q) → k'.mem q = k.mem q := by
  induction fuel generalizing v t k with
  | zero =>
    refine ⟨t, k, rfl, ht, rfl, rfl, fun x => (if_neg (by omega)).symm, rfl, fun _ _ => rfl⟩
  | succ fuel ih =>
    unfold deallocLoop
    by_cases hv : v < hi
    · rw [if_pos hv]
      cases htab : t.tab (v / NPDENTRIES) with
      | none =>
        -- no entry of a missing table is present
        have hmul : v < (v / NPDENTRIES + 1) * NPDENTRIES := by
          simp only [NPDENTRIES_eq]
          omega
        have hgap : ∀ x, v ≤ x → x < (v / NPDENTRIES + 1) * NPDENTRIES → t.pte x = none := by
          intro x h1 h2
          refine ht.tab x ?_
          have : x / NPDENTRIES = v / NPDENTRIES := by
            simp only [NPDENTRIES_eq] at h2 ⊢
            omega
          rw [this, htab]
        obtain ⟨t', k', he, ht', hp, htb, hpte, hc, hm⟩ :=
          ih ((v / NPDENTRIES + 1) * NPDENTRIES) t k ht (by omega)
        refine ⟨t', k', he, ht', hp, htb, fun x => ?_, hc, fun q hq => hm q fun x h1 h2 => ?_⟩
        · rw [hpte]
          by_cases hx : v ≤ x ∧ x < (v / NPDENTRIES + 1) * NPDENTRIES
          · rw [if_neg (by omega), hgap x hx.1 hx.2]
            simp
          · exact if_congr (by omega) rfl rfl
        · exact hq x (by omega) h2
      | some pgtab =>
        cases hpt : t.pte v with
        | none =>
          obtain ⟨t', k', he, ht', hp, htb, hpte, hc, hm⟩ := ih (v + 1) t k ht (by omega)
          refine ⟨t', k', he, ht', hp, htb, fun x => ?_, hc, fun q hq => hm q fun x h1 h2 => ?_⟩
          · rw [hpte]
            by_cases hx : x = v
            · subst hx
              rw [if_neg (by omega), hpt]
              simp
            · exact if_congr (by omega) rfl rfl
          · exact hq x (by omega) h2
        | some e =>
          obtain ⟨t', k', he, ht', hp, htb, hpte, hc, hm⟩ :=
            ih (v + 1) (t.setPte v none) (kfree e.pa k) ht.setPte_none (by omega)
          refine ⟨t', k', he, ht', hp, htb, fun x => ?_, ?_, fun q hq => ?_⟩
          · rw [hpte]
            by_cases hx : x = v
            · subst hx
              rw [if_neg (by omega), if_pos ⟨le_rfl, hv⟩]
              simp [Pgdir.setPte]
            · simp only [Pgdir.setPte, Function.update_of_ne hx]
              exact if_congr (by omega) rfl rfl
          · rw [hc, free_kfree, ← Pgdir.pages_setPte_none hpt (by omega)]
            abel
          · have hqe : q ≠ e.pa := by
              rintro rfl
              exact hq v le_rfl hv (by rw [Pgdir.frame, hpt, Option.map_some])
            rw [hm q fun x h1 h2 => ?_, mem_kfree hqe]
            rw [Pgdir.frame_setPte, Function.update_of_ne (by omega)]
            exact hq x (by omega) h2
    · rw [if_neg hv]
      exact ⟨t, k, rfl, ht, rfl, rfl, fun x => (if_neg (by omega)).symm, rfl, fun _ _ => rfl⟩

theorem freeTabs_spec (t : Pgdir) (n i : Nat) (k : Kmem) :
    (freeTabs t n i k).free = k.free + Lib.held (Ico i (i + n)) t.tab ∧
    ∀ q, (∀ d, i ≤ d → d < i + n → t.tab d ≠ some q) → (freeTabs t n i k).mem q = k.mem q := by
  induction n generalizing i k with
  | zero => simp [freeTabs, Lib.held]
  | succ n ih =>
    have hsplit : Lib.held (Ico i (i + (n + 1))) t.tab
        = Lib.unit (t.tab i) + Lib.held (Ico (i + 1) (i + 1 + n)) t.tab := by
      rw [Lib.held, Finset.sum_eq_sum_Ico_succ_bot (by omega), Lib.held]
      congr 3
      omega
    unfold freeTabs
    cases hi : t.tab i with
    | none =>
      obtain ⟨h1, h2⟩ := ih (i + 1) k
      refine ⟨?_, fun q hq => h2 q fun d h3 h4 => hq d (by omega) (by omega)⟩
      dsimp only
      rw [h1, hsplit, hi, Lib.unit_none, zero_add]
    | some x =>
      obtain ⟨h1, h2⟩ := ih (i + 1) (kfree x k)
      refine ⟨?_, fun q hq => ?_⟩
      · dsimp only
        rw [h1, hsplit, hi, Lib.unit_some, free_kfree]
        abel
      · have hqx : q ≠ x := by
          rintro rfl
          exact hq i le_rfl (by omega) hi
        dsimp only
        rw [h2 q fun d h3 h4 => hq d (by omega) (by omega), mem_kfree hqx]

theorem pgroundup_KERNBASE : pgroundup KERNBASE = KERNPAGE := by
  rw [KERNPAGE_eq]
  rfl

theorem freevm_spec (ht : t.Ok) (k : Kmem) :
    (freevm t k).free = k.free + t.pages ∧
    ∀ q, q ∉ t.pages → (freevm t k).mem q = k.mem q := by
  have hpos : ¬ 0 ≥ KERNBASE := by decide
  obtain ⟨t', k', he, -, hp, htb, hpte, hc, hm⟩ :=
    deallocLoop_spec le_rfl KERNPAGE 0 t k ht (by omega)
  have hz : pgroundup 0 = 0 := by decide
  have heq : freevm t k = kfree t'.page (freeTabs t' NPDENTRIES 0 k') := by
    simp only [freevm, deallocuvm, if_neg hpos, pgroundup_KERNBASE, hz, he]
  obtain ⟨hf, hfm⟩ := freeTabs_spec t' NPDENTRIES 0 k'
  have huser : Lib.held (range KERNPAGE) t'.frame = 0 := by
    rw [Lib.held_congr (g := fun _ => none) fun x hx => ?_, Lib.held_none]
    rw [Pgdir.frame, hpte, if_pos ⟨Nat.zero_le x, mem_range.1 hx⟩, Option.map_none]
  have hpages : t'.pages = {t'.page} + Lib.held (range NPDENTRIES) t'.tab := by
    rw [Pgdir.pages, huser, add_zero]
  refine ⟨?_, fun q hq => ?_⟩
  · rw [heq, free_kfree, hf, ← hc, hpages, zero_add, ← Finset.range_eq_Ico]
    abel
  · simp only [Pgdir.pages, Multiset.mem_add, Multiset.mem_singleton, Lib.mem_held, not_or,
      not_exists, not_and, mem_range] at hq
    rw [heq, mem_kfree (by rw [hp]; exact hq.1.1), hfm q fun d _ hd => ?_, hm q fun x _ hx => ?_]
    · exact hq.2 x hx
    · rw [htb]
      exact hq.1.2 d (by omega)

end Xv6.Vm
