import Xv6.Vm.Pages

/-!
# Growing and shrinking a process

`growproc` and `sys_sbrk` for a process whose user pages are those below its size. A process that
asks to give back exactly its whole size is told that this failed after all its pages have been
freed, and one that asks to give back more is told that it succeeded when nothing has happened.
-/

namespace Xv6.Vm

variable {t t' : Pgdir} {k k' : Kmem} {v n sz sz' : Nat}

/-- The sum of a `uint` and an `int`. -/
def uadd (sz : Nat) (n : Int) : Nat := ((sz + n) % 2 ^ 32).toNat

/-- `growproc`, with the directory and the size of the current process. -/
def growproc (n : Int) (t : Pgdir) (sz : Nat) (k : Kmem) :
    Except Panic (Int × Pgdir × Nat × Kmem) :=
  if n > 0 then do
    let (sz', t, k) ← allocuvm t sz (uadd sz n) k
    if sz' = 0 then return (-1, t, sz, k) else return (0, t, sz', k)
  else if n < 0 then
    let (sz', t, k) := deallocuvm t sz (uadd sz n) k
    if sz' = 0 then .ok (-1, t, sz, k) else .ok (0, t, sz', k)
  else .ok (0, t, sz, k)

def sysSbrk (n : Int) (t : Pgdir) (sz : Nat) (k : Kmem) :
    Except Panic (Int × Pgdir × Nat × Kmem) := do
  let addr := sz
  let (r, t, sz, k) ← growproc n t sz k
  if r < 0 then return (-1, t, sz, k) else return (addr, t, sz, k)

/-! ## Arithmetic of sizes -/

theorem pgroundup_mono {a b : Nat} (h : a ≤ b) : pgroundup a ≤ pgroundup b := by
  simp only [pgroundup, PGSIZE]
  omega

theorem pgroundup_le {a : Nat} (h : a ≤ KERNBASE) : pgroundup a ≤ KERNPAGE := by
  rw [← pgroundup_KERNBASE]
  exact pgroundup_mono h

theorem pgroundup_mul (n : Nat) : pgroundup (n * PGSIZE) = n := by
  simp only [pgroundup, PGSIZE]
  omega

theorem pgroundup_mul_le {a : Nat} (h : a ≤ KERNBASE) : pgroundup a * PGSIZE ≤ KERNBASE := by
  have hK : KERNBASE = 2147483648 := rfl
  simp only [pgroundup, PGSIZE, hK] at h ⊢
  omega

theorem pgroundup_pos {a : Nat} (h : 0 < a) : 0 < pgroundup a := by
  simp only [pgroundup, PGSIZE]
  omega

/-! ## allocuvm and deallocuvm -/

theorem allocLoop_spec (n v : Nat) (t : Pgdir) (k : Kmem) (ht : t.Ok) (hv : v + n ≤ KERNPAGE)
    (hn : ∀ x, v ≤ x → x < v + n → t.pte x = none) (hnd : k.free.Nodup) :
    ∃ r t' k' m, allocLoop n v t k = .ok (r, t', k') ∧ t'.Ok ∧ t'.page = t.page ∧ m ≤ n ∧
      (r = none → m = n) ∧
      (∀ x, ¬ (v ≤ x ∧ x < v + m) → t'.pte x = t.pte x) ∧
      (∀ x, v ≤ x → x < v + m → ∃ e, t'.pte x = some e ∧ e.pa ∈ k.free ∧
        k'.mem e.pa = fun _ => 0) ∧
      (∀ q, q ∉ k.free → k'.mem q = k.mem q) ∧
      k'.free + t'.pages + (r.elim 0 Lib.unit) = k.free + t.pages ∧
      (∀ q, r = some (some q) → q ∈ k.free) ∧
      (∀ j, t'.tab j = none ↔ t.tab j = none ∧ ∀ x, v ≤ x → x < v + m → j ≠ x / NPDENTRIES) ∧
      (r ≠ none → k'.freelist = []) := by
  induction n generalizing v t k with
  | zero =>
    exact ⟨none, t, k, 0, rfl, ht, rfl, le_rfl, fun _ => rfl, fun _ _ => rfl,
      fun x h1 h2 => absurd h2 (by omega), fun _ _ => rfl, add_zero _, nofun, tabs_zero t v,
      fun h => absurd rfl h⟩
  | succ n ih =>
    unfold allocLoop
    cases hk : kalloc k with
    | none =>
      exact ⟨some none, t, k, 0, rfl, ht, rfl, Nat.zero_le _, nofun, fun _ _ => rfl,
        fun x h1 h2 => absurd h2 (by omega), fun _ _ => rfl, add_zero _, nofun, tabs_zero t v,
        fun _ => kalloc_none hk⟩
    | some a =>
      obtain ⟨q, k1⟩ := a
      obtain ⟨-, hfree, hmem⟩ := kalloc_some hk
      rw [hfree, Lib.nodup_add_singleton] at hnd
      have hqin : q ∈ k.free := by simp [hfree]
      have hfill : ∀ q', q' ≠ q → (k1.fill q fun _ => 0).mem q' = k.mem q' := by
        intro q' hq'
        rw [← hmem]
        exact Function.update_of_ne hq' ..
      dsimp only
      rcases mapUser_spec (w := true) (u := true) (f := 0) q ht (v := v) (by omega)
          (hn v le_rfl (by omega)) (k1.fill q fun _ => 0) with
        ⟨hmap, hl, -⟩ | ⟨t2, k2, hmap, ht2, hp2, hpte2, hm2, hle, hc2, htab2⟩
      · refine ⟨some (some q), t, k1.fill q fun _ => 0, 0, ?_, ht, rfl, Nat.zero_le _, nofun,
          fun _ _ => rfl, fun x h1 h2 => absurd h2 (by omega), fun q' hq' => ?_, ?_, ?_,
          tabs_zero t v, fun _ => hl⟩
        · rw [hmap]
          rfl
        · exact hfill q' fun h => hq' (h ▸ hqin)
        · rw [hfree, free_fill]
          change _ + Lib.unit (some q) = _
          rw [Lib.unit_some]
          abel
        · rintro q' ⟨⟩
          exact hqin
      · have hne : ∀ x, x ≠ v → t2.pte x = t.pte x := by
          intro x hx
          rw [hpte2, Function.update_of_ne hx]
        rw [free_fill] at hle
        obtain ⟨r, t3, k3, m, hloop, ht3, hp3, hmn, hr3, hpte3, hnew3, hm3, hc3, hq3, htab3,
          hempty⟩ :=
          ih (v + 1) t2 k2 ht2 (by omega)
            (fun x h1 h2 => (hne x (by omega)).trans (hn x (by omega) (by omega)))
            (Multiset.nodup_of_le hle hnd.1)
        have hsub : ∀ q', q' ∈ k2.free → q' ∈ k1.free := fun q' hq' => Multiset.mem_of_le hle hq'
        refine ⟨r, t3, k3, m + 1, ?_, ht3, hp3.trans hp2, by omega, fun h => by rw [hr3 h],
          fun x hx => ?_, fun x h1 h2 => ?_, fun q' hq' => ?_, ?_, fun q' hq' => ?_,
          tabs_succ htab2 htab3, hempty⟩
        · rw [hmap]
          exact hloop
        · rw [hpte3 x (by omega), hne x (by omega)]
        · by_cases hx : x = v
          · -- the page keeps its zeros, since it is not free any more
            subst hx
            refine ⟨⟨q, true, true, 0⟩, ?_, hqin, ?_⟩
            · rw [hpte3 x (by omega), hpte2, Function.update_self]
            · rw [hm3 q fun hq' => hnd.2 (hsub q hq'), hm2]
              exact Function.update_self ..
          · obtain ⟨e, he, hin, hz⟩ := hnew3 x (by omega) (by omega)
            exact ⟨e, he, by rw [hfree]; exact Multiset.mem_add.2 (.inl (hsub e.pa hin)), hz⟩
        · have hq2 : q' ∉ k2.free := by
            intro hin
            exact hq' (by rw [hfree]; exact Multiset.mem_add.2 (.inl (hsub q' hin)))
          rw [hm3 q' hq2, hm2]
          exact hfill q' fun h => hq' (h ▸ hqin)
        · rw [hc3, hc2, hfree, free_fill]
          abel
        · rw [hfree]
          exact Multiset.mem_add.2 (.inl (hsub q' (hq3 q' hq')))

theorem deallocuvm_spec {oldsz newsz : Nat} (ht : t.Ok) (hold : oldsz ≤ KERNBASE)
    (hlt : newsz < oldsz) (k : Kmem) :
    ∃ t' k', deallocuvm t oldsz newsz k = (newsz, t', k') ∧ t'.Ok ∧ t'.page = t.page ∧
      (∀ x, t'.pte x = if pgroundup newsz ≤ x ∧ x < pgroundup oldsz then none else t.pte x) ∧
      k'.free + t'.pages = k.free + t.pages ∧
      ∀ q, (∀ x, pgroundup newsz ≤ x → x < pgroundup oldsz → t.frame x ≠ some q) →
        k'.mem q = k.mem q := by
  obtain ⟨t', k', he, ht', hp, -, hpte, hc, hm⟩ :=
    deallocLoop_spec (pgroundup_le hold) (pgroundup oldsz) (pgroundup newsz) t k ht (by omega)
  exact ⟨t', k', by rw [deallocuvm, if_neg (by omega), he], ht', hp, hpte, hc, hm⟩

/-! ## sbrk -/

/-- A process whose pages are those below its size, none of them free or used twice. -/
structure UserOk (t : Pgdir) (sz : Nat) (k : Kmem) : Prop where
  ok : t.Ok
  size : sz < KERNBASE
  mapped : ∀ v < KERNPAGE, t.pte v ≠ none ↔ v < pgroundup sz
  nodup : (k.free + t.pages).Nodup

theorem UserOk.frame_inj (h : UserOk t sz k) {x y q : Nat} (hx : x < KERNPAGE) (hy : y < KERNPAGE)
    (hxq : t.frame x = some q) (hyq : t.frame y = some q) : x = y := by
  by_contra hne
  have hnd := h.nodup
  rw [Pgdir.pages, ← add_assoc] at hnd
  replace hnd := (Multiset.nodup_add.1 hnd).2.1
  have hput := Lib.held_take (Finset.mem_range.2 hx) hxq
  rw [← hput, Lib.nodup_add_singleton] at hnd
  exact hnd.2 (Lib.mem_held.2 ⟨y, Finset.mem_range.2 hy, by
    rw [Function.update_of_ne (Ne.symm hne), hyq]⟩)

theorem UserOk.frame_free (h : UserOk t sz k) {x q : Nat} (hx : x < KERNPAGE)
    (hxq : t.frame x = some q) : q ∉ k.free := by
  intro hq
  have hin : q ∈ t.pages := by
    rw [Pgdir.pages, Multiset.mem_add]
    exact .inr (Lib.mem_held.2 ⟨x, Finset.mem_range.2 hx, hxq⟩)
  exact Multiset.disjoint_left.1 (Multiset.nodup_add.1 h.nodup).2.2 hq hin

/-- A process has the size `sz'`: it has exactly the pages below it, the new ones are zeroed, and
the ones that it had keep their place and their contents. -/
structure Resized (t : Pgdir) (sz : Nat) (k : Kmem) (t' : Pgdir) (sz' : Nat) (k' : Kmem) :
    Prop where
  size : sz' < KERNBASE
  mapped : ∀ v < KERNPAGE, t'.pte v ≠ none ↔ v < pgroundup sz'
  zeroed : ∀ v, pgroundup sz ≤ v → v < pgroundup sz' →
    ∃ e, t'.pte v = some e ∧ k'.mem e.pa = fun _ => 0
  kept : ∀ v e, v < pgroundup sz → v < pgroundup sz' → t.pte v = some e →
    t'.pte v = some e ∧ k'.mem e.pa = k.mem e.pa

/-- The size, the user mappings and their contents are as they were. -/
structure Untouched (t : Pgdir) (sz : Nat) (k : Kmem) (t' : Pgdir) (sz' : Nat) (k' : Kmem) :
    Prop where
  size : sz' = sz
  pte : ∀ v < KERNPAGE, t'.pte v = t.pte v
  mem : ∀ v < KERNPAGE, ∀ e, t.pte v = some e → k'.mem e.pa = k.mem e.pa

/-- The contract of `sbrk`. -/
def Contract (n : Int) (t : Pgdir) (sz : Nat) (k : Kmem) :
    Except Panic (Int × Pgdir × Nat × Kmem) → Prop
  | .ok (r, t', sz', k') =>
    (r = sz ∧ (sz' : Int) = sz + n ∧ Resized t sz k t' sz' k') ∨
      (r = -1 ∧ Untouched t sz k t' sz' k')
  | .error _ => False

theorem sbrk_grow (h : UserOk t sz k) {n : Int} (hn : 0 < n) (hn' : n < 2 ^ 31) :
    Contract n t sz k (sysSbrk n t sz k) := by
  have hK : KERNBASE = 2 ^ 31 := rfl
  have hsz := h.size
  have hadd : ((uadd sz n : Nat) : Int) = sz + n := by
    simp only [uadd]
    omega
  have hle : sz ≤ uadd sz n := by omega
  by_cases hbig : uadd sz n ≥ KERNBASE
  · simp only [sysSbrk, growproc, allocuvm, if_pos hn, if_pos hbig, bind, Except.bind, pure,
      Except.pure]
    exact .inr ⟨rfl, rfl, fun _ _ => rfl, fun _ _ _ _ => rfl⟩
  · have hup := pgroundup_mono hle
    have hupK : pgroundup (uadd sz n) ≤ KERNPAGE := pgroundup_le (by omega)
    have hnone : ∀ x, pgroundup sz ≤ x → x < KERNPAGE → t.pte x = none := by
      intro x h1 h2
      by_contra hne
      have := (h.mapped x h2).1 hne
      omega
    obtain ⟨r, t1, k1, m, hloop, ht1, hp1, hmn, hr, hpte1, hnew1, hm1, hc1, hq1, -, -⟩ :=
      allocLoop_spec (pgroundup (uadd sz n) - pgroundup sz) (pgroundup sz) t k h.ok (by omega)
        (fun x h1 h2 => hnone x h1 (by omega)) (Multiset.nodup_add.1 h.nodup).1
    have hkeep : ∀ v < KERNPAGE, ∀ e, t.pte v = some e → k1.mem e.pa = k.mem e.pa :=
      fun v hv e he => hm1 e.pa (h.frame_free hv (by rw [Pgdir.frame, he, Option.map_some]))
    have hlow : ∀ v, v < pgroundup sz → t1.pte v = t.pte v := fun v hv => hpte1 v (by omega)
    cases r with
    | none =>
      have hmeq := hr rfl
      have hne : ¬ uadd sz n = 0 := by omega
      simp only [sysSbrk, growproc, allocuvm, if_pos hn, if_neg hbig, if_neg (not_lt.2 hle), hloop,
        bind, Except.bind, pure, Except.pure, if_neg hne]
      refine .inl ⟨by simp, hadd, by omega, fun v hv => ?_, fun v h1 h2 => ?_,
        fun v e h1 _ he => ⟨by rw [hlow v h1, he], hkeep v (by omega) e he⟩⟩
      swap
      · obtain ⟨e, he, -, hz⟩ := hnew1 v h1 (by omega)
        exact ⟨e, he, hz⟩
      by_cases hvs : v < pgroundup sz
      · rw [hlow v hvs, h.mapped v hv]
        exact ⟨fun _ => by omega, fun _ => hvs⟩
      · by_cases hvn : v < pgroundup (uadd sz n)
        · obtain ⟨e, he, -⟩ := hnew1 v (by omega) (by omega)
          simp [he, hvn]
        · rw [hpte1 v (by omega), hnone v (by omega) hv]
          simp [hvn]
    | some o =>
      -- memory has run out: what has been mapped is freed again
      have hlt : sz < uadd sz n := by omega
      obtain ⟨t2, k2, hd, ht2, -, hpte2, -, hm2⟩ :=
        deallocuvm_spec ht1 (show uadd sz n ≤ KERNBASE by omega) hlt k1
      simp only [sysSbrk, growproc, allocuvm, if_pos hn, if_neg hbig, if_neg (not_lt.2 hle), hloop,
        bind, Except.bind, pure, Except.pure, hd]
      have hpte : ∀ v < KERNPAGE, t2.pte v = t.pte v := by
        intro v hv
        rw [hpte2]
        by_cases hvs : v < pgroundup sz
        · rw [if_neg (by omega), hlow v hvs]
        · rw [hnone v (by omega) hv]
          by_cases hvn : v < pgroundup (uadd sz n)
          · rw [if_pos ⟨by omega, hvn⟩]
          · rw [if_neg (by omega), hpte1 v (by omega), hnone v (by omega) hv]
      -- the frames that are freed were free before
      have hfreed : ∀ x q, pgroundup sz ≤ x → x < pgroundup (uadd sz n) → t1.frame x = some q →
          q ∈ k.free := by
        intro x q h1 h2 hx
        by_cases hxm : x < pgroundup sz + m
        · obtain ⟨e, he, hin, -⟩ := hnew1 x h1 hxm
          rw [Pgdir.frame, he, Option.map_some] at hx
          cases hx
          exact hin
        · rw [Pgdir.frame, hpte1 x (by omega), hnone x h1 (by omega), Option.map_none] at hx
          cases hx
      have hmem2 : ∀ v < KERNPAGE, ∀ e, t.pte v = some e → k2.mem e.pa = k.mem e.pa := by
        intro v hv e he
        have hfr := h.frame_free hv (q := e.pa) (by rw [Pgdir.frame, he, Option.map_some])
        rw [hm2 e.pa fun x h1 h2 hx => hfr (hfreed x e.pa h1 h2 hx), hkeep v hv e he]
      refine .inr ⟨by simp, by simp, hpte, fun v hv e he => ?_⟩
      cases o with
      | none => exact hmem2 v hv e he
      | some q =>
        have hfr := h.frame_free hv (q := e.pa) (by rw [Pgdir.frame, he, Option.map_some])
        have hne : e.pa ≠ q := fun heq => hfr (heq ▸ hq1 q rfl)
        exact (mem_kfree hne).trans (hmem2 v hv e he)

theorem sbrk_shrink (h : UserOk t sz k) {n : Int} (hn : n < 0) (hn' : -n < sz) :
    Contract n t sz k (sysSbrk n t sz k) := by
  have hK : KERNBASE = 2 ^ 31 := rfl
  have hsz := h.size
  have hadd : ((uadd sz n : Nat) : Int) = sz + n := by
    simp only [uadd]
    omega
  have hlt : uadd sz n < sz := by omega
  have hup := pgroundup_mono hlt.le
  have hupK := pgroundup_le hsz.le
  obtain ⟨t1, k1, hd, -, -, hpte1, -, hm1⟩ := deallocuvm_spec h.ok hsz.le hlt k
  have hne : ¬ uadd sz n = 0 := by omega
  simp only [sysSbrk, growproc, if_neg (not_lt.2 hn.le), if_pos hn, hd, if_neg hne, bind,
    Except.bind, pure, Except.pure]
  refine .inl ⟨by simp, hadd, by omega, fun v hv => ?_, fun v h1 h2 => absurd h2 (by omega),
    fun v e h1 h2 he => ⟨by rw [hpte1, if_neg (by omega), he], hm1 e.pa fun x h3 h4 hx => ?_⟩⟩
  · rw [hpte1]
    have := h.mapped v hv
    split
    · simp only [ne_eq, not_true_eq_false, false_iff]
      omega
    · rw [this]
      omega
  · -- the frame of a page that stays is no other page's
    have hxv := h.frame_inj (by omega) (by omega) hx
      (show t.frame v = some e.pa by rw [Pgdir.frame, he, Option.map_some])
    omega

theorem sbrk_all (h : UserOk t sz k) (hsz : 0 < sz) :
    ¬ Contract (-sz) t sz k (sysSbrk (-sz) t sz k) := by
  have hpos := pgroundup_pos hsz
  have hupK := pgroundup_le h.size.le
  have hz : uadd sz (-sz) = 0 := by simp [uadd]
  obtain ⟨t1, k1, hd, -, -, hpte1, -, -⟩ := deallocuvm_spec h.ok h.size.le hsz k
  have hneg : (-sz : Int) < 0 := by omega
  simp only [sysSbrk, growproc, if_neg (not_lt.2 hneg.le), if_pos hneg, hz, hd, bind,
    Except.bind, pure, Except.pure]
  rintro (⟨hr, -, -⟩ | ⟨-, hun⟩)
  · simp at hr
  · have h0 := hun.pte 0 (by omega)
    rw [hpte1, if_pos ⟨by decide, hpos⟩] at h0
    exact (h.mapped 0 (by omega)).2 hpos h0.symm

theorem sbrk_more (h : UserOk t sz k) {n : Int} (hsz : 0 < sz) (hn : -n > sz)
    (hn' : -2 ^ 31 ≤ n) : ¬ Contract n t sz k (sysSbrk n t sz k) := by
  have hK : KERNBASE = 2 ^ 31 := rfl
  have := h.size
  have hge : uadd sz n ≥ sz := by
    simp only [uadd]
    omega
  have hneg : n < 0 := by omega
  simp only [sysSbrk, growproc, deallocuvm, if_neg (not_lt.2 hneg.le), if_pos hneg, if_pos hge,
    if_neg hsz.ne', bind, Except.bind, pure, Except.pure]
  rintro (⟨-, hr, -⟩ | ⟨hr, -⟩)
  · omega
  · simp at hr

/-- `sbrk` meets its contract exactly when the process does not ask to give back its whole size or
more. -/
theorem sbrk_contract (h : UserOk t sz k) {n : Int} (hlo : -2 ^ 31 ≤ n) (hhi : n < 2 ^ 31) :
    Contract n t sz k (sysSbrk n t sz k) ↔ 0 ≤ n ∨ -n < sz ∨ sz = 0 := by
  constructor
  · intro hc
    by_contra hno
    simp only [not_or, not_le, not_lt] at hno
    obtain ⟨h1, h2, h3⟩ := hno
    rcases h2.lt_or_eq with hmore | hall
    · exact sbrk_more h (by omega) hmore hlo hc
    · obtain rfl : n = -sz := by omega
      exact sbrk_all h (by omega) hc
  · intro hcond
    rcases lt_trichotomy n 0 with hneg | rfl | hpos
    · by_cases hlt : -n < sz
      · exact sbrk_shrink h hneg hlt
      · -- an empty process has nothing to give back
        obtain rfl : sz = 0 := by omega
        have hge : uadd 0 n ≥ 0 := Nat.zero_le _
        simp only [sysSbrk, growproc, deallocuvm, if_neg (not_lt.2 hneg.le), if_pos hneg,
          if_pos hge, bind, Except.bind, pure, Except.pure]
        exact .inr ⟨rfl, rfl, fun _ _ => rfl, fun _ _ _ _ => rfl⟩
    · simp only [sysSbrk, growproc, lt_irrefl, if_false, bind, Except.bind, pure, Except.pure]
      exact .inl ⟨rfl, by simp, h.size, h.mapped, fun v h1 h2 => absurd h2 (by omega),
        fun v e _ _ he => ⟨he, rfl⟩⟩
    · exact sbrk_grow h hpos hhi

def onePage : Pgdir where
  page := 1
  tab := Function.update (fun _ => none) 0 (some 2)
  pte := Function.update (fun _ => none) 0 (some ⟨3, true, true, 0⟩)

theorem onePage_userOk {l : List Nat} (hl : l.Nodup) (hpos : ∀ q ∈ l, 3 < q) :
    UserOk onePage PGSIZE ⟨l, fun _ _ => 0⟩ := by
  have hK := KERNPAGE_eq
  have hpte : ∀ v, v ≠ 0 → onePage.pte v = none := fun v hv => by
    simp [onePage, hv]
  refine ⟨⟨fun v hv => ?_, fun v e hv he => ?_⟩, by decide, fun v hv => ?_, ?_⟩
  · by_cases h0 : v = 0
    · subst h0
      simp [onePage] at hv
    · exact hpte v h0
  · rw [hpte v (by omega)] at he
    cases he
  · have hone : pgroundup PGSIZE = 1 := by decide
    by_cases h0 : v = 0
    · subst h0
      simp [onePage, hone]
    · rw [hpte v h0, hone]
      simp only [ne_eq, not_true_eq_false, false_iff]
      omega
  · have hpages : onePage.pages = {1} + {2} + {3} := by
      have htab := Lib.held_put (s := Finset.range NPDENTRIES) (g := fun _ => none) (i := 0)
        (Finset.mem_range.2 (by rw [NPDENTRIES_eq]; omega)) rfl 2
      have hfr := Lib.held_put (s := Finset.range KERNPAGE) (g := fun _ => none) (i := 0)
        (Finset.mem_range.2 (by omega)) rfl 3
      rw [Lib.held_none, zero_add] at htab hfr
      have hframe : onePage.frame = Function.update (fun _ => none) 0 (some 3) := by
        funext v
        by_cases h0 : v = 0
        · subst h0
          rfl
        · rw [Pgdir.frame, hpte v h0, Function.update_of_ne h0, Option.map_none]
      rw [Pgdir.pages, hframe, hfr]
      exact congrArg (fun m => {1} + m + {3}) htab
    have h1 : 1 ∉ l := fun h => absurd (hpos 1 h) (by decide)
    have h2 : 2 ∉ l := fun h => absurd (hpos 2 h) (by decide)
    have h3 : 3 ∉ l := fun h => absurd (hpos 3 h) (by decide)
    rw [hpages, ← add_assoc, ← add_assoc, Lib.nodup_add_singleton, Lib.nodup_add_singleton,
      Lib.nodup_add_singleton]
    simpa [Kmem.free] using ⟨⟨⟨hl, h1⟩, h2⟩, h3⟩

/-- A process of one page that gives it back is told that it still has it. -/
theorem sbrk_whole_size :
    UserOk onePage PGSIZE ⟨[4], fun _ _ => 0⟩ ∧
    ¬ Contract (-PGSIZE) onePage PGSIZE ⟨[4], fun _ _ => 0⟩
      (sysSbrk (-PGSIZE) onePage PGSIZE ⟨[4], fun _ _ => 0⟩) :=
  have h := onePage_userOk (l := [4]) (by decide) (by decide)
  ⟨h, sbrk_all h (by decide)⟩

/-- It can grow by a page. -/
theorem sbrk_contract_grow :
    UserOk onePage PGSIZE ⟨[4], fun _ _ => 0⟩ ∧
    Contract PGSIZE onePage PGSIZE ⟨[4], fun _ _ => 0⟩
      (sysSbrk PGSIZE onePage PGSIZE ⟨[4], fun _ _ => 0⟩) :=
  have h := onePage_userOk (l := [4]) (by decide) (by decide)
  ⟨h, (sbrk_contract h (by decide) (by decide)).2 (.inl (by decide))⟩

end Xv6.Vm
