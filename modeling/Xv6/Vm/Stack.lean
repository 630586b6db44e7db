import Xv6.Vm.Clone
import Xv6.Vm.Undo

/-!
# The arguments on the new stack

What `copyout` does for any address and length, and what `exec` then leaves on the stack of the new
program. A copy ends at the first page that is not the user's; if there is not even a page table for
it, `uva2ka` follows a null pointer, which counts as a fault here. The page below the stack is not
the user's, so that a copy that does not fit into the page of the stack never succeeds.
-/

namespace Xv6.Vm

variable {t t' : Pgdir} {k k' : Kmem} {sz sp va n x fuel : Nat} {bytes : List Byte}

/-! ## copyout -/

/-- Page `v` is present and the user's. -/
def Pgdir.User (t : Pgdir) (v : Nat) : Prop := ∃ e, t.pte v = some e ∧ e.u = true

/-- The page of byte `x` of a range of addresses that starts at `va`. -/
def pageAt (va x : Nat) : Nat := (va + x) % 2 ^ 32 / PGSIZE

variable {v : Nat}

theorem Pgdir.User.lt (h : t.User v) (ht : t.Ok) : v < KERNPAGE := by
  obtain ⟨e, he, hu⟩ := h
  by_contra hv
  rw [ht.kern v e (not_lt.1 hv) he] at hu
  cases hu

theorem user_range (ht : t.Ok) (hva : va < 2 ^ 32) (h : ∀ x < n, t.User (pageAt va x)) :
    ∀ x < n, va + x < KERNBASE := by
  have hK : KERNBASE = 2147483648 := rfl
  have hPG : PGSIZE = 4096 := rfl
  intro x
  induction x with
  | zero =>
    intro hx
    have := (h 0 hx).lt ht
    rw [KERNPAGE_eq, pageAt, hPG] at this
    omega
  | succ x ih =>
    intro hx
    have hprev := ih (by omega)
    have := (h (x + 1) hx).lt ht
    rw [KERNPAGE_eq, pageAt, hPG] at this
    omega

theorem pageAt_of_lt (h : va + x < 2 ^ 32) : pageAt va x = (va + x) / PGSIZE := by
  rw [pageAt, Nat.mod_eq_of_lt h]

theorem pageAt_first (hva : va < 2 ^ 32) (hx : x < PGSIZE - va % PGSIZE) :
    pageAt va x = va / PGSIZE := by
  have hPG : PGSIZE = 4096 := rfl
  rw [pageAt]
  rw [hPG] at hx ⊢
  omega

theorem pageAt_next (hx : PGSIZE - va % PGSIZE ≤ x) :
    pageAt va x = pageAt ((va / PGSIZE + 1) * PGSIZE % 2 ^ 32) (x - (PGSIZE - va % PGSIZE)) := by
  have hPG : PGSIZE = 4096 := rfl
  have hsum : (va / PGSIZE + 1) * PGSIZE + (x - (PGSIZE - va % PGSIZE)) = va + x := by
    rw [hPG] at hx ⊢
    omega
  rw [pageAt, pageAt, Nat.mod_add_mod, hsum]

variable {e : Pte}

theorem uva2ka_user (ht : t.Ok) (he : t.pte v = some e) (hu : e.u = true) :
    uva2ka t v = .ok (some e.pa) := by
  unfold uva2ka
  cases htab : t.tab (v / NPDENTRIES) with
  | none =>
    rw [ht.tab v htab] at he
    cases he
  | some q => simp [he, hu]

theorem uva2ka_not_user (htab : t.tab (v / NPDENTRIES) ≠ none) (hv : ¬ t.User v) :
    uva2ka t v = .ok none := by
  unfold uva2ka
  obtain ⟨q, hq⟩ := Option.ne_none_iff_exists'.1 htab
  rw [hq]
  cases he : t.pte v with
  | none => rfl
  | some e =>
    dsimp only
    rw [if_neg fun hu => hv ⟨e, he, hu⟩]

theorem uva2ka_fault (htab : t.tab (v / NPDENTRIES) = none) : uva2ka t v = .error .wild := by
  unfold uva2ka
  rw [htab]

/-- What a copy has done to the memory: only the frames of pages of the range have changed, and only
at the addresses of the range. -/
def Touched (t : Pgdir) (va n : Nat) (k k' : Kmem) : Prop :=
  ∀ pa o, k'.mem pa o ≠ k.mem pa o →
    ∃ x < n, ∃ e, t.pte (pageAt va x) = some e ∧ e.u = true ∧ e.pa = pa ∧ o =
      Fin.ofNat PGSIZE (va + x)

inductive CopyResult (t : Pgdir) (va : Nat) (bytes : List Byte) (k : Kmem) :
    Except Panic (Bool × Kmem) → Prop
  | fault {x : Nat} (hx : x < bytes.length) (htab : t.tab (pageAt va x / NPDENTRIES) = none)
      (hy : ∀ y < x, t.User (pageAt va y)) : CopyResult t va bytes k (.error .wild)
  | refused {x : Nat} {k' : Kmem} (hx : x < bytes.length)
      (htab : t.tab (pageAt va x / NPDENTRIES) ≠ none) (hu : ¬ t.User (pageAt va x))
      (hy : ∀ y < x, t.User (pageAt va y)) (hm : Touched t va x k k') :
      CopyResult t va bytes k (.ok (false, k'))
  | done {k' : Kmem} (hu : ∀ x < bytes.length, t.User (pageAt va x))
      (hb : ∀ x (hx : x < bytes.length), t.peek k' (va + x) = some bytes[x])
      (hm : Touched t va bytes.length k k') : CopyResult t va bytes k (.ok (true, k'))

theorem Touched.refl : Touched t va n k k := fun _ _ h => absurd rfl h

theorem Touched.next {part : List Byte} {m : Nat} (hva : va < 2 ^ 32)
    (he : t.pte (va / PGSIZE) = some e) (hu : e.u = true)
    (hpart : part.length ≤ PGSIZE - va % PGSIZE)
    (hn : part.length ≤ n) (hm : PGSIZE - va % PGSIZE + m ≤ n ∨ m = 0)
    (h : Touched t ((va / PGSIZE + 1) * PGSIZE % 2 ^ 32) m
      (k.fill e.pa (patch (va % PGSIZE) part (k.mem e.pa))) k') : Touched t va n k k' := by
  have hPG : PGSIZE = 4096 := rfl
  intro pa o hne
  by_cases hfirst : k'.mem pa o =
      (k.fill e.pa (patch (va % PGSIZE) part (k.mem e.pa))).mem pa o
  · -- the first page
    rw [hfirst] at hne
    by_cases hpa : pa = e.pa
    · subst hpa
      simp only [Kmem.fill, Function.update_self, patch] at hne
      by_cases hin : va % PGSIZE ≤ o.val ∧ o.val < va % PGSIZE + part.length
      · have hx : o.val - va % PGSIZE < PGSIZE - va % PGSIZE := by omega
        refine ⟨o.val - va % PGSIZE, by omega, e, ?_, hu, rfl, ?_⟩
        · rw [pageAt_first hva hx]
          exact he
        · apply Fin.ext
          have hsum : va + (o.val - va % PGSIZE) = o.val + PGSIZE * (va / PGSIZE) := by
            have := Nat.div_add_mod va PGSIZE
            omega
          simp only [Fin.ofNat, hsum, Nat.add_mul_mod_self_left, Nat.mod_eq_of_lt o.isLt]
      · rw [if_neg hin] at hne
        exact absurd rfl hne
    · simp only [Kmem.fill, Function.update_of_ne hpa] at hne
      exact absurd rfl hne
  · obtain ⟨x, hx, e', he', hu', hpa, ho⟩ := h pa o hfirst
    have hxn : PGSIZE - va % PGSIZE + x < n := by omega
    have hpage := pageAt_next (Nat.le_add_right (PGSIZE - va % PGSIZE) x)
    rw [Nat.add_sub_cancel_left] at hpage
    refine ⟨PGSIZE - va % PGSIZE + x, hxn, e', by rw [hpage]; exact he', hu', hpa, ?_⟩
    rw [ho]
    apply Fin.ext
    simp only [Fin.ofNat, hPG]
    omega

theorem copyout_copied (ht : t.Ok) (hnd : t.pages.Nodup) (hlen : bytes.length ≤ fuel)
    (hva : va < 2 ^ 32) : CopyResult t va bytes k (copyout fuel va bytes t k) := by
  have hPG : PGSIZE = 4096 := rfl
  have hnil : ∀ {va : Nat} {k : Kmem}, CopyResult t va [] k (.ok (true, k)) :=
    .done (fun x hx => absurd hx (Nat.not_lt_zero x)) (fun x hx => absurd hx (Nat.not_lt_zero x))
      .refl
  induction fuel generalizing va bytes k with
  | zero =>
    obtain rfl : bytes = [] := List.length_eq_zero_iff.1 (by omega)
    exact hnil
  | succ fuel ih =>
    unfold copyout
    by_cases hb : bytes = []
    · rw [if_pos hb, hb]
      exact hnil
    rw [if_neg hb]
    have hpos : 0 < bytes.length := List.length_pos_iff.2 hb
    have hoff : va % PGSIZE < PGSIZE := Nat.mod_lt _ (by decide)
    have hzero : pageAt va 0 = va / PGSIZE := pageAt_first hva (by omega)
    cases htab : t.tab (va / PGSIZE / NPDENTRIES) with
    | none =>
      rw [uva2ka_fault htab]
      exact .fault hpos (by rw [hzero]; exact htab) fun y hy => absurd hy (Nat.not_lt_zero y)
    | some q =>
      have htab' : t.tab (va / PGSIZE / NPDENTRIES) ≠ none := by
        rw [htab]
        exact Option.some_ne_none q
      by_cases huser : t.User (va / PGSIZE)
      · obtain ⟨e, he, hu⟩ := huser
        rw [uva2ka_user ht he hu]
        have hva' : (va / PGSIZE + 1) * PGSIZE % 2 ^ 32 < 2 ^ 32 := Nat.mod_lt _ (by decide)
        have hrest : (bytes.drop (PGSIZE - va % PGSIZE)).length =
          bytes.length - (PGSIZE - va % PGSIZE) :=
          List.length_drop
        have hpart : (bytes.take (PGSIZE - va % PGSIZE)).length =
            min (PGSIZE - va % PGSIZE) bytes.length := List.length_take
        have hle : (bytes.drop (PGSIZE - va % PGSIZE)).length ≤ fuel := by omega
        have hcopy := ih (k := k.fill e.pa (patch (va % PGSIZE) (bytes.take (PGSIZE - va % PGSIZE))
          (k.mem e.pa))) hle hva'
        change CopyResult t va bytes k (copyout fuel ((va / PGSIZE + 1) * PGSIZE % 2 ^ 32)
          (bytes.drop (PGSIZE - va % PGSIZE)) t
          (k.fill e.pa (patch (va % PGSIZE) (bytes.take (PGSIZE - va % PGSIZE)) (k.mem e.pa))))
        -- the users of the first page, and of those behind it
        have husers : ∀ m, (∀ y < m, t.User (pageAt ((va / PGSIZE + 1) * PGSIZE % 2 ^ 32) y)) →
            ∀ y < PGSIZE - va % PGSIZE + m, t.User (pageAt va y) := by
          intro m hm y hy
          by_cases hyd : y < PGSIZE - va % PGSIZE
          · rw [pageAt_first hva hyd]
            exact ⟨e, he, hu⟩
          · rw [pageAt_next (not_lt.1 hyd)]
            exact hm _ (by omega)
        have hnext : ∀ x, pageAt va (PGSIZE - va % PGSIZE + x) =
            pageAt ((va / PGSIZE + 1) * PGSIZE % 2 ^ 32) x := by
          intro x
          rw [pageAt_next (Nat.le_add_right _ _), Nat.add_sub_cancel_left]
        generalize copyout fuel ((va / PGSIZE + 1) * PGSIZE % 2 ^ 32)
          (bytes.drop (PGSIZE - va % PGSIZE)) t
          (k.fill e.pa (patch (va % PGSIZE) (bytes.take (PGSIZE - va % PGSIZE)) (k.mem e.pa))) = r
          at hcopy ⊢
        cases hcopy with
        | @fault x hx htab hy =>
          exact .fault (x := PGSIZE - va % PGSIZE + x) (by omega) (by rw [hnext]; exact htab)
            (husers x hy)
        | @refused x k' hx htab hux hy hm =>
          refine .refused (x := PGSIZE - va % PGSIZE + x) (by omega) (by rw [hnext]; exact htab)
            (by rw [hnext]; exact hux) (husers x hy) ?_
          exact hm.next hva he hu (by omega) (by omega) (.inl le_rfl)
        | @done k' hus hbs hm =>
          have hall : ∀ x < bytes.length, t.User (pageAt va x) := fun x hx =>
            husers (bytes.drop (PGSIZE - va % PGSIZE)).length hus x (by omega)
          have hrange := user_range ht hva hall
          have hK : KERNBASE = 2147483648 := rfl
          refine .done hall (fun x hx => ?_) (hm.next hva he hu (by omega) (by omega) (by omega))
          have hxK := hrange x hx
          by_cases hxd : x < PGSIZE - va % PGSIZE
          · -- the rest of the copy goes to other frames
            have hpg : (va + x) / PGSIZE = va / PGSIZE := by
              rw [← pageAt_of_lt (by omega), pageAt_first hva hxd]
            have hkeep : k'.mem e.pa (Fin.ofNat PGSIZE (va + x)) =
                (k.fill e.pa (patch (va % PGSIZE) (bytes.take (PGSIZE - va % PGSIZE))
                  (k.mem e.pa))).mem e.pa (Fin.ofNat PGSIZE (va + x)) := by
              by_contra hne
              obtain ⟨y, hy, e', he', hu', hpa, -⟩ := hm _ _ hne
              have hyK := hrange (PGSIZE - va % PGSIZE + y) (by omega)
              have hsame := Pgdir.pa_inj hnd (Pgdir.User.lt ⟨e, he, hu⟩ ht)
                (Pgdir.User.lt ⟨e', he', hu'⟩ ht) he he' hpa.symm
              rw [← hnext, pageAt_of_lt (by omega)] at hsame
              rw [hPG] at hsame
              omega
            rw [Pgdir.peek, hpg, he, Option.map_some, hkeep]
            have hval : (Fin.ofNat PGSIZE (va + x)).val = va % PGSIZE + x := by
              simp only [Fin.ofNat]
              rw [hPG] at hxd ⊢
              omega
            simp only [Kmem.fill, Function.update_self, patch, hval]
            rw [if_pos (by omega), Nat.add_sub_cancel_left, List.getD,
              List.getElem?_eq_getElem (by omega), Option.getD_some, List.getElem_take]
          · have hmod : (va / PGSIZE + 1) * PGSIZE % 2 ^ 32 = (va / PGSIZE + 1) * PGSIZE := by
              apply Nat.mod_eq_of_lt
              rw [hPG] at hxd ⊢
              omega
            have hsum : (va / PGSIZE + 1) * PGSIZE + (x - (PGSIZE - va % PGSIZE)) = va + x := by
              rw [hPG] at hxd ⊢
              omega
            have hbyte := hbs (x - (PGSIZE - va % PGSIZE)) (by omega)
            rw [hmod, hsum, List.getElem_drop] at hbyte
            rw [hbyte]
            congr 2
            omega
      · rw [uva2ka_not_user htab' huser]
        exact .refused hpos (by rw [hzero]; exact htab') (by rw [hzero]; exact huser)
          (fun y hy => absurd hy (Nat.not_lt_zero y)) .refl

/-- `copyout` of any bytes to any address, in an address space with distinct frames. It returns
unless it comes to a page without a page table, and such a page is reached if all pages before it
are the user's; if it returns, then with 0 exactly if all pages of the range are the user's; it
writes to frames of the user's pages of the range only, at the addresses of the range; and if it
returns 0 then all bytes are there. -/
theorem copyout_returns_iff (bytes : List Byte) (ht : t.Ok) (hnd : t.pages.Nodup)
    (hva : va < 2 ^ 32) :
    ((∃ r, copyout bytes.length va bytes t k = .ok r) ↔
      ∀ x < bytes.length, (∀ y < x, t.User (pageAt va y)) →
        t.tab (pageAt va x / NPDENTRIES) ≠ none) ∧
    ∀ r k', copyout bytes.length va bytes t k = .ok (r, k') →
      (r = true ↔ ∀ x < bytes.length, t.User (pageAt va x)) ∧
      Touched t va bytes.length k k' ∧
      (r = true → ∀ x (hx : x < bytes.length), t.peek k' (va + x) = some bytes[x]) := by
  have hcopy := copyout_copied (k := k) ht hnd (le_refl bytes.length) hva
  generalize copyout bytes.length va bytes t k = o at hcopy ⊢
  -- before the page at which the copy stops, all pages are the user's
  have hfirst : ∀ {x x' : Nat}, (∀ y < x, t.User (pageAt va y)) →
      (∀ y < x', t.User (pageAt va y)) → ¬ t.User (pageAt va x) → ¬ t.User (pageAt va x') →
        x = x' := by
    intro x x' hx hx' hn hn'
    rcases lt_trichotomy x x' with h | h | h
    · exact absurd (hx' x h) hn
    · exact h
    · exact absurd (hx x' h) hn'
  have hno : ∀ {v : Nat}, t.tab (v / NPDENTRIES) = none → ¬ t.User v := by
    rintro v htab ⟨e, he, -⟩
    rw [ht.tab v htab] at he
    cases he
  cases hcopy with
  | @fault x hx htab hy => exact ⟨⟨nofun, fun h => absurd htab (h x hx hy)⟩, nofun⟩
  | @refused x k' hx htab hu hy hm =>
    refine ⟨⟨fun _ x' hx' hy' htab' => ?_, fun _ => ⟨_, rfl⟩⟩, ?_⟩
    · obtain rfl := hfirst hy hy' hu (hno htab')
      exact htab htab'
    · rintro _ _ ⟨⟩
      refine ⟨⟨nofun, fun h => absurd (h x hx) hu⟩, fun pa o hne => ?_, nofun⟩
      obtain ⟨y, hyx, h⟩ := hm pa o hne
      exact ⟨y, by omega, h⟩
  | @done k' hu hb hm =>
    refine ⟨⟨fun _ x hx _ htab => hno htab (hu x hx), fun _ => ⟨_, rfl⟩⟩, ?_⟩
    rintro _ _ ⟨⟩
    exact ⟨⟨fun _ => hu, fun _ => rfl⟩, hm, fun _ => hb⟩

theorem copyout_returns_byte : ∃ k', copyout 1 5 [7] onePage ⟨[], fun _ _ => 0⟩ = .ok (true, k') ∧
    onePage.peek k' 5 = some 7 := by
  have huser : onePage.User (pageAt 5 0) := ⟨_, rfl, rfl⟩
  have hall : ∀ x < [(7 : Byte)].length, onePage.User (pageAt 5 x) := fun x hx => by
    obtain rfl : x = 0 := Nat.lt_one_iff.1 hx
    exact huser
  have hok := onePage_userOk List.nodup_nil nofun
  obtain ⟨hret, h⟩ := copyout_returns_iff (k := ⟨[], fun _ _ => 0⟩) [7] hok.ok
    (Multiset.nodup_of_le (Multiset.le_add_left _ _) hok.nodup) (by decide : 5 < 2 ^ 32)
  obtain ⟨⟨r, k'⟩, hrun⟩ := hret.2 fun x hx _ => by
    obtain rfl : x = 0 := Nat.lt_one_iff.1 hx
    rw [show pageAt 5 0 = 0 from rfl, Nat.zero_div]
    exact Option.some_ne_none 2
  obtain ⟨hr, -, hb⟩ := h r k' hrun
  obtain rfl := hr.2 hall
  exact ⟨k', hrun, hb rfl 0 Nat.one_pos⟩

theorem emptyImage_enough (ly : Layout) (hnd : k.free.Nodup) (hF : 1100 < k.freelist.length) :
    ∃ d k₁ t k₂, setupkvm ly k = .ok (some d, k₁) ∧
      makeStack 0 d k₁ = .ok (some (2 * PGSIZE), t, k₂) ∧ t.tab 1015 = none := by
  obtain ⟨d, k₁, hset, hd, htabs, hlow, hc, -, hF1⟩ := setupkvm_enough (k := k) ly (by omega)
  have h0 : pgroundup 0 = 0 := rfl
  have h2 : pgroundup (2 * PGSIZE) = 2 := rfl
  have hnd1 : k₁.free.Nodup := Multiset.nodup_of_le (hc ▸ Multiset.le_add_right ..) hnd
  obtain ⟨t1, k₂, hal, ht1, -, -, hnew, htab, -⟩ :=
    allocuvm_enough (k := k₁) hd (fun v _ hv => hlow v hv) hnd1 (Nat.zero_le (2 * PGSIZE))
      (by decide) (by rw [h2]; omega)
  rw [h0, h2] at hnew htab
  have htab0 : t1.tab (0 / NPDENTRIES) ≠ none := fun hn => hnew 0 le_rfl (by omega) (ht1.tab 0 hn)
  obtain ⟨x, hx⟩ := Option.ne_none_iff_exists'.1 htab0
  obtain ⟨t2, hcl⟩ : ∃ t2, clearpteu t1 0 = .ok t2 := by
    unfold clearpteu
    rw [hx]
    exact ⟨_, rfl⟩
  have htab2 := (clearpteu_spec ht1 hcl).2.2.1
  refine ⟨d, k₁, t2, k₂, hset, ?_, ?_⟩
  · have hz : 0 * PGSIZE = 0 := rfl
    have hz' : 0 + 2 * PGSIZE = 2 * PGSIZE := rfl
    have hne : ¬ 2 * PGSIZE = 0 := by decide
    have hpg : 2 * PGSIZE / PGSIZE - 2 = 0 := rfl
    simp only [makeStack, h0, hz, hz', hal, bind, Except.bind, pure, Except.pure, if_neg hne, hpg,
      hcl]
  · rw [htab2, htab]
    refine ⟨tab_eq_none htabs (by omega) (by simp [kernTabs]), fun x _ hx => ?_⟩
    have hlt : x / NPDENTRIES = 0 := by
      rw [NPDENTRIES_eq]
      omega
    omega

/-- `exec` of a program without segments with an argument of 33566719 bytes: the first page that
`copyout` comes to has no page table. -/
theorem copyout_faults : ∃ (a : List Byte) (d t : Pgdir) (k₁ k₂ : Kmem), a.length = 33566719 ∧
    setupkvm someLayout (freePages 0) = .ok (some d, k₁) ∧
    makeStack 0 d k₁ = .ok (some (2 * PGSIZE), t, k₂) ∧
    copyout (a.length + 1) (down (2 * PGSIZE) (a.length + 1)) (a ++ [0]) t k₂ = .error .wild := by
  have hnd : (freePages 0).free.Nodup := List.nodup_range'
  have hlen : (freePages 0).freelist.length = 2000 := List.length_range'
  generalize freePages 0 = k at hnd hlen ⊢
  obtain ⟨d, k₁, t, k₂, hset, hstack, htab⟩ := emptyImage_enough someLayout hnd (by omega)
  obtain ⟨a, ha⟩ : ∃ a : List Byte, a.length = 33566719 := ⟨_, List.length_replicate (a := 7)⟩
  have hpage : down (2 * PGSIZE) (a.length + 1) / PGSIZE / NPDENTRIES = 1015 := by
    rw [NPDENTRIES_eq, ha]
    decide
  have hfault : uva2ka t (down (2 * PGSIZE) (a.length + 1) / PGSIZE) = .error .wild :=
    uva2ka_fault (by rw [hpage]; exact htab)
  refine ⟨a, d, t, k₁, k₂, ha, hset, hstack, ?_⟩
  unfold copyout
  rw [if_neg (by simp), hfault]
  rfl

/-! ## The page of the stack -/

/-- The bytes are in memory at address `va`. -/
def Pgdir.Holds (t : Pgdir) (k : Kmem) (va : Nat) (bytes : List Byte) : Prop :=
  ∀ x (hx : x < bytes.length), t.peek k (va + x) = some bytes[x]

variable {b1 b2 : List Byte}

theorem Pgdir.Holds.left (h : t.Holds k va (b1 ++ b2)) : t.Holds k va b1 := by
  intro x hx
  rw [h x (by rw [List.length_append]; omega), List.getElem_append_left hx]

theorem Pgdir.Holds.right (h : t.Holds k va (b1 ++ b2)) : t.Holds k (va + b1.length) b2 := by
  intro x hx
  rw [Nat.add_assoc, h (b1.length + x) (by rw [List.length_append]; omega),
    List.getElem_append_right (Nat.le_add_right _ _)]
  congr 2
  omega

/-- The little-endian word at address `va`. -/
def Pgdir.readWord (t : Pgdir) (k : Kmem) (va : Nat) : Option Nat := do
  let b0 ← t.peek k va
  let b1 ← t.peek k (va + 1)
  let b2 ← t.peek k (va + 2)
  let b3 ← t.peek k (va + 3)
  return b0.toNat + 2 ^ 8 * b1.toNat + 2 ^ 16 * b2.toNat + 2 ^ 24 * b3.toNat

theorem Pgdir.Holds.readWord {w : Nat} (h : t.Holds k va (bytesOf w)) (hw : w < 2 ^ 32) :
    t.readWord k va = some w := by
  have h0 : t.peek k va = some (BitVec.ofNat 8 w) := h 0 (by simp [bytesOf])
  have h1 : t.peek k (va + 1) = some (BitVec.ofNat 8 (w / 2 ^ 8)) := h 1 (by simp [bytesOf])
  have h2 : t.peek k (va + 2) = some (BitVec.ofNat 8 (w / 2 ^ 16)) := h 2 (by simp [bytesOf])
  have h3 : t.peek k (va + 3) = some (BitVec.ofNat 8 (w / 2 ^ 24)) := h 3 (by simp [bytesOf])
  simp only [Pgdir.readWord, h0, h1, h2, h3, bind, Option.bind, pure, BitVec.toNat_ofNat,
    Option.some.injEq]
  omega

theorem Pgdir.readWord_congr (h : ∀ x < 4, t.peek k' (va + x) = t.peek k (va + x)) :
    t.readWord k' va = t.readWord k va := by
  have h0 : t.peek k' va = t.peek k va := h 0 (by decide)
  unfold Pgdir.readWord
  rw [h0, h 1 (by decide), h 2 (by decide), h 3 (by decide)]

theorem Pgdir.Holds.words {ws : List Nat} (h : t.Holds k va (ws.flatMap bytesOf))
    (hws : ∀ w ∈ ws, w < 2 ^ 32) :
    ∀ i w, ws[i]? = some w → t.readWord k (va + 4 * i) = some w := by
  induction ws generalizing va with
  | nil => exact fun i w hw => absurd hw (by simp)
  | cons w ws ih =>
    rw [List.flatMap_cons] at h
    intro i w' hw
    cases i with
    | zero =>
      cases hw
      exact h.left.readWord (hws w List.mem_cons_self)
    | succ i =>
      have hword := ih h.right (fun w hw => hws w (List.mem_cons_of_mem _ hw)) i w' hw
      rw [← hword, show (bytesOf w).length = 4 from rfl]
      congr 1
      omega

/-- An address space with the stack in its last page, and a page that is not the user's below. -/
structure StackPage (t : Pgdir) (sz : Nat) : Prop where
  ok : t.Ok
  nodup : t.pages.Nodup
  lt : sz < KERNBASE
  aligned : sz % PGSIZE = 0
  two : 2 * PGSIZE ≤ sz
  guard : ¬ t.User (sz / PGSIZE - 2)

variable {sz' : Nat}

theorem makeStack_some (h : makeStack sz t k = .ok (some sz', t', k')) :
    ∃ t₁ k₁, allocuvm t (pgroundup sz * PGSIZE) (pgroundup sz * PGSIZE + 2 * PGSIZE) k =
      .ok (sz', t₁, k₁) ∧ sz' ≠ 0 ∧ clearpteu t₁ (sz' / PGSIZE - 2) = .ok t' := by
  unfold makeStack at h
  cases hal : allocuvm t (pgroundup sz * PGSIZE) (pgroundup sz * PGSIZE + 2 * PGSIZE) k with
  | error e =>
    simp only [hal, bind, Except.bind] at h
    cases h
  | ok x =>
    obtain ⟨a, t₁, k₁⟩ := x
    simp only [hal, bind, Except.bind] at h
    by_cases ha : a = 0
    · rw [if_pos ha] at h
      cases h
    rw [if_neg ha] at h
    cases hcl : clearpteu t₁ (a / PGSIZE - 2) with
    | error e =>
      rw [hcl] at h
      cases h
    | ok t2 =>
      rw [hcl] at h
      cases h
      exact ⟨t₁, k', rfl, ha, hcl⟩

theorem allocLoop_user {n : Nat} (ht : ∀ v, t.tab (v / NPDENTRIES) = none → t.pte v = none)
    (h : allocLoop n v t k = .ok (none, t', k')) :
    (∀ x, x < v → t'.pte x = t.pte x) ∧ ∀ x, v ≤ x → x < v + n → t'.User x := by
  induction n generalizing v t k with
  | zero =>
    cases h
    exact ⟨fun _ _ => rfl, fun x h1 h2 => absurd h2 (by omega)⟩
  | succ n ih =>
    unfold allocLoop at h
    cases hk : kalloc k with
    | none =>
      rw [hk] at h
      cases h
    | some a =>
      obtain ⟨q, k1⟩ := a
      simp only [hk] at h
      cases hm : mappages true true 0 1 t v q (k1.fill q fun _ => 0) with
      | error e =>
        simp only [hm, bind, Except.bind] at h
        cases h
      | ok y =>
        obtain ⟨b, t1, k2⟩ := y
        simp only [hm, bind, Except.bind] at h
        cases b with
        | false => cases h
        | true =>
          obtain ⟨hpte, htab⟩ := mappages_pte ht hm
          obtain ⟨hold, hnew⟩ := ih htab h
          refine ⟨fun x hx => ?_, fun x h1 h2 => ?_⟩
          · rw [hold x (by omega), hpte, if_neg (by omega)]
          · by_cases hx : x = v
            · refine ⟨⟨q, true, true, 0⟩, ?_, rfl⟩
              rw [hold x (by omega), hpte, if_pos (by omega), hx, Nat.sub_self, Nat.add_zero]
            · exact hnew x (by omega) (by omega)

theorem allocuvm_some {oldsz newsz a : Nat} (hle : oldsz ≤ newsz)
    (h : allocuvm t oldsz newsz k = .ok (a, t', k')) (ha : a ≠ 0) :
    a = newsz ∧ allocLoop (pgroundup newsz - pgroundup oldsz) (pgroundup oldsz) t k =
      .ok (none, t', k') := by
  unfold allocuvm at h
  by_cases hbig : newsz ≥ KERNBASE
  · rw [if_pos hbig] at h
    cases h
    exact absurd rfl ha
  rw [if_neg hbig, if_neg (by omega)] at h
  cases hl : allocLoop (pgroundup newsz - pgroundup oldsz) (pgroundup oldsz) t k with
  | error e =>
    simp only [hl, bind, Except.bind] at h
    cases h
  | ok x =>
    obtain ⟨r, t1, k1⟩ := x
    simp only [hl, bind, Except.bind] at h
    cases r with
    | none =>
      cases h
      exact ⟨rfl, rfl⟩
    | some o =>
      cases h
      exact absurd rfl ha

theorem makeStack_stackPage (ht : t.Ok) (hab : Above t sz) (hbel : Below t sz)
    (hnd : (k.free + t.pages).Nodup) (h : makeStack sz t k = .ok (some sz', t', k')) :
    StackPage t' sz' := by
  obtain ⟨ht', hpages, hsome⟩ := makeStack_spec ht hab hbel hnd h
  obtain ⟨hlt, -, -, hsz'⟩ := hsome sz' rfl
  have hnd' : t'.pages.Nodup := by
    rw [← hpages] at hnd
    exact (Multiset.nodup_add.1 hnd).2.1
  obtain ⟨t1, k1, -, -, hcl⟩ := makeStack_some h
  refine ⟨ht', hnd', hlt, ?_, by omega, ?_⟩
  · rw [hsz', ← Nat.add_mul, Nat.mul_mod_left]
  · rw [clearpteu_pte hcl]
    rintro ⟨e, he, hu⟩
    simp only [Pgdir.setPte, Function.update_self, Option.map_eq_some_iff] at he
    obtain ⟨e', -, rfl⟩ := he
    cases hu

theorem makeStack_user (ht : t.Ok) (h : makeStack sz t k = .ok (some sz', t', k')) :
    t'.User (sz' / PGSIZE - 1) := by
  have hPG : PGSIZE = 4096 := rfl
  obtain ⟨t1, k1, hal, hne, hcl⟩ := makeStack_some h
  obtain ⟨hsz', hloop⟩ := allocuvm_some (Nat.le_add_right _ _) hal hne
  rw [← Nat.add_mul, pgroundup_mul, pgroundup_mul] at hloop
  have hlast : sz' / PGSIZE - 1 = pgroundup sz + 1 := by
    rw [hsz', ← Nat.add_mul, Nat.mul_div_cancel _ (by decide : 0 < PGSIZE)]
    omega
  obtain ⟨e, he, hu⟩ := (allocLoop_user ht.tab hloop).2 (pgroundup sz + 1) (by omega) (by omega)
  refine ⟨e, ?_, hu⟩
  have hother : pgroundup sz + 1 ≠ sz' / PGSIZE - 2 := by omega
  rw [clearpteu_pte hcl, hlast]
  simp only [Pgdir.setPte, Function.update_of_ne hother]
  exact he

def OnlyStack (t : Pgdir) (sz : Nat) (k k' : Kmem) : Prop :=
  ∀ pa o, k'.mem pa o ≠ k.mem pa o → ∃ e, t.pte (sz / PGSIZE - 1) = some e ∧ e.pa = pa

theorem OnlyStack.refl : OnlyStack t sz k k := fun _ _ h => absurd rfl h

theorem OnlyStack.trans {k'' : Kmem} (h : OnlyStack t sz k k') (h' : OnlyStack t sz k' k'') :
    OnlyStack t sz k k'' := by
  intro pa o hne
  by_cases heq : k''.mem pa o = k'.mem pa o
  · exact h pa o (heq ▸ hne)
  · exact h' pa o heq

theorem down_mod (sp n : Nat) : down sp n % 4 = 0 := Nat.mul_mod_left _ 4

namespace StackPage

theorem fits (h : StackPage t sz) (hlo : sz - PGSIZE ≤ sp) (hhi : sp ≤ sz) (hn : 0 < n)
    (hu : ∀ x < n, t.User (pageAt (down sp n) x)) :
    sz - PGSIZE ≤ down sp n ∧ down sp n + n ≤ sp := by
  have hK : KERNBASE = 2147483648 := rfl
  have hPG : PGSIZE = 4096 := rfl
  obtain ⟨hok, -, hlt, hal, htwo, hguard⟩ := h
  have hdown : down sp n = (sp + 2 ^ 32 - n % 2 ^ 32) % 2 ^ 32 / 4 * 4 := rfl
  have hva : down sp n < 2 ^ 32 := by omega
  have hrange := user_range hok hva hu
  have hlast := hrange (n - 1) (by omega)
  have hend : down sp n + n ≤ sp := by omega
  refine ⟨?_, hend⟩
  by_contra hbelow
  obtain ⟨x, hx, hx1, hx2⟩ : ∃ x < n, sz - 2 * PGSIZE ≤ down sp n + x ∧
      down sp n + x < sz - PGSIZE := by
    by_cases hc : down sp n + n ≤ sz - PGSIZE
    · exact ⟨n - 1, by omega, by omega, by omega⟩
    · exact ⟨sz - PGSIZE - 1 - down sp n, by omega, by omega, by omega⟩
  have hpage := hu x hx
  rw [pageAt_of_lt (by omega)] at hpage
  have hx' : (down sp n + x) / PGSIZE = sz / PGSIZE - 2 := by
    rw [hPG] at hx1 hx2 hal htwo ⊢
    omega
  rw [hx'] at hpage
  exact hguard hpage

theorem push (h : StackPage t sz) (hlo : sz - PGSIZE ≤ sp) (hhi : sp ≤ sz) (hb : bytes ≠ [])
    (hcopy : copyout bytes.length (down sp bytes.length) bytes t k = .ok (true, k')) :
    sz - PGSIZE ≤ down sp bytes.length ∧ down sp bytes.length + bytes.length ≤ sp ∧
    t.Holds k' (down sp bytes.length) bytes ∧
    (∀ a, sp ≤ a → a < sz → t.peek k' a = t.peek k a) ∧ OnlyStack t sz k k' := by
  have hK : KERNBASE = 2147483648 := rfl
  have hPG : PGSIZE = 4096 := rfl
  have hva : down sp bytes.length < 2 ^ 32 := by
    unfold down
    omega
  have hcopied := copyout_copied (k := k) h.ok h.nodup (le_refl bytes.length) hva
  rw [hcopy] at hcopied
  cases hcopied with
  | done hu hbytes hm =>
    obtain ⟨hlo', hend⟩ := h.fits hlo hhi (List.length_pos_iff.2 hb) hu
    have hlt := h.lt
    have hal := h.aligned
    have htwo := h.two
    have hpage : ∀ x < bytes.length, pageAt (down sp bytes.length) x = sz / PGSIZE - 1 := by
      intro x hx
      rw [pageAt_of_lt (by omega)]
      rw [hPG] at hlo' hal htwo ⊢
      omega
    refine ⟨hlo', hend, hbytes, fun a ha hasz => ?_, fun pa o hne => ?_⟩
    · -- a byte above the stack pointer is none of the copy
      by_contra hne
      unfold Pgdir.peek at hne
      cases he : t.pte (a / PGSIZE) with
      | none => exact hne (by rw [he]; rfl)
      | some e =>
        rw [he, Option.map_some, Option.map_some] at hne
        obtain ⟨x, hx, e', he', -, hpa, ho⟩ := hm e.pa _ fun heq => hne (congrArg some heq)
        rw [hpage x hx] at he'
        have hsame : a / PGSIZE = sz / PGSIZE - 1 := by
          rw [hPG] at hal htwo hlo ⊢
          omega
        have hval := congrArg Fin.val ho
        simp only [Fin.ofNat] at hval
        rw [hPG] at hval hsame hlo' hal htwo
        omega
    · obtain ⟨x, hx, e, he, -, hpa, -⟩ := hm pa o hne
      rw [hpage x hx] at he
      exact ⟨e, he, hpa⟩

theorem copyout (h : StackPage t sz) (hu : t.User (sz / PGSIZE - 1)) (k : Kmem) {va : Nat}
    (bytes : List Byte) (hlo : sz - PGSIZE ≤ va) (hhi : va + bytes.length ≤ sz) :
    ∃ k', copyout bytes.length va bytes t k = .ok (true, k') := by
  have hK : KERNBASE = 2147483648 := rfl
  have hPG : PGSIZE = 4096 := rfl
  have hlt := h.lt
  have hal := h.aligned
  have htwo := h.two
  have hpage : ∀ x < bytes.length, pageAt va x = sz / PGSIZE - 1 := by
    intro x hx
    rw [pageAt_of_lt (by omega)]
    rw [hPG] at hlo hal htwo ⊢
    omega
  have hva : va < 2 ^ 32 := by omega
  have hcopied := copyout_copied (k := k) h.ok h.nodup (le_refl bytes.length) hva
  generalize Vm.copyout bytes.length va bytes t k = r at hcopied ⊢
  cases hcopied with
  | fault hx htab _ =>
    rw [hpage _ hx] at htab
    obtain ⟨e, he, -⟩ := hu
    rw [h.ok.tab _ htab] at he
    cases he
  | refused hx _ hn _ _ =>
    rw [hpage _ hx] at hn
    exact absurd hu hn
  | done _ _ _ => exact ⟨_, rfl⟩

end StackPage

/-! ## The arguments -/

/-- The strings one below the other, from the address `top` down to `low`. -/
def Strings (t : Pgdir) (k : Kmem) : List (List Byte) → List Nat → Nat → Nat → Prop
  | [], [], top, low => low = top
  | a :: l, ptr :: ptrs, top, low =>
    ptr % 4 = 0 ∧ ptr + (a.length + 1) ≤ top ∧ t.Holds k ptr (a ++ [0]) ∧ Strings t k l ptrs ptr low
  | _, _, _, _ => False

namespace Strings

variable {l : List (List Byte)} {ptrs : List Nat} {top low : Nat}

section

variable (h : Strings t k l ptrs top low)

include h

theorem length : ptrs.length = l.length := by
  induction l generalizing ptrs top with
  | nil =>
    cases ptrs with
    | nil => rfl
    | cons ptr ptrs => exact h.elim
  | cons a l ih =>
    cases ptrs with
    | nil => exact h.elim
    | cons ptr ptrs => rw [List.length_cons, List.length_cons, ih h.2.2.2]

theorem low_le : low ≤ top := by
  induction l generalizing ptrs top with
  | nil =>
    cases ptrs with
    | nil => exact h.le
    | cons ptr ptrs => exact h.elim
  | cons a l ih =>
    cases ptrs with
    | nil => exact h.elim
    | cons ptr ptrs =>
      have := ih h.2.2.2
      have := h.2.1
      omega

theorem congr (hk : ∀ a, low ≤ a → a < top → t.peek k' a = t.peek k a) :
    Strings t k' l ptrs top low := by
  induction l generalizing ptrs top with
  | nil =>
    cases ptrs with
    | nil => exact h
    | cons ptr ptrs => exact h.elim
  | cons a l ih =>
    cases ptrs with
    | nil => exact h.elim
    | cons ptr ptrs =>
      obtain ⟨hal, hle, hb, hrest⟩ := h
      have hlow := low_le hrest
      refine ⟨hal, hle, fun x hx => ?_, ih hrest fun a h1 h2 => hk a h1 (by omega)⟩
      have hx' : x < a.length + 1 := by simpa using hx
      rw [hk (ptr + x) (by omega) (by omega)]
      exact hb x hx

theorem get (i : Nat) (hi : i < l.length) (hi' : i < ptrs.length) :
    ptrs[i] % 4 = 0 ∧ low ≤ ptrs[i] ∧ ptrs[i] + (l[i].length + 1) ≤ top ∧
      t.Holds k ptrs[i] (l[i] ++ [0]) := by
  induction l generalizing ptrs top i with
  | nil => exact absurd hi (Nat.not_lt_zero i)
  | cons a l ih =>
    cases ptrs with
    | nil => exact h.elim
    | cons ptr ptrs =>
      obtain ⟨hal, hle, hb, hrest⟩ := h
      cases i with
      | zero => exact ⟨hal, low_le hrest, hle, hb⟩
      | succ i =>
        obtain ⟨h1, h2, h3, h4⟩ := ih hrest i (Nat.lt_of_succ_lt_succ hi)
          (Nat.lt_of_succ_lt_succ hi')
        simp only [List.getElem_cons_succ]
        exact ⟨h1, h2, by omega, h4⟩

theorem below (i j : Nat) (hij : i < j) (hj : j < l.length) (hj' : j < ptrs.length) :
    ptrs[j] + (l[j].length + 1) ≤ ptrs[i] := by
  induction l generalizing ptrs top i j with
  | nil => exact absurd hj (Nat.not_lt_zero j)
  | cons a l ih =>
    cases ptrs with
    | nil => exact h.elim
    | cons ptr ptrs =>
      obtain ⟨-, -, -, hrest⟩ := h
      obtain ⟨j, rfl⟩ : ∃ m, j = m + 1 := ⟨j - 1, by omega⟩
      cases i with
      | zero => exact (hrest.get j (Nat.lt_of_succ_lt_succ hj) (Nat.lt_of_succ_lt_succ hj')).2.2.1
      | succ i =>
        exact ih hrest i j (by omega) (Nat.lt_of_succ_lt_succ hj) (Nat.lt_of_succ_lt_succ hj')

end

end Strings

theorem StackPage.pushArgs {l : List (List Byte)} {argv argv' : List Nat} {sp' : Nat}
    (h : StackPage t sz) (hlo : sz - PGSIZE ≤ sp) (hhi : sp ≤ sz) (hal : sp % 4 = 0)
    (hmax : argv.length ≤ MAXARG)
    (hrun : pushArgs l sp argv t k = .ok (some (sp', argv'), k')) :
    ∃ ptrs, argv' = argv ++ ptrs ∧ Strings t k' l ptrs sp sp' ∧ sz - PGSIZE ≤ sp' ∧ sp' % 4 = 0 ∧
      argv'.length ≤ MAXARG ∧ (∀ a, sp ≤ a → a < sz → t.peek k' a = t.peek k a) ∧
      OnlyStack t sz k k' := by
  induction l generalizing sp argv k with
  | nil =>
    cases hrun
    exact ⟨[], (List.append_nil _).symm, rfl, hlo, hal, hmax, fun _ _ _ => rfl, .refl⟩
  | cons a l ih =>
    unfold pushArgs at hrun
    by_cases hfull : argv.length ≥ MAXARG
    · rw [if_pos hfull] at hrun
      cases hrun
    rw [if_neg hfull] at hrun
    cases hc : Vm.copyout (a.length + 1) (down sp (a.length + 1)) (a ++ [0]) t k with
    | error e =>
      simp only [hc, bind, Except.bind] at hrun
      cases hrun
    | ok x =>
      obtain ⟨b, k1⟩ := x
      simp only [hc, bind, Except.bind] at hrun
      cases b with
      | false => cases hrun
      | true =>
        have hlen : (a ++ [(0 : Byte)]).length = a.length + 1 := List.length_append
        rw [← hlen] at hc
        obtain ⟨hlo', hend, hb, hkeep, honly⟩ := h.push hlo hhi (by simp) hc
        rw [hlen] at hlo' hend hb
        obtain ⟨ptrs, hargv, hstr, hlow, hal', hmax', hkeep', honly'⟩ :=
          ih hlo' (by omega) (down_mod _ _)
            (by rw [List.length_append, List.length_singleton]; omega) hrun
        refine ⟨down sp (a.length + 1) :: ptrs, ?_, ⟨down_mod _ _, hend, fun x hx => ?_, hstr⟩,
          hlow, hal', hmax', fun y hy hysz => ?_, honly.trans honly'⟩
        · rw [hargv, List.append_assoc, List.singleton_append]
        · rw [hkeep' _ (Nat.le_add_right _ _) (by omega)]
          exact hb x hx
        · rw [hkeep' y (by omega) hysz, hkeep y hy hysz]

/-- The words that go onto the stack below the strings, when these end at `sp`. -/
def ustack (sp : Nat) (argv : List Nat) : List Nat :=
  [0xffffffff, argv.length, (sp + 2 ^ 32 - (argv.length + 1) * 4) % 2 ^ 32] ++ argv ++ [0]

section Ustack

variable {argv : List Nat}

theorem ustack_bytes : ((ustack sp argv).flatMap bytesOf).length = (3 + argv.length + 1) * 4 := by
  rw [List.length_flatMap]
  simp only [ustack, bytesOf, List.length_cons, List.length_nil, List.map_const',
    List.sum_replicate, List.length_append, Nat.nsmul_eq_mul]

theorem ustack_lt (hlen : argv.length < 2 ^ 32) (hptr : ∀ w ∈ argv, w < 2 ^ 32) :
    ∀ w ∈ ustack sp argv, w < 2 ^ 32 := by
  intro w hw
  simp only [ustack, List.mem_append, List.mem_cons, List.not_mem_nil, or_false] at hw
  rcases hw with ((rfl | rfl | rfl) | hw) | rfl
  · decide
  · exact hlen
  · exact Nat.mod_lt _ (by decide)
  · exact hptr w hw
  · decide

theorem ustack_ptr {i : Nat} (hi : i < argv.length) : (ustack sp argv)[3 + i]? = some argv[i] := by
  rw [ustack, List.append_assoc, List.getElem?_append_right (by simp),
    List.getElem?_append_left (by simpa using hi)]
  simp [hi]

theorem ustack_null : (ustack sp argv)[3 + argv.length]? = some 0 := by
  rw [ustack, List.getElem?_append_right (by simp; omega)]
  simp only [List.length_append, List.length_cons, List.length_nil, Nat.sub_self,
    List.getElem?_cons_zero]

end Ustack

/-- The bytes that the strings take on the stack. -/
def argBytes (args : List (List Byte)) : Nat := (args.map fun a => (a.length + 4) / 4 * 4).sum

theorem StackPage.pushArgs_fits (h : StackPage t sz) (hu : t.User (sz / PGSIZE - 1))
    (l : List (List Byte)) (sp : Nat) (argv : List Nat) (k : Kmem)
    (hlo : sz - PGSIZE + argBytes l ≤ sp) (hhi : sp ≤ sz) (hal : sp % 4 = 0)
    (hn : argv.length + l.length ≤ MAXARG) :
    ∃ argv' k', Vm.pushArgs l sp argv t k = .ok (some (sp - argBytes l, argv'), k') ∧
      argv'.length = argv.length + l.length := by
  have hK : KERNBASE = 2147483648 := rfl
  have hlt := h.lt
  induction l generalizing sp argv k with
  | nil => exact ⟨argv, k, rfl, rfl⟩
  | cons a l ih =>
    have hsum : argBytes (a :: l) = (a.length + 4) / 4 * 4 + argBytes l := by simp [argBytes]
    have hdown : down sp (a.length + 1) = sp - (a.length + 4) / 4 * 4 := by
      simp only [down]
      omega
    rw [List.length_cons] at hn
    obtain ⟨k₁, hcopy⟩ := h.copyout hu k (a ++ [0])
      (by omega : _ ≤ sp - (a.length + 4) / 4 * 4) (by simp; omega)
    rw [List.length_append, List.length_singleton] at hcopy
    obtain ⟨argv', k', hrun, hlen⟩ := ih (sp - (a.length + 4) / 4 * 4)
      (argv ++ [sp - (a.length + 4) / 4 * 4]) k₁ (by omega) (by omega) (by omega)
      (by rw [List.length_append, List.length_singleton]; omega)
    refine ⟨argv', k', ?_, ?_⟩
    · unfold Vm.pushArgs
      rw [if_neg (by omega)]
      simp only [hdown, hcopy, bind, Except.bind, if_true]
      rw [hrun, hsum, Nat.sub_sub]
    · rw [hlen, List.length_append, List.length_singleton, List.length_cons]
      omega

theorem StackPage.pushStack_fits (h : StackPage t sz) (hu : t.User (sz / PGSIZE - 1))
    {args : List (List Byte)} (hn : args.length ≤ MAXARG)
    (hfit : argBytes args + (4 + args.length) * 4 ≤ PGSIZE) (k : Kmem) :
    ∃ sp k', Vm.pushStack args sz t k = .ok (some sp, k') := by
  have hK : KERNBASE = 2147483648 := rfl
  have hPG : PGSIZE = 4096 := rfl
  have hlt := h.lt
  have htwo := h.two
  have haln := h.aligned
  obtain ⟨argv, k₁, hrun, hargc⟩ := h.pushArgs_fits hu args sz [] k (by omega) le_rfl
    (by rw [hPG] at haln; omega) (by simpa using hn)
  rw [List.length_nil, Nat.zero_add] at hargc
  have hlen : ((ustack (sz - argBytes args) argv).flatMap bytesOf).length
      = (3 + argv.length + 1) * 4 := ustack_bytes
  have hsp : (sz - argBytes args + 2 ^ 32 - (3 + argv.length + 1) * 4) % 2 ^ 32
      = sz - argBytes args - (3 + argv.length + 1) * 4 := by omega
  obtain ⟨k', hcopy⟩ := h.copyout hu k₁ ((ustack (sz - argBytes args) argv).flatMap bytesOf)
    (by omega : _ ≤ sz - argBytes args - (3 + argv.length + 1) * 4) (by rw [hlen]; omega)
  rw [hlen] at hcopy
  unfold ustack at hcopy
  refine ⟨sz - argBytes args - (3 + argv.length + 1) * 4, k', ?_⟩
  simp only [Vm.pushStack, hrun, bind, Except.bind, hsp, hcopy]
  rfl

/-- An argument that would begin below the page of the stack. -/
theorem StackPage.pushStack_long (h : StackPage t (2 * PGSIZE))
    (hu : t.User (2 * PGSIZE / PGSIZE - 1)) {a : List Byte} (ha : a.length = PGSIZE) :
    Vm.pushStack [a] (2 * PGSIZE) t k = .ok (none, k) := by
  obtain ⟨e, he, -⟩ := hu
  have hsame : (2 * PGSIZE / PGSIZE - 1) / NPDENTRIES = 0 / NPDENTRIES := by
    simp [PGSIZE, NPDENTRIES]
  have htab : t.tab (0 / NPDENTRIES) ≠ none := fun hn => by
    rw [h.ok.tab _ (hsame ▸ hn)] at he
    cases he
  have hpage : down (2 * PGSIZE) (PGSIZE + 1) / PGSIZE = 0 := by decide
  have hguard : uva2ka t (down (2 * PGSIZE) (PGSIZE + 1) / PGSIZE) = .ok none := by
    rw [hpage]
    exact uva2ka_not_user htab h.guard
  simp [Vm.pushStack, Vm.pushArgs, Vm.copyout, ha, hguard, bind, Except.bind, pure, Except.pure,
    MAXARG]

/-- What a program with arguments `args` finds at its stack pointer `sp`, with the addresses of the
strings: the return address, `argc`, `argv`, the pointers and a null word; above these the strings,
in the page below `sz`. -/
structure Arguments (t : Pgdir) (k : Kmem) (sz : Nat) (args : List (List Byte)) (sp : Nat)
    (ptrs : List Nat) : Prop where
  pc : t.readWord k sp = some 0xffffffff
  argc : t.readWord k (sp + 4) = some args.length
  argv : t.readWord k (sp + 8) = some (sp + 12)
  length : ptrs.length = args.length
  ptr : ∀ i (hi : i < ptrs.length), t.readWord k (sp + 12 + 4 * i) = some ptrs[i]
  null : t.readWord k (sp + 12 + 4 * args.length) = some 0
  low : sz - PGSIZE ≤ sp
  high : sp + 12 + 4 * args.length + 4 ≤ sz
  string : ∀ i (hi : i < args.length) (hi' : i < ptrs.length), ptrs[i] % 4 = 0 ∧
    sp + 12 + 4 * args.length + 4 ≤ ptrs[i] ∧ ptrs[i] + (args[i].length + 1) ≤ sz ∧
    t.Holds k ptrs[i] (args[i] ++ [0])
  apart : ∀ i j (hi : i < args.length) (hj : j < args.length) (hi' : i < ptrs.length)
    (hj' : j < ptrs.length), i ≠ j →
    ptrs[i] + (args[i].length + 1) ≤ ptrs[j] ∨ ptrs[j] + (args[j].length + 1) ≤ ptrs[i]

variable {args : List (List Byte)}

theorem Arguments.congr {ptrs : List Nat} (h : Arguments t k sz args sp ptrs)
    (hk : ∀ a < sz, t.peek k' a = t.peek k a) : Arguments t k' sz args sp ptrs := by
  have hhigh := h.high
  have hlen := h.length
  have hword : ∀ {va : Nat}, va + 4 ≤ sz → t.readWord k' va = t.readWord k va := fun hva =>
    Pgdir.readWord_congr fun x hx => hk _ (by omega)
  refine ⟨?_, ?_, ?_, hlen, fun i hi => ?_, ?_, h.low, hhigh, fun i hi hi' => ?_, h.apart⟩
  · rw [hword (by omega), h.pc]
  · rw [hword (by omega), h.argc]
  · rw [hword (by omega), h.argv]
  · rw [hword (by omega), h.ptr i hi]
  · rw [hword (by omega), h.null]
  · obtain ⟨halign, hlow, hend, hbytes⟩ := h.string i hi hi'
    refine ⟨halign, hlow, hend, fun x hx => ?_⟩
    have hx' : x < args[i].length + 1 := by simpa using hx
    rw [hk _ (by omega)]
    exact hbytes x hx

theorem arguments_of_strings {argv : List Nat} {top : Nat} (hsz : sz < 2 ^ 32)
    (hlen : argv.length < 2 ^ 30) (hlo : sz - PGSIZE ≤ sp)
    (hsp : sp + (3 + argv.length + 1) * 4 = top)
    (hwords : t.Holds k sp ((ustack top argv).flatMap bytesOf))
    (hstr : Strings t k args argv sz top) :
    Arguments t k sz args sp argv := by
  have hargc := hstr.length
  have htop := hstr.low_le
  have hptr : ∀ w ∈ argv, w < 2 ^ 32 := by
    intro w hw
    obtain ⟨i, hi, rfl⟩ := List.mem_iff_getElem.1 hw
    have := hstr.get i (hargc ▸ hi) hi
    omega
  have hword := hwords.words (ustack_lt (by omega) hptr)
  refine ⟨hword 0 _ rfl, hword 1 _ (hargc ▸ rfl), ?_, hargc, fun i hi => ?_, ?_, hlo, by omega,
    fun i hi hi' => ?_, fun i j hi hj hi' hj' hij => ?_⟩
  · have hargv : (top + 2 ^ 32 - (argv.length + 1) * 4) % 2 ^ 32 = sp + 12 := by omega
    rw [← hargv]
    exact hword 2 _ rfl
  · rw [show sp + 12 + 4 * i = sp + 4 * (3 + i) by omega]
    exact hword _ _ (ustack_ptr hi)
  · rw [← hargc, show sp + 12 + 4 * argv.length = sp + 4 * (3 + argv.length) by omega]
    exact hword _ _ ustack_null
  · obtain ⟨halign, hlow, hhigh, hbytes⟩ := hstr.get i hi hi'
    exact ⟨halign, by omega, hhigh, hbytes⟩
  · rcases Nat.lt_or_gt_of_ne hij with hlt | hlt
    · exact .inr (hstr.below i j hlt hj hj')
    · exact .inl (hstr.below j i hlt hi hi')

theorem StackPage.pushStack (h : StackPage t sz)
    (hrun : pushStack args sz t k = .ok (some sp, k')) :
    (∃ ptrs, Arguments t k' sz args sp ptrs) ∧ OnlyStack t sz k k' := by
  have hPG : PGSIZE = 4096 := rfl
  have hK : KERNBASE = 2147483648 := rfl
  have hlt := h.lt
  have halz := h.aligned
  have htwo := h.two
  unfold Vm.pushStack at hrun
  cases ha : Vm.pushArgs args sz [] t k with
  | error e =>
    simp only [ha, bind, Except.bind] at hrun
    cases hrun
  | ok x =>
    obtain ⟨o, k1⟩ := x
    simp only [ha, bind, Except.bind] at hrun
    cases o with
    | none => cases hrun
    | some y =>
      obtain ⟨sp1, argv⟩ := y
      obtain ⟨ptrs, hargv, hstr, hlo1, hal1, hmax, -, honly⟩ :=
        h.pushArgs (by omega) le_rfl (by rw [hPG] at halz; omega) (Nat.zero_le _) ha
      obtain rfl : argv = ptrs := hargv
      dsimp only at hrun
      have hlen := hstr.length
      have hMAX : MAXARG = 32 := rfl
      have hle1 := hstr.low_le
      have hblen : ((ustack sp1 argv).flatMap bytesOf).length = (3 + argv.length + 1) * 4 :=
        ustack_bytes
      have hsp : (sp1 + 2 ^ 32 - (3 + argv.length + 1) * 4) % 2 ^ 32 =
          down sp1 ((ustack sp1 argv).flatMap bytesOf).length := by
        rw [hblen]
        unfold down
        omega
      change (Vm.copyout ((3 + argv.length + 1) * 4)
        ((sp1 + 2 ^ 32 - (3 + argv.length + 1) * 4) % 2 ^ 32) ((ustack sp1 argv).flatMap bytesOf) t
          k1 >>=
        fun x => pure
          (if x.1 then some ((sp1 + 2 ^ 32 - (3 + argv.length + 1) * 4) % 2 ^ 32) else none,
          x.2)) = _ at hrun
      rw [hsp, ← hblen] at hrun
      generalize hws : (ustack sp1 argv).flatMap bytesOf = bytes at hrun hblen hsp
      cases hc : Vm.copyout bytes.length (down sp1 bytes.length) bytes t k1 with
      | error e =>
        rw [hc] at hrun
        cases hrun
      | ok z =>
        obtain ⟨b, k2⟩ := z
        rw [hc] at hrun
        cases b with
        | false => cases hrun
        | true =>
          cases hrun
          have hne : bytes ≠ [] := List.length_pos_iff.1 (by omega)
          obtain ⟨hlo, hend, hb, hkeep, honly'⟩ := h.push hlo1 hle1 hne hc
          refine ⟨⟨argv, ?_⟩, honly.trans honly'⟩
          refine arguments_of_strings (by omega) (by omega) hlo ?_ (hws ▸ hb)
            (hstr.congr fun a ha hasz => hkeep a ha hasz)
          rw [hblen] at hend
          omega

end Xv6.Vm
