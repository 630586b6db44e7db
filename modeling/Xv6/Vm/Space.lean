import Xv6.Vm.Exec

/-!
# The address spaces that sbrk and exec build

`allocuvm`, `growproc` and the parts of `exec` conserve pages and keep directories in order, for a
process of which no page at or above its size is mapped. The arguments of `exec` that fit below the
top of the new stack change no page table.
-/

namespace Xv6.Vm

variable {N : Nat} {s s' : Sys N} {p : Fin N} {t t' : Pgdir} {k k' : Kmem} {sz sz' : Nat}

/-! ## Sizes -/

def Above (t : Pgdir) (sz : Nat) : Prop := ∀ v, pgroundup sz ≤ v → v < KERNPAGE → t.pte v = none

def Below (t : Pgdir) (sz : Nat) : Prop := ∀ v, v < pgroundup sz → t.pte v ≠ none

theorem Below.tab (h : Below t sz) (ht : t.Ok) {v : Nat} (hv : v < pgroundup sz) :
    t.tab (v / NPDENTRIES) ≠ none := fun hn => h v hv (ht.tab v hn)

theorem Above.round (h : Above t sz) : Above t (pgroundup sz * PGSIZE) := by
  rwa [Above, pgroundup_mul]

theorem Below.round (h : Below t sz) : Below t (pgroundup sz * PGSIZE) := by
  rwa [Below, pgroundup_mul]

theorem allocuvm_spec (oldsz newsz : Nat) (ht : t.Ok) (habove : Above t oldsz)
    (hnd : k.free.Nodup) :
    ∃ r t' k', allocuvm t oldsz newsz k = .ok (r, t', k') ∧ t'.Ok ∧
      k'.free + t'.pages = k.free + t.pages ∧ (r = 0 → Above t' oldsz) ∧
      (r ≠ 0 → r = max oldsz newsz ∧ newsz < KERNBASE ∧ Above t' r ∧
        (Below t oldsz → Below t' r)) := by
  unfold allocuvm
  by_cases hbig : newsz ≥ KERNBASE
  · rw [if_pos hbig]
    exact ⟨0, t, k, rfl, ht, rfl, fun _ => habove, fun h => absurd rfl h⟩
  · rw [if_neg hbig]
    by_cases hlt : newsz < oldsz
    · rw [if_pos hlt]
      exact ⟨oldsz, t, k, rfl, ht, rfl, fun _ => habove,
        fun _ => ⟨(max_eq_left hlt.le).symm, by omega, habove, id⟩⟩
    · rw [if_neg hlt]
      have hup := pgroundup_mono (not_lt.1 hlt)
      have hupK : pgroundup newsz ≤ KERNPAGE := pgroundup_le (by omega)
      obtain ⟨r, t1, k1, m, hloop, ht1, -, hmn, hr, hpte1, hnew1, -, hc1, -⟩ :=
        allocLoop_spec (pgroundup newsz - pgroundup oldsz) (pgroundup oldsz) t k ht (by omega)
          (fun x h1 h2 => habove x h1 (by omega)) hnd
      simp only [hloop, bind, Except.bind]
      cases r with
      | none =>
        have hm := hr rfl
        refine ⟨newsz, t1, k1, rfl, ht1, by simpa using hc1, fun h0 => ?_, fun _ =>
          ⟨(max_eq_right (not_lt.1 hlt)).symm, by omega, fun v h1 h2 => ?_, fun hb v hv => ?_⟩⟩
        · obtain rfl : oldsz = newsz := by omega
          exact fun v h1 h2 => (hpte1 v (by omega)).trans (habove v h1 h2)
        · exact (hpte1 v (by omega)).trans (habove v (by omega) h2)
        · by_cases hvo : v < pgroundup oldsz
          · rw [hpte1 v (by omega)]
            exact hb v hvo
          · obtain ⟨e, he, -⟩ := hnew1 v (by omega) (by omega)
            rw [he]
            exact Option.some_ne_none e
      | some o =>
        -- the pages that have been mapped are freed, and then the one that could not be mapped
        have hlt' : oldsz < newsz := by
          by_contra hge
          obtain rfl : oldsz = newsz := by omega
          rw [Nat.sub_self] at hloop
          cases hloop
        obtain ⟨t2, k2, hd, ht2, -, hpte2, hc2, -⟩ :=
          deallocuvm_spec ht1 (show newsz ≤ KERNBASE by omega) hlt' k1
        simp only [hd, pure, Except.pure]
        refine ⟨0, t2, _, rfl, ht2, ?_, fun _ v h1 h2 => ?_, fun h => absurd rfl h⟩
        · rw [← hc1]
          cases o with
          | none => simpa using hc2
          | some q =>
            simp only [Option.elim_some, free_kfree, Lib.unit_some]
            rw [← hc2]
            abel
        · rw [hpte2]
          split
          · rfl
          · by_cases hvm : v < pgroundup oldsz + m
            · omega
            · exact (hpte1 v (by omega)).trans (habove v h1 h2)

theorem growproc_spec {n : Int} (ht : t.Ok) (hsz : sz < KERNBASE) (habove : Above t sz)
    (hnd : k.free.Nodup) :
    ∃ r t' sz' k', growproc n t sz k = .ok (r, t', sz', k') ∧ t'.Ok ∧ sz' < KERNBASE ∧
      Above t' sz' ∧ k'.free + t'.pages = k.free + t.pages := by
  unfold growproc
  by_cases hpos : n > 0
  · rw [if_pos hpos]
    obtain ⟨r, t1, k1, ha, ht1, hc1, h0, h1⟩ :=
      allocuvm_spec sz (uadd sz n) ht habove hnd
    simp only [ha, bind, Except.bind]
    by_cases hr : r = 0
    · rw [if_pos hr]
      exact ⟨-1, t1, sz, k1, rfl, ht1, hsz, h0 hr, hc1⟩
    · rw [if_neg hr]
      obtain ⟨hmax, hlt, hab, -⟩ := h1 hr
      exact ⟨0, t1, r, k1, rfl, ht1, by omega, hab, hc1⟩
  · rw [if_neg hpos]
    by_cases hneg : n < 0
    · rw [if_pos hneg]
      by_cases hge : uadd sz n ≥ sz
      · simp only [deallocuvm, if_pos hge]
        split
        · exact ⟨-1, t, sz, k, rfl, ht, hsz, habove, rfl⟩
        · exact ⟨0, t, sz, k, rfl, ht, hsz, habove, rfl⟩
      · obtain ⟨t1, k1, hd, ht1, -, hpte1, hc1, -⟩ :=
          deallocuvm_spec ht hsz.le (not_le.1 hge) k
        have hab : Above t1 (uadd sz n) := by
          intro v h₁ h2
          rw [hpte1]
          split
          · rfl
          · exact habove v (by omega) h2
        have hup := pgroundup_mono (not_le.1 hge).le
        simp only [hd]
        split
        · exact ⟨-1, t1, sz, k1, rfl, ht1, hsz, fun v h₁ => hab v (by omega), hc1⟩
        · exact ⟨0, t1, uadd sz n, k1, rfl, ht1, by omega, hab, hc1⟩
    · rw [if_neg hneg]
      exact ⟨0, t, sz, k, rfl, ht, hsz, habove, rfl⟩

/-! ## Loading -/

theorem loaduvm_free {g : Segment} {n i v : Nat} {r : Bool}
    (h : loaduvm t g n i v k = .ok (r, k')) : k'.free = k.free := by
  induction n generalizing i v k with
  | zero =>
    cases h
    rfl
  | succ n ih =>
    unfold loaduvm at h
    split at h
    · cases h
    · cases h
    · split at h
      · cases h
        rfl
      · exact (ih h).trans (free_fill ..)

theorem loaduvm_ok {g : Segment} {n i v : Nat} (ht : t.Ok)
    (hpte : ∀ x, v ≤ x → x < v + n → t.pte x ≠ none) (k : Kmem) :
    ∃ r k', loaduvm t g n i v k = .ok (r, k') := by
  induction n generalizing i v k with
  | zero => exact ⟨true, k, rfl⟩
  | succ n ih =>
    have hv := hpte v le_rfl (by omega)
    obtain ⟨x, hx⟩ := Option.ne_none_iff_exists'.1 fun hn => hv (ht.tab v hn)
    obtain ⟨e, he⟩ := Option.ne_none_iff_exists'.1 hv
    unfold loaduvm
    rw [hx, he]
    dsimp only
    split
    · exact ⟨false, k, rfl⟩
    · exact ih (fun x h1 h2 => hpte x (by omega) (by omega)) _

theorem loadSegments_spec {l : List Segment} {r : Option Nat} (ht : t.Ok) (hsz : sz ≤ KERNBASE)
    (hab : Above t sz) (hbel : Below t sz) (hnd : (k.free + t.pages).Nodup)
    (h : loadSegments l sz t k = .ok (r, t', k')) :
    t'.Ok ∧ k'.free + t'.pages = k.free + t.pages ∧
      ∀ sz', r = some sz' → sz' ≤ KERNBASE ∧ Above t' sz' ∧ Below t' sz' := by
  induction l generalizing sz t k with
  | nil =>
    cases h
    refine ⟨ht, rfl, ?_⟩
    rintro _ ⟨⟩
    exact ⟨hsz, hab, hbel⟩
  | cons g l ih =>
    have hbad : ∀ {t1 : Pgdir} {k1 : Kmem}, t1.Ok → k1.free + t1.pages = k.free + t.pages →
        (.ok (none, t1, k1) : Except Panic (Option Nat × Pgdir × Kmem)) = .ok (r, t', k') →
        t'.Ok ∧ k'.free + t'.pages = k.free + t.pages ∧
          ∀ sz', r = some sz' → sz' ≤ KERNBASE ∧ Above t' sz' ∧ Below t' sz' := by
      intro t1 k1 ht1 hc1 heq
      cases heq
      exact ⟨ht1, hc1, nofun⟩
    unfold loadSegments at h
    split at h
    · exact hbad ht rfl h
    split at h
    · exact ih ht hsz hab hbel hnd h
    split at h
    · exact hbad ht rfl h
    split at h
    · exact hbad ht rfl h
    obtain ⟨a, t1, k1, ha, ht1, hc1, -, h1⟩ := allocuvm_spec sz (g.vaddr + g.memsz).toNat
      ht hab (Multiset.nodup_add.1 hnd).1
    simp only [ha, bind, Except.bind, pure, Except.pure] at h
    split at h
    · exact hbad ht1 hc1 h
    next ha0 =>
    obtain ⟨hmax, hlt, hab1, hbel1⟩ := h1 ha0
    split at h
    · exact hbad ht1 hc1 h
    split at h
    · cases h
    next x hx =>
    obtain ⟨b, k2⟩ := x
    have hf := loaduvm_free hx
    dsimp only at h
    have hc2 : k2.free + t1.pages = k.free + t.pages := by rw [hf, hc1]
    split at h
    · obtain ⟨h₁, h2, h3⟩ := ih ht1 (by omega) hab1 (hbel1 hbel) (by rw [hc2]; exact hnd) h
      exact ⟨h₁, h2.trans hc2, h3⟩
    · exact hbad ht1 hc2 h

theorem loadSegments_ok {l : List Segment} (ht : t.Ok) (hsz : sz ≤ KERNBASE)
    (hab : Above t sz) (hbel : Below t sz) (hnd : (k.free + t.pages).Nodup) :
    ∃ r t' k', loadSegments l sz t k = .ok (r, t', k') := by
  induction l generalizing sz t k with
  | nil => exact ⟨_, _, _, rfl⟩
  | cons g l ih =>
    unfold loadSegments
    split
    · exact ⟨_, _, _, rfl⟩
    split
    · exact ih ht hsz hab hbel hnd
    split
    · exact ⟨_, _, _, rfl⟩
    next hmem =>
    split
    · exact ⟨_, _, _, rfl⟩
    next hwrap =>
    obtain ⟨a, t1, k1, ha, ht1, hc1, -, h1⟩ := allocuvm_spec sz (g.vaddr + g.memsz).toNat
      ht hab (Multiset.nodup_add.1 hnd).1
    simp only [ha, bind, Except.bind, pure, Except.pure]
    split
    · exact ⟨_, _, _, rfl⟩
    next ha0 =>
    obtain ⟨hmax, hlt, hab1, hbel1⟩ := h1 ha0
    split
    · exact ⟨_, _, _, rfl⟩
    next halign =>
    have hend : g.vaddr.toNat + g.memsz.toNat = (g.vaddr + g.memsz).toNat := by
      rw [BitVec.lt_def, BitVec.toNat_add] at hwrap
      rw [BitVec.toNat_add]
      omega
    have hfile : g.filesz.toNat ≤ g.memsz.toNat := by
      rw [BitVec.lt_def] at hmem
      omega
    obtain ⟨b, k2, hload⟩ := loaduvm_ok (g := g) (n := pgroundup g.filesz.toNat) (i := 0)
      (v := g.vaddr.toNat / PGSIZE) ht1 (fun x _ hx => hbel1 hbel x (by
        simp only [pgroundup, PGSIZE] at hx halign ⊢
        omega)) k1
    have hf := loaduvm_free hload
    simp only [hload]
    split
    · exact ih ht1 (by omega) hab1 (hbel1 hbel) (by rw [hf, hc1]; exact hnd)
    · exact ⟨_, _, _, rfl⟩

theorem clearpteu_spec {v : Nat} (ht : t.Ok) (h : clearpteu t v = .ok t') :
    t'.Ok ∧ t'.pages = t.pages ∧ t'.tab = t.tab ∧ ∀ x, t'.pte x = none ↔ t.pte x = none := by
  unfold clearpteu at h
  split at h
  · cases h
  · cases h
    have hnone : ∀ x, (t.setPte v ((t.pte v).map fun e => { e with u := false })).pte x = none ↔
        t.pte x = none := by
      intro x
      by_cases hx : x = v
      · subst hx
        simp [Pgdir.setPte]
      · simp [Pgdir.setPte, hx]
    refine ⟨⟨fun x hx => (hnone x).2 (ht.tab x hx), fun x e hx he => ?_⟩, ?_, rfl, hnone⟩
    · by_cases hxv : x = v
      · subst hxv
        simp only [Pgdir.setPte, Function.update_self, Option.map_eq_some_iff] at he
        obtain ⟨e', -, rfl⟩ := he
        rfl
      · exact ht.kern x e hx (by simpa [Pgdir.setPte, hxv] using he)
    · have hfr : (t.setPte v ((t.pte v).map fun e => { e with u := false })).frame = t.frame := by
        rw [Pgdir.frame_setPte]
        funext x
        by_cases hx : x = v
        · subst hx
          simp [Pgdir.frame, Function.comp_def]
        · rw [Function.update_of_ne hx]
      rw [Pgdir.pages, hfr]
      rfl

theorem makeStack_spec {r : Option Nat} (ht : t.Ok) (hab : Above t sz)
    (hbel : Below t sz) (hnd : (k.free + t.pages).Nodup)
    (h : makeStack sz t k = .ok (r, t', k')) :
    t'.Ok ∧ k'.free + t'.pages = k.free + t.pages ∧
      ∀ sz', r = some sz' → sz' < KERNBASE ∧ Above t' sz' ∧ Below t' sz' ∧
        sz' = pgroundup sz * PGSIZE + 2 * PGSIZE := by
  obtain ⟨a, t1, k1, ha, ht1, hc1, -, h1⟩ :=
    allocuvm_spec (pgroundup sz * PGSIZE) (pgroundup sz * PGSIZE + 2 * PGSIZE) ht
      hab.round (Multiset.nodup_add.1 hnd).1
  simp only [makeStack, ha, bind, Except.bind, pure, Except.pure] at h
  split at h
  · cases h
    exact ⟨ht1, hc1, by rintro _ ⟨⟩⟩
  · next ha0 =>
    obtain ⟨hmax, hlt, hab1, hbel1⟩ := h1 ha0
    have hbel2 := hbel1 hbel.round
    split at h
    · cases h
    · next t2 hcl =>
      cases h
      obtain ⟨ht2, hp2, -, hnone⟩ := clearpteu_spec ht1 hcl
      refine ⟨ht2, by rw [hp2, hc1], ?_⟩
      rintro _ ⟨⟩
      have hsz' : a = pgroundup sz * PGSIZE + 2 * PGSIZE := by omega
      exact ⟨by omega, fun v h₁ h2 => (hnone v).2 (hab1 v h₁ h2),
        fun v hv hn => hbel2 v hv ((hnone v).1 hn), hsz'⟩

theorem makeStack_ok (ht : t.Ok) (hab : Above t sz) (hbel : Below t sz)
    (hnd : (k.free + t.pages).Nodup) : ∃ r t' k', makeStack sz t k = .ok (r, t', k') := by
  obtain ⟨a, t1, k1, ha, ht1, hc1, -, h1⟩ :=
    allocuvm_spec (pgroundup sz * PGSIZE) (pgroundup sz * PGSIZE + 2 * PGSIZE) ht
      hab.round (Multiset.nodup_add.1 hnd).1
  simp only [makeStack, ha, bind, Except.bind, pure, Except.pure]
  split
  · exact ⟨_, _, _, rfl⟩
  · next ha0 =>
    obtain ⟨hmax, -, -, hbel1⟩ := h1 ha0
    have hlow : a / PGSIZE - 2 < pgroundup a := by
      simp only [hmax, pgroundup, PGSIZE]
      omega
    have htab := (hbel1 hbel.round).tab ht1 hlow
    obtain ⟨x, hx⟩ := Option.ne_none_iff_exists'.1 htab
    simp only [clearpteu, hx]
    exact ⟨_, _, _, rfl⟩

/-! ## Enough memory -/

theorem card_pages_le {v w : Nat}
    (hpte : ∀ x, ¬ (v ≤ x ∧ x < w) → t'.pte x = t.pte x) :
    t'.pages.card ≤ t.pages.card + 1024 + (w - v) := by
  have htabs : t'.tabs.card ≤ 1024 :=
    (Finset.card_filter_le ..).trans (by rw [Finset.card_range, NPDENTRIES_eq])
  have husers : t'.users.card ≤ t.users.card + (w - v) := by
    have hsub : t'.users ⊆ t.users ∪ Finset.Ico v w := by
      intro x hx
      simp only [Pgdir.users, Finset.mem_filter, Finset.mem_union, Finset.mem_Ico] at hx ⊢
      by_cases hxv : v ≤ x ∧ x < w
      · exact .inr hxv
      · rw [hpte x hxv] at hx
        exact .inl hx
    calc t'.users.card ≤ (t.users ∪ Finset.Ico v w).card := Finset.card_le_card hsub
      _ ≤ t.users.card + (Finset.Ico v w).card := Finset.card_union_le ..
      _ = t.users.card + (w - v) := by rw [Nat.card_Ico]
  rw [Pgdir.card_pages, Pgdir.card_pages]
  omega

theorem allocuvm_enough {oldsz newsz : Nat} (ht : t.Ok) (habove : Above t oldsz)
    (hnd : k.free.Nodup) (hle : oldsz ≤ newsz) (hK : newsz < KERNBASE)
    (hF : pgroundup newsz + 1025 < k.freelist.length) :
    ∃ t' k', allocuvm t oldsz newsz k = .ok (newsz, t', k') ∧ t'.Ok ∧
      k'.free + t'.pages = k.free + t.pages ∧
      (∀ x, x < pgroundup oldsz → t'.pte x = t.pte x) ∧
      (∀ x, pgroundup oldsz ≤ x → x < pgroundup newsz → t'.pte x ≠ none) ∧
      (∀ j, t'.tab j = none ↔ t.tab j = none ∧
        ∀ x, pgroundup oldsz ≤ x → x < pgroundup newsz → j ≠ x / NPDENTRIES) ∧
      (∀ q, q ∉ k.free → k'.mem q = k.mem q) ∧ t'.page = t.page ∧
      k.freelist.length ≤ k'.freelist.length + pgroundup newsz + 1024 := by
  have hup := pgroundup_mono hle
  have hupK : pgroundup newsz ≤ KERNPAGE := pgroundup_le hK.le
  obtain ⟨r, t1, k1, m, hloop, ht1, hp1, hmn, hr, hpte1, hnew1, hm1, hc1, -, htab1, hempty⟩ :=
    allocLoop_spec (pgroundup newsz - pgroundup oldsz) (pgroundup oldsz) t k ht (by omega)
      (fun x h1 h2 => habove x h1 (by omega)) hnd
  have hcard := card_pages_le hpte1
  have hcons := congrArg Multiset.card hc1
  rw [Multiset.card_add, Multiset.card_add, Multiset.card_add, Kmem.card_free,
    Kmem.card_free] at hcons
  cases r with
  | some o =>
    exfalso
    have hunit : (Lib.unit o).card ≤ 1 := by cases o <;> simp
    change _ + (Lib.unit o).card = _ at hcons
    rw [hempty (Option.some_ne_none o), List.length_nil] at hcons
    omega
  | none =>
    have hm := hr rfl
    have hend : pgroundup oldsz + m = pgroundup newsz := by omega
    change _ + Multiset.card 0 = _ at hcons
    rw [Multiset.card_zero] at hcons
    refine ⟨t1, k1, ?_, ht1, by simpa using hc1, fun x hx => hpte1 x (by omega),
      fun x h1 h2 => ?_, fun j => ?_, hm1, hp1, by omega⟩
    · simp only [allocuvm, if_neg (not_le.2 hK), if_neg (not_lt.2 hle), hloop, bind, Except.bind,
        pure, Except.pure]
    · obtain ⟨e, he, -⟩ := hnew1 x h1 (by omega)
      rw [he]
      exact Option.some_ne_none e
    · rw [htab1, hend]

theorem length_mapUser {v pa : Nat} {e : Pte} (hv : v < KERNPAGE) (hn : t.pte v = none)
    (hmiss : t.tab (v / NPDENTRIES) = none) (hpte : t'.pte = Function.update t.pte v (some e))
    (htab : ∀ d, t'.tab d = none ↔ t.tab d = none ∧ d ≠ v / NPDENTRIES)
    (hc : k'.free + t'.pages = k.free + t.pages + {pa}) :
    k'.freelist.length + 1 = k.freelist.length := by
  have hv' : v / NPDENTRIES < NPDENTRIES := by
    simp only [NPDENTRIES_eq, KERNPAGE_eq] at hv ⊢
    omega
  have htabs : t'.tabs = insert (v / NPDENTRIES) t.tabs := by
    ext j
    simp only [Pgdir.tabs, Finset.mem_insert, Finset.mem_filter, Finset.mem_range,
      Option.isSome_iff_ne_none, ne_eq, htab, not_and_or, not_not]
    by_cases hj : j = v / NPDENTRIES
    · subst hj
      simp [hv']
    · simp [hj]
  have husers : t'.users = insert v t.users := by
    ext x
    simp only [Pgdir.users, Finset.mem_insert, Finset.mem_filter, Finset.mem_range, hpte]
    by_cases hx : x = v
    · subst hx
      simp [hv]
    · simp [hx]
  have h1 : v / NPDENTRIES ∉ t.tabs := by simp [Pgdir.tabs, hmiss]
  have h2 : v ∉ t.users := by simp [Pgdir.users, hn]
  have hcons := congrArg Multiset.card hc
  rw [Multiset.card_add, Multiset.card_add, Multiset.card_add, Kmem.card_free, Kmem.card_free,
    t.card_pages, t'.card_pages, htabs, husers, Finset.card_insert_of_notMem h1,
    Finset.card_insert_of_notMem h2, Multiset.card_singleton] at hcons
  omega

theorem setupkvm_enough (ly : Layout) (hF : 65 ≤ k.freelist.length) :
    ∃ d k', setupkvm ly k = .ok (some d, k') ∧ d.Ok ∧ d.tabs = kernTabs ∧
      (∀ x < KERNPAGE, d.pte x = none) ∧ k'.free + d.pages = k.free ∧
      (∀ q, q ∉ k.free → k'.mem q = k.mem q) ∧ k'.freelist.length + 65 = k.freelist.length := by
  obtain ⟨o, k1, hset, hm1, ⟨d, rfl, hd, husers, htabs, hlow, -, hc⟩ | ⟨-, -, hlt⟩⟩ :=
    setupkvm_spec ly k
  · refine ⟨d, k1, hset, hd, htabs, hlow, hc, hm1, ?_⟩
    have hcons := congrArg Multiset.card hc
    rw [Multiset.card_add, Kmem.card_free, Kmem.card_free, d.card_pages, htabs, husers,
      card_kernTabs, Finset.card_empty] at hcons
    omega
  · omega

end Xv6.Vm
