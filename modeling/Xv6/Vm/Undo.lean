import Xv6.Vm.Elf

/-!
# What exec writes to

Every part of `exec` before the commit writes only to pages that were free or belong to the new
address space, and conserves them together. So `freevm` of the new address space gives back what
was free before, and nothing else has changed.
-/

namespace Xv6.Vm

variable {t t' t1 : Pgdir} {k k' k1 : Kmem} {sz sz' : Nat}

/-- The pages that are free or of the address space stay so together, and no other page is
written to. -/
structure Within (k : Kmem) (t : Pgdir) (k' : Kmem) (t' : Pgdir) : Prop where
  pages : k'.free + t'.pages = k.free + t.pages
  mem : ∀ q, q ∉ k.free + t.pages → k'.mem q = k.mem q

namespace Within

theorem refl (k : Kmem) (t : Pgdir) : Within k t k t := ⟨rfl, fun _ _ => rfl⟩

theorem trans (h : Within k t k1 t1) (h' : Within k1 t1 k' t') : Within k t k' t' := by
  refine ⟨h'.pages.trans h.pages, fun q hq => ?_⟩
  rw [h'.mem q (by rwa [h.pages]), h.mem q hq]

theorem fill {q : Nat} (hq : q ∈ t.pages) (c : Page) : Within k t (k.fill q c) t := by
  refine ⟨rfl, fun q' hq' => Function.update_of_ne ?_ ..⟩
  rintro rfl
  exact hq' (Multiset.mem_add.2 (.inr hq))

theorem freevm (h : Within k t k' t') (ht : t'.Ok) :
    (Vm.freevm t' k').free = k.free + t.pages ∧
      ∀ q, q ∉ k.free + t.pages → (Vm.freevm t' k').mem q = k.mem q := by
  obtain ⟨hfree, hmem⟩ := freevm_spec ht k'
  refine ⟨hfree.trans h.pages, fun q hq => ?_⟩
  rw [hmem q fun hin => hq (h.pages ▸ Multiset.mem_add.2 (.inr hin)), h.mem q hq]

end Within

theorem allocuvm_within {oldsz newsz r : Nat} (ht : t.Ok) (hab : Above t oldsz)
    (hnd : k.free.Nodup) (h : allocuvm t oldsz newsz k = .ok (r, t', k')) : Within k t k' t' := by
  obtain ⟨r', t1, k1, h1, -, hc, -⟩ := allocuvm_spec oldsz newsz ht hab hnd
  obtain ⟨rfl, rfl, rfl⟩ : r' = r ∧ t1 = t' ∧ k1 = k' := by
    rw [h] at h1
    cases h1
    exact ⟨rfl, rfl, rfl⟩
  refine ⟨hc, fun q hq => ?_⟩
  have hqk : q ∉ k.free := fun hin => hq (Multiset.mem_add.2 (.inl hin))
  unfold allocuvm at h
  split at h
  · cases h
    rfl
  next hbig =>
  split at h
  · cases h
    rfl
  next hlt =>
  have hup := pgroundup_mono (not_lt.1 hlt)
  have hupK : pgroundup newsz ≤ KERNPAGE := pgroundup_le (by omega)
  obtain ⟨o, t2, k2, m, hloop, ht2, -, -, -, -, -, hmem, hc2, hlost, -⟩ :=
    allocLoop_spec (pgroundup newsz - pgroundup oldsz) (pgroundup oldsz) t k ht (by omega)
      (fun x h1 h2 => hab x h1 (by omega)) hnd
  simp only [hloop, bind, Except.bind] at h
  cases o with
  | none =>
    cases h
    exact hmem q hqk
  | some o =>
    have hlt' : oldsz < newsz := by
      by_contra hge
      obtain rfl : oldsz = newsz := by omega
      rw [Nat.sub_self] at hloop
      cases hloop
    obtain ⟨t3, k3, hd, -, -, -, -, hm3⟩ :=
      deallocuvm_spec ht2 (show newsz ≤ KERNBASE by omega) hlt' k2
    simp only [hd, pure, Except.pure] at h
    cases h
    -- the pages that are freed are pages of the address space
    have hframe : ∀ x, pgroundup oldsz ≤ x → x < pgroundup newsz → t2.frame x ≠ some q := by
      intro x _ hx heq
      refine hq ?_
      rw [← hc2]
      exact Multiset.mem_add.2 (.inl (Multiset.mem_add.2 (.inr (Multiset.mem_add.2 (.inr
        (Lib.mem_held.2 ⟨x, Finset.mem_range.2 (by omega), heq⟩))))))
    have hm : k3.mem q = k.mem q := by rw [hm3 q hframe, hmem q hqk]
    cases o with
    | none => exact hm
    | some x =>
      have hx : q ≠ x := by
        rintro rfl
        exact hqk (hlost q rfl)
      exact (mem_kfree hx).trans hm

variable {v : Nat}

theorem loaduvm_within {g : Segment} {n i : Nat} {r : Bool} (hv : v + n ≤ KERNPAGE)
    (h : loaduvm t g n i v k = .ok (r, k')) : Within k t k' t := by
  induction n generalizing i v k with
  | zero =>
    cases h
    exact .refl _ _
  | succ n ih =>
    unfold loaduvm at h
    split at h
    · cases h
    · cases h
    next e _ he =>
    split at h
    · cases h
      exact .refl _ _
    · exact (Within.fill (Pgdir.pa_mem (by omega) he) _).trans (ih (by omega) h)

variable {r : Option Nat}

theorem loadSegments_within {l : List Segment} (ht : t.Ok) (hsz : sz ≤ KERNBASE) (hab : Above t sz)
    (hbel : Below t sz) (hnd : (k.free + t.pages).Nodup)
    (h : loadSegments l sz t k = .ok (r, t', k')) :
    Within k t k' t' := by
  induction l generalizing sz t k with
  | nil =>
    cases h
    exact .refl _ _
  | cons g l ih =>
    unfold loadSegments at h
    split at h
    · cases h
      exact .refl _ _
    split at h
    · exact ih ht hsz hab hbel hnd h
    split at h
    · cases h
      exact .refl _ _
    next hmem =>
    split at h
    · cases h
      exact .refl _ _
    next hwrap =>
    obtain ⟨a, t1, k1, ha, ht1, hc1, -, h1⟩ := allocuvm_spec sz (g.vaddr + g.memsz).toNat
      ht hab (Multiset.nodup_add.1 hnd).1
    have hw := allocuvm_within ht hab (Multiset.nodup_add.1 hnd).1 ha
    simp only [ha, bind, Except.bind, pure, Except.pure] at h
    split at h
    · cases h
      exact hw
    next ha0 =>
    obtain ⟨hmax, hlt, hab1, hbel1⟩ := h1 ha0
    split at h
    · cases h
      exact hw
    next halign =>
    split at h
    · cases h
    next x hx =>
    obtain ⟨b, k2⟩ := x
    have hvK : g.vaddr.toNat / PGSIZE + pgroundup g.filesz.toNat ≤ KERNPAGE := by
      rw [BitVec.lt_def, BitVec.toNat_add] at hwrap
      rw [BitVec.lt_def] at hmem
      rw [BitVec.toNat_add] at hlt
      have hK := pgroundup_le (show g.vaddr.toNat + g.filesz.toNat ≤ KERNBASE by omega)
      simp only [pgroundup, PGSIZE] at hK halign ⊢
      omega
    have hw2 := hw.trans (loaduvm_within hvK hx)
    dsimp only at h
    split at h
    · exact hw2.trans (ih ht1 (by omega) hab1 (hbel1 hbel) (by rw [hw2.pages]; exact hnd) h)
    · cases h
      exact hw2

theorem makeStack_within (ht : t.Ok) (hab : Above t sz) (hnd : (k.free + t.pages).Nodup)
    (h : makeStack sz t k = .ok (r, t', k')) : Within k t k' t' := by
  obtain ⟨a, t1, k1, ha, ht1, -⟩ :=
    allocuvm_spec (pgroundup sz * PGSIZE) (pgroundup sz * PGSIZE + 2 * PGSIZE) ht hab.round
      (Multiset.nodup_add.1 hnd).1
  have hw := allocuvm_within ht hab.round (Multiset.nodup_add.1 hnd).1 ha
  simp only [makeStack, ha, bind, Except.bind, pure, Except.pure] at h
  split at h
  · cases h
    exact hw
  · split at h
    · cases h
    · next t2 hcl =>
      cases h
      exact ⟨by rw [(clearpteu_spec ht1 hcl).2.1, hw.pages], hw.mem⟩

/-! ## Arguments -/

theorem uva2ka_cases (ht : t.Ok) (v : Nat) :
    uva2ka t v = .error .wild ∨ uva2ka t v = .ok none ∨ ∃ pa ∈ t.pages, uva2ka t v =
      .ok (some pa) := by
  unfold uva2ka
  cases t.tab (v / NPDENTRIES) with
  | none => exact .inl rfl
  | some _ =>
    cases he : t.pte v with
    | none => exact .inr (.inl rfl)
    | some e =>
      by_cases hu : e.u = true
      · -- the kernel's entries are not the user's
        have hv : v < KERNPAGE := by
          by_contra hK
          rw [ht.kern v e (not_lt.1 hK) he] at hu
          cases hu
        exact .inr (.inr ⟨e.pa, Pgdir.pa_mem hv he, by dsimp only; rw [if_pos hu]⟩)
      · exact .inr (.inl (by dsimp only; rw [if_neg hu]))

/-- What a part of the copying does: the kernel traps, or only pages of the address space are
written to. -/
def Copies {α : Type} (k : Kmem) (t : Pgdir) (x : Except Panic (α × Kmem)) : Prop :=
  x = .error .wild ∨ ∃ r k', x = .ok (r, k') ∧ Within k t k' t

variable {α β : Type}

theorem Copies.ok (r : α) (h : Within k t k' t) : Copies k t (.ok (r, k')) := .inr ⟨r, k', rfl, h⟩

theorem Copies.bind {x : Except Panic (α × Kmem)} {f : α × Kmem → Except Panic (β × Kmem)}
    (h : Copies k t x) (hf : ∀ r k1, Copies k1 t (f (r, k1))) : Copies k t (x >>= f) := by
  rcases h with rfl | ⟨r, k1, rfl, hw⟩
  · exact .inl rfl
  · rcases hf r k1 with he | ⟨r', k', he, hw'⟩
    · exact .inl he
    · exact .inr ⟨r', k', he, hw.trans hw'⟩

theorem copyout_copies (ht : t.Ok) (fuel va : Nat) (bytes : List Byte) (k : Kmem) :
    Copies k t (copyout fuel va bytes t k) := by
  induction fuel generalizing va bytes k with
  | zero => exact .ok _ (.refl _ _)
  | succ fuel ih =>
    unfold copyout
    split
    · exact .ok _ (.refl _ _)
    rcases uva2ka_cases ht (va / PGSIZE) with hu | hu | ⟨pa, hpa, hu⟩
    · rw [hu]
      exact .inl rfl
    · rw [hu]
      exact .ok _ (.refl _ _)
    · rw [hu]
      rcases ih ((va / PGSIZE + 1) * PGSIZE % 2 ^ 32) (bytes.drop (PGSIZE - va % PGSIZE))
        (k.fill pa (patch (va % PGSIZE) (bytes.take (PGSIZE - va % PGSIZE)) (k.mem pa)))
        with he | ⟨r, k', he, hw⟩
      · exact .inl he
      · exact .inr ⟨r, k', he, (Within.fill hpa _).trans hw⟩

theorem pushArgs_copies (ht : t.Ok) (l : List (List Byte)) (sp : Nat) (argv : List Nat) (k : Kmem) :
    Copies k t (pushArgs l sp argv t k) := by
  induction l generalizing sp argv k with
  | nil => exact .ok _ (.refl _ _)
  | cons a l ih =>
    unfold pushArgs
    split
    · exact .ok _ (.refl _ _)
    · refine (copyout_copies ht ..).bind fun r k1 => ?_
      cases r with
      | false => exact .ok _ (.refl _ _)
      | true => exact ih ..

theorem pushStack_copies (ht : t.Ok) (args : List (List Byte)) (sz : Nat) (k : Kmem) :
    Copies k t (pushStack args sz t k) := by
  refine (pushArgs_copies ht ..).bind fun r k1 => ?_
  cases r with
  | none => exact .ok _ (.refl _ _)
  | some y => exact (copyout_copies ht ..).bind fun r k₂ => .ok _ (.refl _ _)

theorem pushStack_within {args : List (List Byte)} (ht : t.Ok)
    (h : pushStack args sz t k = .ok (r, k')) : Within k t k' t := by
  rcases pushStack_copies ht args sz k with he | ⟨_, _, he, hw⟩
  · rw [he] at h
    cases h
  · rw [he] at h
    cases h
    exact hw

end Xv6.Vm
