import Xv6.Fs.Own

/-!
# Allocating and freeing blocks

What `balloc`, `bfree`, `bmap` and `itrunc` do to the ownership of blocks. `balloc` takes a block
into transit, and `bmap` attaches it to a position; `itrunc` detaches all blocks of an inode and
gives them back one by one.
-/

namespace Xv6.Fs

open Lib
open Function (update update_apply update_of_ne update_self)

variable {sb : Superblock} {d d' : Disk} {D : Nat → Dinode} {nb : Nat → Nat} {E : Nat → Prop}
  {i j b k n pos : Nat} {ip : Dinode} {s0 s : InodeSt}

/-! ## One block -/

theorem firstFree_some (h : firstFree sb d = some b) : b < sb.size.toNat ∧ bit sb d b = false := by
  have hb := List.find?_some h
  have hm := List.mem_of_find?_eq_some h
  exact ⟨List.mem_range.1 hm, by simpa using hb⟩

theorem bit_bzero (hsb : sb.Ok) {c : Nat} (hb : sb.firstData ≤ b) (hc : c < sb.size.toNat) :
    bit sb (bzero d b) c = bit sb d c := by
  apply bit_congr
  have := hsb.bitmap c hc
  exact update_of_ne (by omega) _ _

theorem Own.ne_bitmap (hsb : sb.Ok) (h : Own sb d D nb E) (hb : b < sb.size.toNat)
    (h0 : refs sb d D (i, pos) ≠ 0) : refs sb d D (i, pos) ≠ BBLOCK b sb := by
  have := hsb.bitmap b hb
  have := h.owned.range _ h0
  omega

theorem le_BBLOCK (sb : Superblock) (b : Nat) : sb.bmapstart.toNat ≤ BBLOCK b sb :=
  Nat.le_add_left _ _

namespace Work

/-- What `balloc` does: a block that nobody refers to is in transit and zero, and the other
data blocks are as they were. -/
structure Took (sb : Superblock) (D : Nat → Dinode) (i : Nat) (s0 : InodeSt) (n : Nat)
    (E : Nat → Prop) (s : InodeSt) (b : Nat) (s' : InodeSt) : Prop where
  ip : s'.ip = s.ip
  work : Work sb D i s0 n (fun c => c = b ∨ E c) s'
  zero : s'.disk b = Bytes.zero
  lo : sb.firstData ≤ b
  hi : b < sb.size.toNat
  unused : ∀ k, refs sb s.disk (update D i s.ip) k ≠ b
  data : ∀ c, sb.firstData ≤ c → c ≠ b → s'.disk c = s.disk c

theorem balloc (hsb : sb.Ok) (W : Work sb D i s0 n E s) :
    Sat (balloc sb) s (Took sb D i s0 n E s) Fine := by
  unfold Sat Fs.balloc
  cases hf : firstFree sb s.disk with
  | none => simp [Fine]
  | some b =>
    obtain ⟨hb, hbit⟩ := firstFree_some hf
    obtain ⟨hlo, -, hun⟩ := W.own.owned.unmarked hb hbit
    have hbm := hsb.bitmap b hb
    -- the blocks that change are the block itself and the one with its bit
    have hsame : ∀ c, c ≠ b → c ≠ BBLOCK b sb →
        bzero (putMapBit sb s.disk b true) b c = s.disk c := by
      intro c h1 h2
      unfold bzero
      rw [update_of_ne h1, putMapBit_of_ne h2]
    have hdata : ∀ c, sb.firstData ≤ c → c ≠ b →
        bzero (putMapBit sb s.disk b true) b c = s.disk c := by
      intro c h1 h2
      exact hsame c h2 (by omega)
    have href : ∀ j, Allocated sb (update D i s.ip) j → ∀ pos < NPOS,
        blockAt (bzero (putMapBit sb s.disk b true) b) (update D i s.ip j) pos =
          blockAt s.disk (update D i s.ip j) pos := by
      intro j hj pos _
      apply W.own.blockAt_eq hj
      intro c hc _ hr
      exact hdata c hc (fun h => hun _ (hr.trans h))
    have hown : Own sb (bzero (putMapBit sb s.disk b true) b) (update D i s.ip)
        (update (fun j => dataBlocks (D j)) i n) (fun c => c = b ∨ E c) := by
      refine W.own.disk ((W.own.owned.take hb hbit).congr (fun _ => rfl) (fun _ => Iff.rfl) ?_) href
      intro c hc
      rw [bit_bzero hsb hlo hc, bit_putMapBit, update_apply]
    refine ⟨rfl, W.step W.type hown (fun c => ?_) (fun g hg => ?_), ?_, hlo, hb, hun, hdata⟩
    · by_cases h1 : c = b
      · subst h1
        refine .inr ⟨?_, fun j hj pos _ => ?_⟩
        · have := le_BBLOCK sb c
          omega
        · rw [← refs_update_ne s.ip hj]
          exact hun (j, pos)
      · by_cases h2 : c = BBLOCK b sb
        · subst h2
          refine .inr ⟨le_BBLOCK sb b, fun j hj pos h0 => ?_⟩
          rw [← refs_update_ne s.ip hj] at h0 ⊢
          exact W.own.ne_bitmap hsb hb h0
        · exact .inl (hsame c h1 h2)
    · rcases List.mem_cons.1 hg with rfl | hg
      · exact .inr ⟨hun, W.low⟩
      · exact .inl hg
    · unfold bzero
      exact update_self ..

theorem freed (hsb : sb.Ok) (W : Work sb D i s0 n E s) (hE : E b) :
    bit sb s.disk b = true ∧ Work sb D i s0 n (fun c => E c ∧ c ≠ b)
      { s with disk := putMapBit sb s.disk b false } := by
  obtain ⟨hbit, hrel⟩ := W.own.owned.release hE
  obtain ⟨hlo, hhi, -⟩ := W.own.owned.transit b hE
  have hbm := hsb.bitmap b hhi
  have href : ∀ j, Allocated sb (update D i s.ip) j → ∀ pos < NPOS,
      blockAt (putMapBit sb s.disk b false) (update D i s.ip j) pos =
        blockAt s.disk (update D i s.ip j) pos := by
    intro j hj pos _
    apply W.own.blockAt_eq hj
    intro c hc _ _
    exact putMapBit_of_ne (by omega)
  refine ⟨hbit, W.step W.type (W.own.disk (hrel.congr (fun _ => rfl) (fun _ => Iff.rfl)
    fun c _ => ?_) href) (fun c => ?_) (fun g hg => .inl hg)⟩
  · rw [bit_putMapBit, update_apply]
  · by_cases h2 : c = BBLOCK b sb
    · subst h2
      refine .inr ⟨le_BBLOCK sb b, fun j hj pos h0 => ?_⟩
      rw [← refs_update_ne s.ip hj] at h0 ⊢
      exact W.own.ne_bitmap hsb hhi h0
    · exact .inl (putMapBit_of_ne h2)

end Work

/-! ## Attaching a block -/

theorem blockAt_setAddr (hk : k ≤ NDIRECT) (hb : b < 2 ^ 32) (h0 : ip.addr k = 0)
    (hz : k = NDIRECT → d b = Bytes.zero) :
    blockAt d (ip.setAddr k b) pos = if pos = k then b else blockAt d ip pos := by
  unfold blockAt
  simp only [addr_setAddr hk hb]
  by_cases hp : pos ≤ NDIRECT
  · simp only [hp, if_true]
  · have hpk : pos ≠ k := by omega
    simp only [hp, hpk, if_false]
    by_cases h12 : NDIRECT = k
    · subst h12
      simp [h0, hz rfl]
    · simp [h12]

theorem blockAt_setEntry (hind : ip.addr NDIRECT ≠ 0) (hj : j < NINDIRECT) (hb : b < 2 ^ 32) :
    blockAt (update d (ip.addr NDIRECT) (setEntry (d (ip.addr NDIRECT)) j b)) ip pos =
      if pos = NDIRECT + 1 + j then b else blockAt d ip pos := by
  unfold blockAt
  by_cases hp : pos ≤ NDIRECT
  · rw [if_pos hp, if_neg (by omega), if_pos hp]
  · rw [if_neg hp, if_neg hind, if_neg hp, if_neg hind, update_self, entry_setEntry hj hb]
    have : pos - (NDIRECT + 1) = j ↔ pos = NDIRECT + 1 + j := by omega
    simp only [this]

theorem exact_attach {f g : Nat → Nat} {pos n n' : Nat}
    (hf : ∀ k < MAXFILE, (f (filePos k) ≠ 0 ↔ k < n)) (hb : b ≠ 0)
    (hg : ∀ p < NPOS, g p = if p = pos then b else f p)
    (hn : (pos = NDIRECT ∧ n' = n) ∨ (pos = filePos n ∧ n' = n + 1)) :
    ∀ k < MAXFILE, (g (filePos k) ≠ 0 ↔ k < n') := by
  intro k hk
  rw [hg _ (filePos_lt hk)]
  rcases hn with ⟨rfl, rfl⟩ | ⟨rfl, rfl⟩
  · rw [if_neg filePos_ne]
    exact hf k hk
  · by_cases h : k = n
    · subst h
      simp [hb]
    · rw [if_neg (fun he => h (filePos_inj he)), hf k hk]
      omega

section

variable (W : Work sb D i s0 n E s)

include W

theorem Work.nb_le (hi : i < sb.ninodes.toNat) : n ≤ MAXFILE := by
  have := W.own.nb_le i (W.allocated hi)
  rwa [update_self] at this

theorem Work.exact (hi : i < sb.ninodes.toNat) :
    ∀ k < MAXFILE, (blockAt s.disk s.ip (filePos k) ≠ 0 ↔ k < n) := by
  have := W.own.exact i (W.allocated hi)
  rwa [update_self, update_self] at this

theorem Work.range (pos : Nat) (hi : i < sb.ninodes.toNat) (hp : pos < NPOS)
    (h0 : blockAt s.disk s.ip pos ≠ 0) :
    sb.firstData ≤ blockAt s.disk s.ip pos ∧ blockAt s.disk s.ip pos < sb.size.toNat := by
  have := W.own.range pos (W.allocated hi) hp
  rw [update_self] at this
  exact this h0

theorem Work.mine (pos : Nat) {pos' : Nat} (hi : i < sb.ninodes.toNat) (hp : pos < NPOS)
    (hj : j ≠ i)
    (h0 : refs sb s.disk D (j, pos') ≠ 0) :
    refs sb s.disk D (j, pos') ≠ blockAt s.disk s.ip pos := by
  intro he
  rw [← refs_update_ne s.ip hj] at he h0
  have hr : refs sb s.disk (update D i s.ip) (i, pos) = blockAt s.disk s.ip pos := by
    rw [refs_of (W.allocated hi) hp, update_self]
  exact hj (congrArg Prod.fst (W.own.owned.inj _ _ (he.trans hr.symm) h0))

theorem Work.own_of {E' : Nat → Prop} {n' : Nat}
    (howned : Owned sb.firstData sb.size.toNat (refs sb d' (update D i ip)) E' (bit sb d'))
    (hother : ∀ j, j ≠ i → Allocated sb D j → ∀ p, blockAt d' (D j) p = blockAt s.disk (D j) p)
    (hexact : ∀ k < MAXFILE, (blockAt d' ip (filePos k) ≠ 0 ↔ k < n')) (hn : n' ≤ MAXFILE) :
    Own sb d' (update D i ip) (update (fun j => dataBlocks (D j)) i n') E' := by
  refine ⟨howned, fun j hj => ?_, fun j hj => ?_⟩
  · by_cases hji : j = i
    · subst hji
      rw [update_self, update_self]
      exact hexact
    · have hA := (allocated_update_ne hji).1 hj
      have := W.own.exact j ((allocated_update_ne hji).2 hA)
      rw [update_of_ne hji, update_of_ne hji] at this ⊢
      intro k hk
      rw [hother j hji hA]
      exact this k hk
  · by_cases hji : j = i
    · subst hji
      rwa [update_self]
    · have := W.own.nb_le j ((allocated_update_ne hji).2 ((allocated_update_ne hji).1 hj))
      rwa [update_of_ne hji] at this ⊢

end

theorem Work.attach (hsb : sb.Ok) (W : Work sb D i s0 n E s) (hi : i < sb.ninodes.toNat)
    (s' : InodeSt) (n' : Nat) (hE : E b) (hp : pos < NPOS) (h0 : blockAt s.disk s.ip pos = 0)
    (ht : s'.ip.type = s.ip.type) (hgiven : s'.given = s.given)
    (hself : ∀ p < NPOS,
      blockAt s'.disk s'.ip p = if p = pos then b else blockAt s.disk s.ip p)
    (hd : ∀ c, s'.disk c = s.disk c ∨ (s.ip.addr NDIRECT ≠ 0 ∧ c = s.ip.addr NDIRECT))
    (hn : (pos = NDIRECT ∧ n' = n) ∨ (pos = filePos n ∧ n' = n + 1)) :
    Work sb D i s0 n' (fun c => E c ∧ c ≠ b) s' := by
  obtain ⟨hlo, hhi, -⟩ := W.own.owned.transit b hE
  have h12 : NDIRECT < NPOS := by decide
  have htype : s'.ip.type ≠ 0 := ht ▸ W.type
  have hA' : Allocated sb (update D i s'.ip) i := allocated_update_self.2 ⟨hi, htype⟩
  -- the other inodes refer to what they did
  have hother : ∀ j, j ≠ i → Allocated sb D j → ∀ p,
      blockAt s'.disk (D j) p = blockAt s.disk (D j) p := by
    intro j hj hA p
    apply blockAt_congr
    intro hne
    rcases hd ((D j).addr NDIRECT) with h | ⟨hind, h⟩
    · exact h
    · have hr : refs sb s.disk D (j, NDIRECT) = (D j).addr NDIRECT := by
        rw [refs_of hA h12, blockAt_indirect]
      have := W.mine NDIRECT hi h12 hj (by rwa [hr])
      rw [hr, blockAt_indirect] at this
      exact absurd h this
  have href : ∀ k, refs sb s'.disk (update D i s'.ip) k =
      update (refs sb s.disk (update D i s.ip)) (i, pos) b k := by
    rintro ⟨j, p⟩
    by_cases hj : j = i
    · subst hj
      rw [refs_update_self hi htype]
      by_cases hpp : p = pos
      · subst hpp
        rw [update_self, if_pos hp, hself p hp, if_pos rfl]
      · rw [update_of_ne (fun h => hpp (congrArg Prod.snd h)),
          refs_update_self hi W.type]
        split
        · next hlt => rw [hself p hlt, if_neg hpp]
        · rfl
    · rw [update_of_ne (fun h => hj (congrArg Prod.fst h)), refs_update_ne _ hj,
        refs_update_ne _ hj]
      unfold refs
      split
      · next hc => exact hother j hj hc.1 p
      · rfl
  have hempty : refs sb s.disk (update D i s.ip) (i, pos) = 0 := by
    rw [refs_update_self hi W.type, if_pos hp, h0]
  have hbits : ∀ c < sb.size.toNat, bit sb s'.disk c = bit sb s.disk c := by
    intro c hc
    apply bit_congr
    rcases hd (BBLOCK c sb) with h | ⟨hind, h⟩
    · exact h
    · have := hsb.bitmap c hc
      have := W.range NDIRECT hi h12 (by rwa [blockAt_indirect])
      rw [blockAt_indirect] at this
      omega
  refine W.step htype (W.own_of ((W.own.owned.attach hE hempty).congr href (fun _ => Iff.rfl) hbits)
    hother (exact_attach (W.exact hi) ?_ hself hn) ?_) (fun c => ?_) (fun g hg =>
      .inl (hgiven ▸ hg))
  · have := W.own.owned.pos
    omega
  · have := W.nb_le hi
    rcases hn with ⟨-, rfl⟩ | ⟨rfl, rfl⟩
    · exact this
    · exact lt_of_filePos_lt hp
  · rcases hd c with h | ⟨hind, rfl⟩
    · exact .inl h
    · refine .inr ⟨?_, fun j hj p hne => ?_⟩
      · have := W.range NDIRECT hi h12 (by rwa [blockAt_indirect])
        have := hsb.bitmap b hhi
        have := le_BBLOCK sb b
        rw [blockAt_indirect] at *
        omega
      · have := W.mine NDIRECT hi h12 hj hne
        rwa [blockAt_indirect] at this

/-! ## `bmap` -/

theorem Work.Took.blockAt_eq {s' : InodeSt} (T : Took sb D i s0 n E s b s')
    (W : Work sb D i s0 n E s) (hi : i < sb.ninodes.toNat) :
    blockAt s'.disk s.ip pos = blockAt s.disk s.ip pos := by
  have : blockAt s'.disk (update D i s.ip i) pos = blockAt s.disk _ pos :=
    W.own.blockAt_eq (W.allocated hi) fun c hc _ hr =>
      T.data c hc (fun h => T.unused _ (hr.trans h))
  rwa [update_self] at this

theorem Work.Took.kept {s' : InodeSt} (T : Took sb D i s0 n E s b s')
    (W : Work sb D i s0 n E s) (hi : i < sb.ninodes.toNat) (hp : pos < NPOS)
    (h0 : blockAt s.disk s.ip pos ≠ 0) :
    s'.disk (blockAt s.disk s.ip pos) = s.disk (blockAt s.disk s.ip pos) := by
  refine T.data _ (W.range pos hi hp h0).1 fun h => T.unused (i, pos) ?_
  rw [refs_of (W.allocated hi) hp, update_self, h]

/-- The inode keeps its fields and its first `n` blocks with their contents. -/
structure Grown (n : Nat) (s s' : InodeSt) : Prop where
  fields : s'.ip = { s.ip with addrs := s'.ip.addrs }
  kept : ∀ k < n, blockAt s'.disk s'.ip (filePos k) = blockAt s.disk s.ip (filePos k) ∧
    s'.disk (blockAt s.disk s.ip (filePos k)) = s.disk (blockAt s.disk s.ip (filePos k))

theorem Grown.refl : Grown n s s := ⟨rfl, fun _ _ => ⟨rfl, rfl⟩⟩

theorem Grown.trans {n' : Nat} {s' s'' : InodeSt} (h : Grown n s s') (h' : Grown n' s' s'')
    (hn : n ≤ n') : Grown n s s'' := by
  refine ⟨by rw [h'.fields, h.fields], fun k hk => ?_⟩
  obtain ⟨h1, h2⟩ := h.kept k hk
  obtain ⟨h3, h4⟩ := h'.kept k (by omega)
  rw [h1] at h3 h4
  exact ⟨h3, h4.trans h2⟩

theorem transit_done : (fun c => (c = b ∨ nothing c) ∧ c ≠ b) = nothing := by
  funext c
  simp [nothing]

theorem Work.grown (W : Work sb D i s0 n nothing s) (hi : i < sb.ninodes.toNat) {s₁ s' : InodeSt}
    (T : Took sb D i s0 n nothing s b s₁) (h0 : blockAt s.disk s.ip pos = 0)
    (hfields : s'.ip = { s.ip with addrs := s'.ip.addrs })
    (hself : ∀ p < NPOS, blockAt s'.disk s'.ip p = if p = pos then b else blockAt s.disk s.ip p)
    (hdisk : ∀ k < n, s'.disk (blockAt s.disk s.ip (filePos k)) =
      s₁.disk (blockAt s.disk s.ip (filePos k))) : Grown n s s' := by
  refine ⟨hfields, fun k hk => ?_⟩
  have hm : k < MAXFILE := by
    have := W.nb_le hi
    omega
  have hne := (W.exact hi k hm).2 hk
  refine ⟨?_, ?_⟩
  · rw [hself _ (filePos_lt hm), if_neg]
    rintro rfl
    exact hne h0
  · rw [hdisk k hk]
    exact T.kept W hi (filePos_lt hm) hne

theorem Work.addrOrAlloc (hsb : sb.Ok) (W : Work sb D i s0 n nothing s)
    (hi : i < sb.ninodes.toNat) (n' : Nat) (hk : k ≤ NDIRECT)
    (hn : s.ip.addr k = 0 → (k = NDIRECT ∧ n' = n) ∨ (k = filePos n ∧ n' = n + 1))
    (hn' : s.ip.addr k ≠ 0 → n' = n) :
    Sat (addrOrAlloc sb k) s (fun b s' => Work sb D i s0 n' nothing s' ∧ Grown n s s' ∧
      b = s'.ip.addr k ∧ b ≠ 0 ∧ (s.ip.addr k ≠ 0 → s' = s)) Fine := by
  unfold Fs.addrOrAlloc
  apply sat_get
  by_cases h0 : s.ip.addr k = 0
  · rw [if_pos h0]
    refine (W.balloc hsb).bind fun b s1 T => ?_
    have hb : b < 2 ^ 32 := lt_trans T.hi sb.size.isLt
    have hbpos : b ≠ 0 := by
      have := W.own.owned.pos
      have := T.lo
      omega
    have hp : k < NPOS := lt_of_le_of_lt hk (by decide)
    have h0' : blockAt s.disk s.ip k = 0 := by rw [blockAt_of_le hk, h0]
    have hself : ∀ p < NPOS, blockAt s1.disk (s1.ip.setAddr k b) p =
        if p = k then b else blockAt s.disk s.ip p := by
      intro p _
      rw [T.ip, blockAt_setAddr hk hb h0 (fun _ => T.zero), T.blockAt_eq W hi]
    refine sat_modify (sat_pure ⟨?_, ?_, ?_, hbpos, fun h => absurd h0 h⟩)
    · have := T.work.attach hsb hi { s1 with ip := s1.ip.setAddr k b } n' (.inl rfl) hp
        (by rw [T.ip, T.blockAt_eq W hi, h0']) rfl rfl
        (fun p hp => by rw [hself p hp, T.ip, T.blockAt_eq W hi]) (fun _ => .inl rfl) (hn h0)
      rwa [transit_done] at this
    · exact W.grown hi T h0' (by rw [T.ip]; rfl) hself (fun _ _ => rfl)
    · rw [addr_setAddr hk hb, if_pos rfl]
  · rw [if_neg h0]
    refine sat_pure ⟨?_, Grown.refl, rfl, h0, fun _ => rfl⟩
    rw [hn' h0]
    exact W

theorem Work.bmap (hsb : sb.Ok) (W : Work sb D i s0 n nothing s) (hi : i < sb.ninodes.toNat)
    (hkn : k ≤ n) (hk : k < MAXFILE) :
    Sat (bmap sb k) s (fun b s' => Work sb D i s0 (max n (k + 1)) nothing s' ∧ Grown n s s' ∧
      b = blockAt s'.disk s'.ip (filePos k) ∧ (k < n → s' = s)) Fine := by
  have hex := W.exact hi k hk
  unfold Fs.bmap
  by_cases hdir : k < NDIRECT
  · have hpos : filePos k = k := if_pos hdir
    rw [hpos, blockAt_of_le (by omega)] at hex
    rw [if_pos hdir]
    refine (W.addrOrAlloc hsb hi (max n (k + 1)) (by omega) (fun h => ?_)
      (fun h => ?_)).mono fun b s' ⟨hW, hG, hb, _, hs⟩ => ⟨hW, hG, ?_, fun h => hs (hex.2 h)⟩
    · have hkn' : ¬ k < n := fun hlt => hex.2 hlt h
      obtain rfl : n = k := by omega
      exact .inr ⟨hpos.symm, by omega⟩
    · have := hex.1 h
      omega
    · rw [hpos, blockAt_of_le (by omega), hb]
  · have hpos : filePos k = NDIRECT + 1 + (k - NDIRECT) := by
      unfold filePos
      rw [if_neg hdir]
      omega
    have hind : k - NDIRECT < NINDIRECT := by
      unfold MAXFILE at hk
      omega
    rw [if_neg hdir, if_pos hind]
    refine (W.addrOrAlloc hsb hi n (le_refl _) (fun _ => .inl ⟨rfl, rfl⟩)
      (fun _ => rfl)).bind fun ind s1 ⟨hW, hG, hind1, hne, hs1⟩ => ?_
    subst hind1
    apply sat_get
    have hent : blockAt s1.disk s1.ip (filePos k) =
        entry (s1.disk (s1.ip.addr NDIRECT)) (k - NDIRECT) := by
      rw [hpos, blockAt_entry hne]
    have hex1 := hW.exact hi k hk
    rw [hent] at hex1
    by_cases h0 : entry (s1.disk (s1.ip.addr NDIRECT)) (k - NDIRECT) = 0
    · rw [if_pos h0]
      have hkn' : ¬ k < n := fun hlt => hex1.2 hlt h0
      obtain rfl : n = k := by omega
      refine (hW.balloc hsb).bind fun b s2 T => ?_
      have hb : b < 2 ^ 32 := lt_trans T.hi sb.size.isLt
      have hself : ∀ p < NPOS, blockAt (update s2.disk (s1.ip.addr NDIRECT)
          (setEntry (s2.disk (s1.ip.addr NDIRECT)) (n - NDIRECT) b)) s2.ip p =
          if p = filePos n then b else blockAt s1.disk s1.ip p := by
        intro p _
        rw [T.ip, blockAt_setEntry hne hind hb, T.blockAt_eq hW hi, hpos]
      have h0' : blockAt s1.disk s1.ip (filePos n) = 0 := hent.trans h0
      refine sat_modify (sat_pure ⟨?_, ?_, ?_, fun h => absurd h (lt_irrefl _)⟩)
      · have := T.work.attach hsb hi ⟨update s2.disk (s1.ip.addr NDIRECT)
            (setEntry (s2.disk (s1.ip.addr NDIRECT)) (n - NDIRECT) b), s2.ip, s2.given,
            s1.ip.addr NDIRECT :: s2.logged⟩
          (max n (n + 1)) (.inl rfl) (filePos_lt hk) (by rw [T.ip, T.blockAt_eq hW hi, h0'])
          rfl rfl (fun p hp => by rw [hself p hp, T.ip, T.blockAt_eq hW hi]) (fun c => ?_)
          (.inr ⟨rfl, by omega⟩)
        · rwa [transit_done] at this
        · by_cases hc : c = s1.ip.addr NDIRECT
          · exact .inr (by rw [T.ip]; exact ⟨hne, hc⟩)
          · exact .inl (update_of_ne hc _ _)
      · refine hG.trans (hW.grown hi T h0' (by rw [T.ip]) hself fun k' hk' => ?_) (le_refl _)
        apply update_of_ne
        -- a data block is not the indirect block
        have hm : k' < MAXFILE := by omega
        have hk'' := (hW.exact hi k' hm).2 hk'
        intro he
        rw [← blockAt_indirect s1.disk s1.ip] at he
        have := (hW.own.inj (hW.allocated hi) (hW.allocated hi) (filePos_lt hm)
          (show NDIRECT < NPOS by decide) (by rwa [update_self])
          (by rwa [update_self])).2
        exact filePos_ne this
      · rw [hself _ (filePos_lt hk), if_pos rfl]
    · rw [if_neg h0]
      have hlt := hex1.1 h0
      refine sat_pure ⟨?_, hG, hent.symm, fun _ => hs1 ?_⟩
      · rw [max_eq_left (by omega)]
        exact hW
      · -- the block was there before, so the indirect block was
        intro hz
        apply hex.2 hlt
        unfold blockAt
        rw [if_neg (by omega), if_pos hz]

/-! ## `itrunc` -/

theorem Superblock.Ok.super_low (hsb : sb.Ok) : 1 < sb.bmapstart.toNat := by
  have h1 := hsb.super
  have h2 := hsb.inodes ROOTINO hsb.root
  exact lt_of_lt_of_le h1 (le_trans (Nat.le_add_left _ _) h2.le)

def Dinode.bare (ip : Dinode) : Dinode := { ip with addrs := fun _ => 0 }

theorem blockAt_bare : blockAt d ip.bare pos = 0 := by
  have h : ∀ k, ip.bare.addr k = 0 := by
    intro k
    unfold Dinode.addr
    split <;> rfl
  unfold blockAt
  rw [h, h]
  simp

/-- The blocks at the positions `P` of the inode of `s`. -/
def blocksAt (s : InodeSt) (P : Nat → Prop) (c : Nat) : Prop :=
  c ≠ 0 ∧ ∃ pos < NPOS, P pos ∧ blockAt s.disk s.ip pos = c

/-- `itrunc`, started in `s`, has reached `t`: of the blocks of the inode those at the positions
`P` are still to be freed. All of them are in transit, since the inode is given up as a whole. -/
structure Freeing (sb : Superblock) (D : Nat → Dinode) (i : Nat) (s0 s : InodeSt)
    (P : Nat → Prop) (t : InodeSt) : Prop where
  work : Work sb D i s0 0 (blocksAt s P) { t with ip := s.ip.bare }
  data : ∀ c, sb.firstData ≤ c → t.disk c = s.disk c
  logged : ∃ l, t.logged = l ++ s.logged ∧ ∀ b ∈ l, ∃ c < sb.size.toNat, b = BBLOCK c sb

theorem Work.freeing (W : Work sb D i s0 n nothing s) (hi : i < sb.ninodes.toNat) :
    Freeing sb D i s0 s (fun _ => True) s := by
  have hz : s.ip.bare.type ≠ 0 := W.type
  refine ⟨W.step hz (W.own_of ?_ (fun _ _ _ _ => rfl) (fun k _ => ?_) (Nat.zero_le _))
    (fun _ => .inl rfl) (fun g hg => .inl hg), fun _ _ => rfl, [], rfl, nofun⟩
  · refine (W.own.owned.detach fun k => k.1 = i).congr (fun ⟨j, pos⟩ => ?_) (fun c => ?_)
      (fun _ _ => rfl)
    · by_cases hj : j = i
      · subst hj
        rw [refs_update_self hi hz, if_pos rfl, blockAt_bare, ite_self]
      · rw [if_neg hj, refs_update_ne _ hj, refs_update_ne _ hj]
    · simp only [blocksAt, nothing, false_or, true_and]
      refine and_congr_right fun hc => ⟨?_, ?_⟩
      · rintro ⟨pos, hp, he⟩
        exact ⟨(i, pos), rfl, by rw [refs_update_self hi W.type, if_pos hp, he]⟩
      · rintro ⟨⟨j, pos⟩, rfl, he⟩
        rw [refs_update_self hi W.type] at he
        split at he
        · next hp => exact ⟨pos, hp, he⟩
        · exact absurd he.symm hc
  · simp [blockAt_bare]

section Freeing

variable {P : Nat → Prop} {t : InodeSt}

theorem Freeing.readsb (F : Freeing sb D i s0 s P t) (hsb : sb.Ok) (hread : readsb s0.disk = sb) :
    readsb t.disk = sb := by
  unfold Fs.readsb at hread ⊢
  rw [F.work.low 1 hsb.super_low, hread]

theorem Freeing.skip (F : Freeing sb D i s0 s P t) (h0 : blockAt s.disk s.ip pos = 0) :
    Freeing sb D i s0 s (fun p => P p ∧ p ≠ pos) t := by
  have hE : blocksAt s (fun p => P p ∧ p ≠ pos) = blocksAt s P := by
    funext c
    refine propext (and_congr_right fun hc => ⟨?_, ?_⟩)
    · rintro ⟨p, hp, hP, he⟩
      exact ⟨p, hp, hP.1, he⟩
    · rintro ⟨p, hp, hP, he⟩
      refine ⟨p, hp, ⟨hP, ?_⟩, he⟩
      rintro rfl
      exact hc (he.symm.trans h0)
  exact ⟨hE ▸ F.work, F.data, F.logged⟩

section

variable (hsb : sb.Ok) (hread : Fs.readsb s0.disk = sb) (W : Work sb D i s0 n nothing s)
  (hi : i < sb.ninodes.toNat) (F : Freeing sb D i s0 s P t)

include hsb hread W hi F

theorem Freeing.free (hp : pos < NPOS) (hP : P pos) (hb : b = blockAt s.disk s.ip pos)
    (h0 : b ≠ 0) :
    Sat (bfree b) t (fun _ t' => t'.ip = t.ip ∧
      Freeing sb D i s0 s (fun p => P p ∧ p ≠ pos) t') fun _ => False := by
  subst hb
  have hE : (fun c => blocksAt s P c ∧ c ≠ blockAt s.disk s.ip pos) =
      blocksAt s (fun p => P p ∧ p ≠ pos) := by
    funext c
    apply propext
    constructor
    · rintro ⟨⟨hc, p, hp', hP', rfl⟩, hne⟩
      exact ⟨hc, p, hp', ⟨hP', fun h => hne (h ▸ rfl)⟩, rfl⟩
    · rintro ⟨hc, p, hp', ⟨hP', hne⟩, rfl⟩
      refine ⟨⟨hc, p, hp', hP', rfl⟩, fun he => hne ?_⟩
      have hA := W.allocated hi
      exact (W.own.inj hA hA hp' hp (by rwa [update_self])
        (by rwa [update_self])).2
  obtain ⟨hbit, hW⟩ := F.work.freed hsb ⟨h0, pos, hp, hP, rfl⟩
  have hbm := hsb.bitmap _ (W.range pos hi hp h0).2
  unfold Sat bfree
  simp only [F.readsb hsb hread, show bit sb t.disk (blockAt s.disk s.ip pos) = true from hbit,
    if_true]
  refine ⟨trivial, hE ▸ hW.relog _, fun c hc => ?_, ?_⟩
  · dsimp only
    rw [putMapBit_of_ne (by omega)]
    exact F.data c hc
  · obtain ⟨l, hl, hin⟩ := F.logged
    refine ⟨BBLOCK (blockAt s.disk s.ip pos) sb :: l, by rw [hl]; rfl, fun c hc => ?_⟩
    rcases List.mem_cons.1 hc with rfl | hc
    · exact ⟨_, (W.range pos hi hp h0).2, rfl⟩
    · exact hin c hc

theorem Freeing.freeDirect (hk : k < NDIRECT) (hP : P k) (ha : t.ip.addr k = s.ip.addr k) :
    Sat (freeDirect k) t (fun _ t' => Freeing sb D i s0 s (fun p => P p ∧ p ≠ k) t' ∧
      t'.ip = { t.ip with addrs := t'.ip.addrs } ∧
      ∀ k', t'.ip.addr k' = if k' = k then 0 else t.ip.addr k') fun _ => False := by
  have hb : t.ip.addr k = blockAt s.disk s.ip k := by rw [blockAt_of_le (by omega), ha]
  have hp : k < NPOS := lt_trans hk (by decide)
  unfold Fs.freeDirect
  apply sat_get
  by_cases h0 : t.ip.addr k = 0
  · rw [if_pos h0]
    refine sat_pure ⟨F.skip (hb ▸ h0), rfl, fun k' => ?_⟩
    split
    · next h => rw [h, h0]
    · rfl
  · rw [if_neg h0]
    refine (F.free hsb hread W hi hp hP hb h0).bind fun _ t' ⟨hip, F'⟩ => ?_
    refine sat_modify_end ⟨⟨F'.work, F'.data, F'.logged⟩, by rw [hip]; rfl, fun k' => ?_⟩
    rw [addr_setAddr (by omega) (by decide), hip]

theorem Freeing.freeEntry (hind : s.ip.addr NDIRECT ≠ 0) (hj : j < NINDIRECT)
    (hP : P (NDIRECT + 1 + j)) : Sat (freeEntry (s.ip.addr NDIRECT) j) t (fun _ t' => t'.ip = t.ip ∧
      Freeing sb D i s0 s (fun p => P p ∧ p ≠ NDIRECT + 1 + j) t') fun _ => False := by
  have hp : NDIRECT + 1 + j < NPOS := by
    unfold NPOS MAXFILE
    omega
  have hlo := W.range NDIRECT hi (by decide) (by rwa [blockAt_indirect])
  rw [blockAt_indirect] at hlo
  have hb : entry (t.disk (s.ip.addr NDIRECT)) j = blockAt s.disk s.ip (NDIRECT + 1 + j) := by
    rw [blockAt_entry hind, F.data _ hlo.1]
  unfold Fs.freeEntry
  apply sat_get
  by_cases h0 : entry (t.disk (s.ip.addr NDIRECT)) j = 0
  · rw [if_pos h0]
    exact sat_pure ⟨rfl, F.skip (hb ▸ h0)⟩
  · rw [if_neg h0]
    exact F.free hsb hread W hi hp hP hb h0

end

theorem Freeing.congr {P' : Nat → Prop} (F : Freeing sb D i s0 s P t)
    (h : ∀ p < NPOS, blockAt s.disk s.ip p ≠ 0 → (P' p ↔ P p)) : Freeing sb D i s0 s P' t := by
  have hE : blocksAt s P' = blocksAt s P := by
    funext c
    refine propext (and_congr_right fun hc => ⟨?_, ?_⟩)
    · rintro ⟨p, hp, hP, rfl⟩
      exact ⟨p, hp, (h p hp hc).1 hP, rfl⟩
    · rintro ⟨p, hp, hP, rfl⟩
      exact ⟨p, hp, (h p hp hc).2 hP, rfl⟩
  exact ⟨hE ▸ F.work, F.data, F.logged⟩

section

variable (hsb : sb.Ok) (hread : Fs.readsb s0.disk = sb) (W : Work sb D i s0 n nothing s)
  (hi : i < sb.ninodes.toNat)

include hsb hread W hi

theorem Freeing.allDirect {ks : List Nat} (F : Freeing sb D i s0 s P t) (hks : ks.Nodup)
    (hk : ∀ k ∈ ks, k < NDIRECT ∧ P k ∧ t.ip.addr k = s.ip.addr k) :
    Sat (freeAll Fs.freeDirect ks) t (fun _ t' => Freeing sb D i s0 s (fun p => P p ∧ p ∉ ks) t' ∧
      t'.ip = { t.ip with addrs := t'.ip.addrs } ∧
      ∀ k', t'.ip.addr k' = if k' ∈ ks then 0 else t.ip.addr k') fun _ => False := by
  induction ks generalizing t P with
  | nil => exact sat_pure ⟨F.congr (by simp), rfl, by simp⟩
  | cons k ks ih =>
    obtain ⟨hlt, hP, ha⟩ := hk k List.mem_cons_self
    obtain ⟨hnot, hnd⟩ := List.nodup_cons.1 hks
    refine (F.freeDirect hsb hread W hi hlt hP ha).bind fun _ t1 ⟨F1, hf1, ha1⟩ => ?_
    refine (ih F1 hnd fun k' hk' => ?_).mono fun _ t2 ⟨F2, hf2, ha2⟩ => ⟨F2.congr ?_, ?_, ?_⟩
    · obtain ⟨h1, h2, h3⟩ := hk k' (List.mem_cons_of_mem _ hk')
      have hne : k' ≠ k := fun h => hnot (h ▸ hk')
      exact ⟨h1, ⟨h2, hne⟩, by rw [ha1, if_neg hne, h3]⟩
    · intro p _ _
      simp only [List.mem_cons, not_or]
      exact ⟨fun ⟨h1, h2, h3⟩ => ⟨⟨h1, h2⟩, h3⟩, fun ⟨⟨h1, h2⟩, h3⟩ => ⟨h1, h2, h3⟩⟩
    · rw [hf2, hf1]
    · intro k'
      rw [ha2, ha1]
      by_cases h1 : k' ∈ ks <;> by_cases h2 : k' = k <;> simp [h1, h2]

theorem Freeing.allEntries (hind : s.ip.addr NDIRECT ≠ 0) {js : List Nat}
    (F : Freeing sb D i s0 s P t) (hjs : js.Nodup)
    (hj : ∀ j ∈ js, j < NINDIRECT ∧ P (NDIRECT + 1 + j)) :
    Sat (freeAll (Fs.freeEntry (s.ip.addr NDIRECT)) js) t (fun _ t' => t'.ip = t.ip ∧
      Freeing sb D i s0 s (fun p => P p ∧ ∀ j ∈ js, p ≠ NDIRECT + 1 + j) t') fun _ => False := by
  induction js generalizing t P with
  | nil => exact sat_pure ⟨rfl, F.congr (by simp)⟩
  | cons j js ih =>
    obtain ⟨hlt, hP⟩ := hj j List.mem_cons_self
    obtain ⟨hnot, hnd⟩ := List.nodup_cons.1 hjs
    refine (F.freeEntry hsb hread W hi hind hlt hP).bind fun _ t1 ⟨hip1, F1⟩ => ?_
    refine (ih F1 hnd fun j' hj' => ?_).mono fun _ t2 ⟨hip2, F2⟩ => ⟨hip2.trans hip1, F2.congr ?_⟩
    · obtain ⟨h1, h2⟩ := hj j' (List.mem_cons_of_mem _ hj')
      have hne : j' ≠ j := fun h => hnot (h ▸ hj')
      exact ⟨h1, h2, by omega⟩
    · intro p _ _
      simp only [List.mem_cons, forall_eq_or_imp]
      exact ⟨fun ⟨h1, h2, h3⟩ => ⟨⟨h1, h2⟩, h3⟩, fun ⟨⟨h1, h2⟩, h3⟩ => ⟨h1, h2, h3⟩⟩

theorem Freeing.freeIndirect (F : Freeing sb D i s0 s P t) (hP : ∀ p, NDIRECT ≤ p → P p)
    (ha : t.ip.addr NDIRECT = s.ip.addr NDIRECT) :
    Sat freeIndirect t (fun _ t' => Freeing sb D i s0 s (fun p => P p ∧ p < NDIRECT) t' ∧
      t'.ip = { t.ip with addrs := t'.ip.addrs } ∧
      ∀ k, t'.ip.addr k = if k = NDIRECT then 0 else t.ip.addr k) fun _ => False := by
  unfold Fs.freeIndirect
  apply sat_get
  by_cases h0 : t.ip.addr NDIRECT = 0
  · rw [if_pos h0]
    refine sat_pure ⟨F.congr fun p _ hne => ⟨And.left, fun h => ⟨h, ?_⟩⟩, rfl, fun k => ?_⟩
    · -- without an indirect block there is nothing at the positions behind the direct ones
      by_contra hge
      apply hne
      unfold blockAt
      rw [ha] at h0
      split
      · next hle =>
        obtain rfl : p = NDIRECT := by omega
        exact h0
      · rfl
    · split
      · next h => rw [h, h0]
      · rfl
  · rw [if_neg h0, ha]
    have hind : s.ip.addr NDIRECT ≠ 0 := ha ▸ h0
    refine (F.allEntries hsb hread W hi hind List.nodup_range
      fun j hj => ⟨List.mem_range.1 hj, hP _ (by omega)⟩).bind fun _ t1 ⟨hip1, F1⟩ => ?_
    refine (F1.free hsb hread W hi (by decide) ⟨hP _ (le_refl _), fun j _ => by omega⟩
      (blockAt_indirect _ _).symm hind).bind fun _ t2 ⟨hip2, F2⟩ => ?_
    have F3 : Freeing sb D i s0 s (fun p => P p ∧ p < NDIRECT) t2 := F2.congr fun p hp _ => by
      constructor
      · rintro ⟨h1, h2⟩
        exact ⟨⟨h1, fun j _ => by omega⟩, by omega⟩
      · rintro ⟨⟨h1, h2⟩, h3⟩
        refine ⟨h1, ?_⟩
        by_contra hge
        have hlt : p - (NDIRECT + 1) < NINDIRECT := by
          unfold NPOS MAXFILE at hp
          omega
        exact h2 (p - (NDIRECT + 1)) (List.mem_range.2 hlt) (by omega)
    refine sat_modify_end ⟨⟨F3.work, F3.data, F3.logged⟩, by rw [hip2, hip1]; rfl, fun k => ?_⟩
    rw [addr_setAddr (le_refl _) (by decide), hip2, hip1]

end

end Freeing

theorem Work.fields (W : Work sb D i s0 n E s) (ha : ip.addrs = s.ip.addrs) (ht : ip.type ≠ 0) :
    Work sb D i s0 n E { s with ip := ip } := by
  have haddr : ∀ k, ip.addr k = s.ip.addr k := by
    intro k
    unfold Dinode.addr
    rw [ha]
  have hself : ∀ p, blockAt s.disk ip p = blockAt s.disk s.ip p := by
    intro p
    unfold blockAt
    simp only [haddr]
  have hA : ∀ j, Allocated sb (update D i ip) j ↔
      Allocated sb (update D i s.ip) j := by
    intro j
    by_cases hj : j = i
    · subst hj
      rw [allocated_update_self, allocated_update_self]
      exact and_congr_right fun _ => iff_of_true ht W.type
    · rw [allocated_update_ne hj, allocated_update_ne hj]
  have hall : ∀ j p, blockAt s.disk (update D i ip j) p =
      blockAt s.disk (update D i s.ip j) p := by
    intro j p
    by_cases hj : j = i
    · subst hj
      rw [update_self, update_self, hself]
    · rw [update_of_ne hj, update_of_ne hj]
  refine W.step ht ⟨W.own.owned.congr (fun k => ?_) (fun _ => Iff.rfl) (fun _ _ => rfl),
    fun j hj k hk => ?_, fun j hj => W.own.nb_le j ((hA j).1 hj)⟩ (fun _ => .inl rfl)
    (fun g hg => .inl hg)
  · unfold refs
    simp only [hA, hall]
  · rw [hall]
    exact W.own.exact j ((hA j).1 hj) k hk

theorem Work.itrunc (hsb : sb.Ok) (hread : readsb s0.disk = sb) (W : Work sb D i s0 n nothing s)
    (hi : i < sb.ninodes.toNat) :
    Sat (itrunc sb i) s (fun _ s' => s'.ip = { s.ip with size := 0, addrs := fun _ => 0 } ∧
      (∃ d, s'.disk = putDinode sb d i s'.ip ∧ Work sb D i s0 0 nothing { s' with disk := d }) ∧
      ∃ l, s'.logged = IBLOCK i sb :: l ++ s.logged ∧ ∀ b ∈ l, ∃ c < sb.size.toNat, b = BBLOCK c sb)
      fun _ => False := by
  unfold Fs.itrunc
  refine ((W.freeing hi).allDirect hsb hread W hi List.nodup_range fun k hk =>
    ⟨List.mem_range.1 hk, trivial, rfl⟩).bind fun _ t1 ⟨F1, hf1, ha1⟩ => ?_
  have hP : ∀ p, NDIRECT ≤ p → True ∧ p ∉ List.range NDIRECT := by
    intro p hp
    rw [List.mem_range]
    exact ⟨trivial, by omega⟩
  refine (F1.freeIndirect hsb hread W hi hP (by rw [ha1, if_neg (hP _ (le_refl _)).2])).bind
    fun _ t2 ⟨F2, hf2, ha2⟩ => ?_
  have hzero : t2.ip.addrs = fun _ => 0 := by
    funext k
    have hk := ha2 k.val
    rw [ha1] at hk
    have hk0 : t2.ip.addr k.val = 0 := by
      rw [hk]
      split
      · rfl
      · rw [if_pos (List.mem_range.2 (by have := k.isLt; omega))]
    unfold Dinode.addr at hk0
    rw [dif_pos k.isLt] at hk0
    exact BitVec.eq_of_toNat_eq hk0
  have hnone : blocksAt s (fun p => (True ∧ p ∉ List.range NDIRECT) ∧ p < NDIRECT) = nothing := by
    funext c
    refine propext ⟨?_, False.elim⟩
    rintro ⟨-, p, -, ⟨⟨-, h1⟩, h2⟩, -⟩
    exact h1 (List.mem_range.2 h2)
  have hip : { t2.ip with size := 0 } = { s.ip with size := 0, addrs := fun _ => 0 } := by
    rw [hf2, hf1, hzero]
  have hW := F2.work
  rw [hnone] at hW
  have hsize : Work sb D i s0 0 nothing { t2 with ip := { t2.ip with size := 0 } } :=
    hW.fields (by rw [hip]; rfl) (by rw [hip]; exact W.type)
  apply sat_modify
  refine sat_modify_end ⟨hip, ⟨t2.disk, rfl, hsize.relog _⟩, ?_⟩
  · obtain ⟨l, hl, hin⟩ := F2.logged
    exact ⟨l, by rw [hl]; rfl, hin⟩

end Xv6.Fs
