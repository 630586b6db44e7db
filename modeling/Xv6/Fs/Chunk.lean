import Xv6.Fs.ByteArray
import Xv6.Lib.Footprint

/-!
# A chunk of filewrite fits into an operation

`filewrite` cuts a write into chunks so that each fits into the blocks that an operation may log.
The blocks that are allocated for a chunk may be under as many blocks of the free map. A chunk
touches four blocks only if it does not start at the start of a block, and then the first one is
there already; so at most three data blocks and the indirect block are allocated.
-/

namespace Xv6.Fs

open Lib

variable {sb : Superblock} {D : Nat → Dinode} {s0 s : InodeSt} {i k n off x : Nat}
  {src : List UInt8}

/-- The number of blocks with a byte of the `n` bytes from `off` on. -/
def touched (off n : Nat) : Nat :=
  if n = 0 then 0 else (off % BSIZE + n + (BSIZE - 1)) / BSIZE

/-- One block of the free map is still to be counted while there is no indirect block. -/
def lacksIndirect (ip : Dinode) : Nat := if ip.addr NDIRECT = 0 then 1 else 0

/-- `x` is the indirect block, if there is one. -/
def IsIndirect (ip : Dinode) (x : Nat) : Prop := ip.addr NDIRECT ≠ 0 → x = ip.addr NDIRECT

theorem balloc_cost :
    Sat (balloc sb) s (fun b s' => s'.logged = b :: BBLOCK b sb :: s.logged ∧ s'.ip = s.ip ∧
      b < 2 ^ 32) fun _ => True := by
  unfold Sat balloc
  cases hf : firstFree sb s.disk with
  | none => trivial
  | some b =>
    exact ⟨rfl, rfl, lt_trans (List.mem_range.1 (List.mem_of_find?_eq_some hf)) sb.size.isLt⟩

theorem addrOrAlloc_cost (hk : k ≤ NDIRECT) :
    Sat (addrOrAlloc sb k) s (fun b s' => (s.ip.addr k ≠ 0 → s' = s ∧ b = s.ip.addr k) ∧
      (s.ip.addr k = 0 → s'.logged = b :: BBLOCK b sb :: s.logged ∧
        ∀ k', s'.ip.addr k' = if k' = k then b else s.ip.addr k')) fun _ => True := by
  unfold addrOrAlloc
  apply sat_get
  split
  · next h0 =>
    refine balloc_cost.bind fun b s1 ⟨hl, hip, hb⟩ => sat_modify (sat_pure ?_)
    refine ⟨fun h => absurd h0 h, fun _ => ⟨hl, fun k' => ?_⟩⟩
    rw [addr_setAddr hk hb, hip]
  · next h0 => exact sat_pure ⟨fun _ => ⟨rfl, rfl⟩, fun h => absurd h h0⟩

theorem bmap_cost :
    Sat (bmap sb k) s (fun b s' =>
      (s.ip.addr NDIRECT ≠ 0 → s'.ip.addr NDIRECT = s.ip.addr NDIRECT) ∧
      ((NDIRECT ≤ k → s'.ip.addr NDIRECT ≠ 0) → ∀ x, IsIndirect s'.ip x →
        Adds {x} (2 + (lacksIndirect s.ip - lacksIndirect s'.ip)) s.logged (b :: s'.logged)))
      fun _ => True := by
  unfold bmap
  split
  · next hk =>
    refine (addrOrAlloc_cost hk.le).mono fun b s' ⟨hold, hnew⟩ => ?_
    by_cases h0 : s.ip.addr k = 0
    · obtain ⟨hl, haddr⟩ := hnew h0
      have hind : s'.ip.addr NDIRECT = s.ip.addr NDIRECT := by
        rw [haddr, if_neg hk.ne']
      refine ⟨fun _ => hind, fun _ x _ => ?_⟩
      rw [hl]
      refine (Adds.of_forall (k := [b, b, BBLOCK b sb]) (G := {b, BBLOCK b sb}) (fun c hc => ?_)
        Finset.card_le_two).mono (Finset.Subset.refl _) (Nat.le_add_right _ _)
      simp only [List.mem_cons, List.not_mem_nil, or_false] at hc
      simp only [Finset.mem_insert, Finset.mem_singleton]
      exact .inr (by rcases hc with hc | hc | hc <;> simp [hc])
    · obtain ⟨rfl, rfl⟩ := hold h0
      refine ⟨fun _ => rfl, fun _ x _ => ?_⟩
      refine (Adds.of_forall (k := [_]) (G := {s'.ip.addr k}) (fun c hc => ?_)
        (Finset.card_singleton _).le).mono (Finset.Subset.refl _) (by omega)
      exact .inr (by simpa using hc)
  split
  · next hk _ =>
    refine (addrOrAlloc_cost le_rfl).bind fun a s1 ⟨hold, hnew⟩ => sat_get ?_
    -- what the indirect block has cost
    have hind : s1.ip.addr NDIRECT = a := by
      by_cases h0 : s.ip.addr NDIRECT = 0
      · rw [(hnew h0).2, if_pos rfl]
      · obtain ⟨rfl, rfl⟩ := hold h0
        rfl
    have hsame : s.ip.addr NDIRECT ≠ 0 → s1.ip.addr NDIRECT = s.ip.addr NDIRECT := fun h0 => by
      rw [(hold h0).1]
    have hfirst : a ≠ 0 → Adds {a} (lacksIndirect s.ip - lacksIndirect s1.ip) s.logged
        s1.logged := by
      intro ha
      by_cases h0 : s.ip.addr NDIRECT = 0
      · rw [(hnew h0).1]
        refine (Adds.of_forall (k := [a, BBLOCK a sb]) (G := {BBLOCK a sb}) (fun c hc => ?_)
          (Finset.card_singleton _).le).mono (Finset.Subset.refl _) ?_
        · simpa using hc
        · unfold lacksIndirect
          rw [if_pos h0, if_neg (by rw [hind]; exact ha)]
      · rw [(hold h0).1]
        exact Adds.refl _ _ _
    split
    · refine balloc_cost.bind fun b s2 ⟨hl, hip, _⟩ => sat_modify (sat_pure ?_)
      refine ⟨fun h0 => by rw [hip]; exact hsame h0, fun hne x hx => ?_⟩
      dsimp only at hne hx ⊢
      rw [hip] at hne hx ⊢
      obtain rfl : x = a := (hx (hne (not_lt.1 hk))).trans hind
      have hx0 : x ≠ 0 := hind ▸ hne (not_lt.1 hk)
      rw [hl, Nat.add_comm]
      refine (hfirst hx0).trans (Adds.of_forall (k := [b, x, b, BBLOCK b sb])
        (G := {b, BBLOCK b sb}) (fun c hc => ?_) Finset.card_le_two)
      simp only [List.mem_cons, List.not_mem_nil, or_false] at hc
      simp only [Finset.mem_insert, Finset.mem_singleton]
      rcases hc with hc | hc | hc | hc
      · exact .inr (.inl hc)
      · exact .inl hc
      · exact .inr (.inl hc)
      · exact .inr (.inr hc)
    · refine sat_pure ⟨hsame, fun hne x hx => ?_⟩
      obtain rfl : x = a := (hx (hne (not_lt.1 hk))).trans hind
      have hx0 : x ≠ 0 := hind ▸ hne (not_lt.1 hk)
      rw [Nat.add_comm]
      refine (hfirst hx0).trans (Adds.of_forall (k := [entry (s1.disk x) (k - NDIRECT)])
        (G := {entry (s1.disk x) (k - NDIRECT)}) (fun c hc => ?_)
        ((Finset.card_singleton _).le.trans (by decide)))
      exact .inr (by simpa using hc)
  · trivial

/-- The blocks at or behind block `n` that a write touches. -/
def newBlocks (off len n : Nat) : Nat := if len = 0 then 0 else off / BSIZE + touched off len - n

theorem cost_pass {len : Nat} (hlen : len ≠ 0) (hn : off / BSIZE ≤ n) :
    (if off / BSIZE < n then 1 else 2) +
      (touched (off + min len (BSIZE - off % BSIZE)) (len - min len (BSIZE - off % BSIZE)) +
        newBlocks (off + min len (BSIZE - off % BSIZE)) (len - min len (BSIZE - off % BSIZE))
          (max n (off / BSIZE + 1))) ≤ touched off len + newBlocks off len n := by
  have hB : BSIZE = 512 := rfl
  unfold newBlocks touched
  rw [hB] at hn
  rw [if_neg hlen, if_neg hlen, hB]
  split
  · rw [max_eq_left (by omega)]
    split <;> omega
  · rw [max_eq_right (by omega)]
    split <;> omega

theorem Work.writeLoop_cost (hsb : sb.Ok) (hi : i < sb.ninodes.toNat) {passes : Nat}
    (W : Work sb D i s0 n nothing s) (hoff : off ≤ BSIZE * n)
    (hend : off + src.length ≤ BSIZE * MAXFILE) :
    Sat (Fs.writeLoop sb passes off src) s (fun _ s' =>
      (s.ip.addr NDIRECT ≠ 0 → s'.ip.addr NDIRECT = s.ip.addr NDIRECT) ∧
      ∀ x, IsIndirect s'.ip x → Adds {x} (touched off src.length + newBlocks off src.length n +
        lacksIndirect s.ip) s.logged s'.logged) fun _ => True := by
  induction passes generalizing off src n s with
  | zero => exact ⟨fun _ => rfl, fun x _ => Adds.refl _ _ _⟩
  | succ passes ih =>
    unfold Fs.writeLoop
    split
    · exact ⟨fun _ => rfl, fun x _ => Adds.refl _ _ _⟩
    · next h0 =>
      obtain ⟨hb, hdm, hmod, hkn, hkm, hk1, hnext⟩ := first_block hoff h0 hend
      refine (((W.bmap hsb hi hkn hkm).and bmap_cost).monoError fun _ _ => trivial).bind ?_
      rintro b s1 ⟨⟨W1, -, hblk, hsame⟩, hkeep, hcost⟩
      apply sat_modify
      have hlen : (src.drop (min src.length (BSIZE - off % BSIZE))).length =
          src.length - min src.length (BSIZE - off % BSIZE) := List.length_drop
      have hpass := cost_pass h0 hkn
      have hb0 : b ≠ 0 := by
        rw [hblk]
        exact (W1.exact hi _ hkm).2 hk1
      -- a block behind the direct ones is found through the indirect block
      have hind : NDIRECT ≤ off / BSIZE → s1.ip.addr NDIRECT ≠ 0 := by
        intro hge h
        apply hb0
        rw [hblk, filePos, if_neg (not_lt.2 hge), blockAt, if_neg (by omega), if_pos h]
      have hfirst : ∀ x, IsIndirect s1.ip x → Adds {x} ((if off / BSIZE < n then 1 else 2) +
          (lacksIndirect s.ip - lacksIndirect s1.ip)) s.logged (b :: s1.logged) := by
        intro x hx
        split
        · next hlt =>
          rw [hsame hlt]
          refine (Adds.of_forall (k := [b]) (G := {b}) (fun c hc => ?_)
            (Finset.card_singleton _).le).mono (Finset.Subset.refl _) (Nat.le_add_right _ _)
          exact .inr (by simpa using hc)
        · exact hcost hind x hx
      subst hblk
      have W2 := (W1.write hsb hi hk1 ((s1.disk (fileBlock s1.disk s1.ip (off / BSIZE))).splice
        (off % BSIZE) (src.take (min src.length (BSIZE - off % BSIZE))))).1.relog
        (fileBlock s1.disk s1.ip (off / BSIZE) :: s1.logged)
      refine (ih W2 (by omega) (by omega)).mono ?_
      rintro _ s' ⟨hkeep', hrest⟩
      refine ⟨fun h => ?_, fun x hx => ?_⟩
      · exact (hkeep' (by rw [hkeep h]; exact h)).trans (hkeep h)
      · have hx1 : IsIndirect s1.ip x := fun h => by
          have := hkeep' h
          rw [hx (by rw [this]; exact h), this]
        refine ((hfirst x hx1).trans (hrest x hx)).mono (Finset.Subset.refl _) ?_
        rw [hlen]
        have hle : lacksIndirect s1.ip ≤ lacksIndirect s.ip := by
          unfold lacksIndirect
          by_cases h : s.ip.addr NDIRECT = 0
          · rw [if_pos h]
            split <;> omega
          · rw [if_neg h, if_neg (by rw [hkeep h]; exact h)]
        dsimp only
        omega

theorem chunk_cost (off len size : Nat) (hlen : len ≤ 1536) (hoff : off ≤ size) :
    touched off len + newBlocks off len ((size + (BSIZE - 1)) / BSIZE) ≤ 7 := by
  have hB : BSIZE = 512 := rfl
  unfold newBlocks touched
  rw [hB]
  split <;> omega

/-- A chunk of `filewrite` logs at most `MAXOPBLOCKS` blocks, wherever the free blocks are. -/
theorem chunk_fits (hsb : sb.Ok) (hi : i < sb.ninodes.toNat) (h : Owner sb s.disk)
    (hip : dinode sb s.disk i = s.ip) (ht : s.ip.type ≠ 0) (hoff : off ≤ s.ip.size.toNat)
    (hlen : src.length ≤ (MAXOPBLOCKS - 1 - 1 - 2) / 2 * 512)
    (hend : off + src.length ≤ MAXFILE * BSIZE) {r : Option Nat} {s' : InodeSt}
    (hrun : writei sb i off src s = .ok (r, s')) :
    ∃ l, s'.logged = l ++ s.logged ∧ l.toFinset.card ≤ MAXOPBLOCKS := by
  have W := h.work hip ht
  have hblocks : off ≤ BSIZE * dataBlocks s.ip := by
    have hB : BSIZE = 512 := rfl
    unfold dataBlocks
    rw [hB]
    omega
  have hcost : Sat (writei sb i off src) s (fun _ s' => ∃ x, Adds {x, IBLOCK i sb}
      (touched off src.length + newBlocks off src.length (dataBlocks s.ip) + 1) s.logged s'.logged)
      fun _ => True := by
    unfold writei
    apply sat_get
    split
    · exact ⟨0, Adds.refl _ _ _⟩
    split
    · exact ⟨0, Adds.refl _ _ _⟩
    · refine (W.writeLoop_cost hsb hi hblocks (by rw [Nat.mul_comm]; exact hend)).bind
        fun _ s1 ⟨_, hloop⟩ => ?_
      have hgrow : Sat (growSize sb i src.length (off + src.length)) s1 (fun _ s' =>
          Adds {s1.ip.addr NDIRECT, IBLOCK i sb} 0 s1.logged s'.logged) fun _ => True := by
        unfold growSize
        apply sat_get
        split
        · apply sat_modify
          exact sat_modify_end (Adds.of_subset (k := [IBLOCK i sb]) (by simp))
        · exact Adds.refl _ _ _
      refine hgrow.bind fun _ s2 h₂ => sat_pure ⟨s1.ip.addr NDIRECT, ?_⟩
      refine (((hloop _ fun _ => rfl).mono (Finset.singleton_subset_iff.2
        (Finset.mem_insert_self _ _)) le_rfl).trans h₂).mono (Finset.Subset.refl _) ?_
      have : lacksIndirect s.ip ≤ 1 := by
        unfold lacksIndirect
        split <;> omega
      omega
  obtain ⟨x, hx⟩ := hcost.ok hrun
  obtain ⟨l, hl, hcard⟩ := hx.card
  refine ⟨l, hl, hcard.trans ?_⟩
  have h1 := chunk_cost off src.length s.ip.size.toNat hlen hoff
  have h2 : ({x, IBLOCK i sb} : Finset Nat).card ≤ 2 := Finset.card_le_two
  have h3 : MAXOPBLOCKS = 10 := rfl
  unfold dataBlocks
  omega

theorem writei_small : ∃ s', writei smallSb 1 0 [7] ⟨smallDisk, emptyFile, [], []⟩ =
    .ok (some 1, s') := by
  have hsat : Sat (writei smallSb 1 0 [7]) ⟨smallDisk, emptyFile, [], []⟩ _ _ := writei_room
    ok_smallSb (by decide) owner_smallDisk dinode_smallDisk (by decide) (Nat.zero_le _) (by decide)
  cases hrun : writei smallSb 1 0 [7] ⟨smallDisk, emptyFile, [], []⟩ with
  | error e =>
    have hlt := (hsat.error hrun).2
    dsimp only at hlt
    rw [room_smallDisk] at hlt
    exact absurd hlt (by decide)
  | ok r =>
    obtain ⟨a, s'⟩ := r
    obtain rfl : a = some 1 := (hsat.ok hrun).1
    exact ⟨s', rfl⟩

theorem chunk_fits_small : ∃ s' l, writei smallSb 1 0 [7] ⟨smallDisk, emptyFile, [], []⟩ =
    .ok (some 1, s') ∧ s'.logged = l ++ [] ∧ l.toFinset.card ≤ MAXOPBLOCKS := by
  obtain ⟨s', hrun⟩ := writei_small
  obtain ⟨l, hl, hcard⟩ := chunk_fits (s := ⟨smallDisk, emptyFile, [], []⟩) (i := 1) ok_smallSb
    (by decide) owner_smallDisk dinode_smallDisk (by decide) (Nat.zero_le _) (by decide) (by decide)
    hrun
  exact ⟨s', l, hrun, hl, hcard⟩

end Xv6.Fs
