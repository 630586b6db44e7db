import Xv6.Fs.Contents

/-!
# What the code under the lock of an inode comes to

A `Section` is the whole effect of such code on the disk: the ownership of blocks holds again,
the inode on the disk is the one in memory, and no other inode, none of its blocks and no
metadata but the free map has changed. `writei`, the loops over directories, the freeing of an
inode and the changes of link counts are sections.
-/

namespace Xv6.Fs

open Lib
open Function (update update_apply update_eq_self update_of_ne update_self)

variable {sb : Superblock} {d d' : Disk} {D : Nat → Dinode} {E : Nat → Prop}
  {i j b k n m off x : Nat} {ip : Dinode} {s t : InodeSt}

def Owner (sb : Superblock) (d : Disk) : Prop :=
  Own sb d (dinode sb d) (fun i => dataBlocks (dinode sb d i)) nothing

/-- The block was in use nowhere when it was handed out to a call on inode `i`. -/
def Unused (sb : Superblock) (i : Nat) (g : Given) : Prop :=
  ∀ k, refs sb g.disk (update (dinode sb g.disk) i g.ip) k ≠ g.block

/-- The effect of code under the lock of inode `i`. -/
structure Section (sb : Superblock) (i : Nat) (s s' : InodeSt) : Prop where
  own : Owner sb s'.disk
  inode : dinode sb s'.disk i = s'.ip
  dinodes : ∀ j < sb.ninodes.toNat, j ≠ i → dinode sb s'.disk j = dinode sb s.disk j
  super : s'.disk 1 = s.disk 1
  blocks : ∀ j, j ≠ i → Allocated sb (dinode sb s.disk) j → ∀ pos < NPOS,
    blockAt s.disk (dinode sb s.disk j) pos ≠ 0 →
    s'.disk (blockAt s.disk (dinode sb s.disk j) pos) =
      s.disk (blockAt s.disk (dinode sb s.disk j) pos)
  given : ∀ g ∈ s'.given, g ∈ s.given ∨ Unused sb i g

theorem Section.relog {s s' : InodeSt} (h : Section sb i s s') (lg : List Nat) :
    Section sb i s { s' with logged := lg } :=
  ⟨h.own, h.inode, h.dinodes, h.super, h.blocks, h.given⟩

theorem Own.congr {D' : Nat → Dinode} {nb nb' : Nat → Nat} (h : Own sb d D nb E)
    (hD : ∀ j < sb.ninodes.toNat, D' j = D j) (hn : ∀ j < sb.ninodes.toNat, nb' j = nb j) :
    Own sb d D' nb' E := by
  have hA : ∀ j, Allocated sb D' j ↔ Allocated sb D j := by
    intro j
    unfold Allocated
    refine and_congr_right fun hj => ?_
    rw [hD j hj]
  refine ⟨h.owned.congr (fun k => ?_) (fun _ => Iff.rfl) (fun _ _ => rfl), fun j hj k hk => ?_,
    fun j hj => ?_⟩
  · unfold refs
    by_cases hk : Allocated sb D k.1
    · rw [hD k.1 hk.1]
      simp only [hA]
    · simp only [hA, hk, false_and, if_false]
  · rw [hD j hj.1, hn j hj.1]
    exact h.exact j ((hA j).1 hj) k hk
  · rw [hn j hj.1]
    exact h.nb_le j ((hA j).1 hj)

theorem Owner.work (h : Owner sb s.disk) (hip : dinode sb s.disk i = s.ip)
    (ht : s.ip.type ≠ 0) : Work sb (dinode sb s.disk) i s (dataBlocks s.ip) nothing s := by
  refine ⟨ht, h.congr (fun j _ => ?_) (fun j _ => ?_), fun _ _ => rfl, fun _ _ _ _ _ _ => rfl,
    fun g hg => .inl hg⟩
  · by_cases hj : j = i
    · rw [hj, update_self, hip]
    · rw [update_of_ne hj]
  · by_cases hj : j = i
    · rw [hj, update_self, hip]
    · rw [update_of_ne hj]

theorem Superblock.Ok.inode_low (hsb : sb.Ok) (hi : i < sb.ninodes.toNat) :
    1 ≠ IBLOCK i sb ∧ IBLOCK i sb < sb.bmapstart.toNat := by
  have h1 := hsb.super
  have h2 : sb.inodestart.toNat ≤ IBLOCK i sb := Nat.le_add_left _ _
  exact ⟨by omega, hsb.inodes i hi⟩

theorem Superblock.Ok.data_high (hsb : sb.Ok) (hlo : sb.firstData ≤ b) (hhi : b < sb.size.toNat) :
    sb.bmapstart.toNat ≤ b := by
  have := hsb.bitmap b hhi
  have := le_BBLOCK sb b
  omega

section

variable (hsb : sb.Ok) (W : Work sb (dinode sb s.disk) i s n nothing t)

include hsb W

theorem Work.done (hn : n = dataBlocks t.ip) (hinode : dinode sb d' i = t.ip)
    (hdinodes : ∀ j < sb.ninodes.toNat, j ≠ i → dinode sb d' j = dinode sb t.disk j)
    (hsuper : d' 1 = t.disk 1) (hdata : ∀ b, sb.bmapstart.toNat ≤ b → d' b = t.disk b) :
    Section sb i s { t with disk := d' } := by
  have hlow : ∀ j < sb.ninodes.toNat, dinode sb t.disk j = dinode sb s.disk j := fun j hj =>
    dinode_congr (W.low _ (hsb.inodes j hj))
  have hD : ∀ j < sb.ninodes.toNat,
      dinode sb d' j = update (dinode sb s.disk) i t.ip j := by
    intro j hj
    by_cases hji : j = i
    · rw [hji, update_self, hinode]
    · rw [update_of_ne hji, hdinodes j hj hji, hlow j hj]
  have hown : Own sb d' (update (dinode sb s.disk) i t.ip)
      (update (fun j => dataBlocks (dinode sb s.disk j)) i n) nothing := by
    refine W.own.disk (W.own.owned.congr (fun _ => rfl) (fun _ => Iff.rfl) fun b hb => ?_) ?_
    · exact bit_congr (hdata _ (le_BBLOCK sb b))
    · intro j hj pos _
      apply W.own.blockAt_eq hj
      intro c h1 h2 _
      exact hdata c (hsb.data_high h1 h2)
  refine ⟨hown.congr hD fun j hj => ?_, hinode, fun j hj hji => ?_, ?_,
    fun j hji hA pos hp h0 => ?_, fun g hg => ?_⟩
  · rw [hD j hj]
    by_cases hji : j = i
    · rw [hji, update_self, update_self, hn]
    · rw [update_of_ne hji, update_of_ne hji]
  · rw [hdinodes j hj hji, hlow j hj]
  · exact hsuper.trans (W.low 1 hsb.super_low)
  · have hr := W.own.range pos ((allocated_update_ne hji).2 hA) hp
    rw [update_of_ne hji, W.blockAt_other hji hA] at hr
    dsimp only
    rw [hdata _ (hsb.data_high (hr h0).1 (hr h0).2)]
    exact W.others j hji hA pos hp h0
  · rcases W.given g hg with h | h
    · exact .inl h
    · refine .inr fun k hk => h.unused k ?_
      rw [← hk]
      have hgD : ∀ j < sb.ninodes.toNat, dinode sb g.disk j = dinode sb s.disk j := fun j hj =>
        dinode_congr (h.low _ (hsb.inodes j hj))
      unfold refs Allocated
      by_cases hki : k.1 = i
      · simp only [hki, update_self]
      · simp only [update_of_ne hki]
        by_cases hlt : k.1 < sb.ninodes.toNat
        · rw [hgD _ hlt]
        · simp [hlt]

theorem Work.iupdate (hi : i < sb.ninodes.toNat) (hn : n = dataBlocks t.ip) :
    Section sb i s { t with
      disk := putDinode sb t.disk i t.ip
      logged := IBLOCK i sb :: t.logged } := by
  obtain ⟨h1, h2⟩ := hsb.inode_low hi
  have hsec : Section sb i s { t with disk := putDinode sb t.disk i t.ip } := by
    refine W.done hsb hn ?_ (fun j _ hji => ?_) (putDinode_of_ne h1) fun b hb =>
      putDinode_of_ne (by omega)
    · rw [dinode_putDinode, if_pos rfl]
    · rw [dinode_putDinode, if_neg hji]
  exact hsec.relog _

theorem Work.unchanged (hi : i < sb.ninodes.toNat) (hn : n = dataBlocks t.ip)
    (hip : dinode sb s.disk i = t.ip) : Section sb i s t := by
  refine W.done hsb hn ?_ (fun _ _ _ => rfl) rfl fun _ _ => rfl
  rw [dinode_congr (W.low _ (hsb.inode_low hi).2), hip]

end

theorem Section.refl (h : Owner sb s.disk) (hip : dinode sb s.disk i = s.ip) : Section sb i s s :=
  ⟨h, hip, fun _ _ _ => rfl, rfl, fun _ _ _ _ _ _ => rfl, fun _ hg => .inl hg⟩

theorem Work.fileByte_putDinode {s0 : InodeSt} (hsb : sb.Ok) (W : Work sb D i s0 n nothing t)
    (hi : i < sb.ninodes.toNat) (ha : ip.addrs = t.ip.addrs) (hx : x / BSIZE < n) :
    fileByte (putDinode sb t.disk i ip) ip x = fileByte t.disk t.ip x := by
  have hm : x / BSIZE < MAXFILE := lt_of_lt_of_le hx (W.nb_le hi)
  have hsame : ∀ pos < NPOS, blockAt t.disk t.ip pos ≠ 0 →
      putDinode sb t.disk i ip (blockAt t.disk t.ip pos) = t.disk (blockAt t.disk t.ip pos) := by
    intro pos hp h0
    have hr := W.range pos hi hp h0
    have h1 := hsb.data_high hr.1 hr.2
    have h2 := (hsb.inode_low hi).2
    exact putDinode_of_ne (by omega)
  have haddr : ∀ k, ip.addr k = t.ip.addr k := by
    intro k
    unfold Dinode.addr
    rw [ha]
  have hblk : fileBlock (putDinode sb t.disk i ip) ip (x / BSIZE) =
      fileBlock t.disk t.ip (x / BSIZE) := by
    have hcongr : blockAt (putDinode sb t.disk i ip) t.ip (filePos (x / BSIZE)) =
        blockAt t.disk t.ip (filePos (x / BSIZE)) := by
      apply blockAt_congr
      have := hsame NDIRECT (by decide)
      rwa [blockAt_indirect] at this
    unfold fileBlock
    rw [← hcongr]
    unfold blockAt
    simp only [haddr]
  unfold fileByte
  rw [hblk]
  exact congrFun (congrArg _ (hsame _ (filePos_lt hm) ((W.exact hi _ hm).2 hx))) _

/-! ## Sections one after the other -/

theorem Section.blockAt_eq {s' : InodeSt} (h : Section sb i s s') (hj : j ≠ i)
    (hA : Allocated sb (dinode sb s.disk) j) (pos : Nat) :
    blockAt s'.disk (dinode sb s'.disk j) pos = blockAt s.disk (dinode sb s.disk j) pos := by
  rw [h.dinodes j hA.1 hj]
  apply blockAt_congr
  intro h0
  have := h.blocks j hj hA NDIRECT (by decide)
  rw [blockAt_indirect] at this
  exact this h0

theorem Section.allocated {s' : InodeSt} (h : Section sb i s s') (hj : j ≠ i) :
    Allocated sb (dinode sb s'.disk) j ↔ Allocated sb (dinode sb s.disk) j := by
  unfold Allocated
  refine and_congr_right fun hlt => ?_
  rw [h.dinodes j hlt hj]

theorem Section.trans {s' s'' : InodeSt} (h : Section sb i s s') (h' : Section sb i s' s'') :
    Section sb i s s'' := by
  refine ⟨h'.own, h'.inode, fun j hj hji => (h'.dinodes j hj hji).trans (h.dinodes j hj hji),
    h'.super.trans h.super, fun j hj hA pos hp h0 => ?_, fun g hg => ?_⟩
  · have := h'.blocks j hj ((h.allocated hj).2 hA) pos hp
    rw [h.blockAt_eq hj hA] at this
    exact (this h0).trans (h.blocks j hj hA pos hp h0)
  · rcases h'.given g hg with hg | hg
    · exact h.given g hg
    · exact .inr hg

theorem Section.fileByte {s' : InodeSt} (hs : Owner sb s.disk) (h : Section sb i s s') (hj : j ≠ i)
    (hA : Allocated sb (dinode sb s.disk) j) (hx : x < (dinode sb s.disk j).size.toNat) :
    fileByte s'.disk (dinode sb s'.disk j) x = fileByte s.disk (dinode sb s.disk j) x := by
  have hk : x / BSIZE < dataBlocks (dinode sb s.disk j) := lt_blocksFor hx
  have hm : x / BSIZE < MAXFILE := lt_of_lt_of_le hk (hs.nb_le j hA)
  unfold Fs.fileByte fileBlock
  rw [h.blockAt_eq hj hA, h.blocks j hj hA _ (filePos_lt hm) ((hs.exact j hA _ hm).2 hk)]

theorem dirent_congr {ip' : Dinode}
    (h : ∀ x < 16, fileByte d' ip' (16 * k + x) = fileByte d ip (16 * k + x)) :
    dirent d' ip' k = dirent d ip k := by
  unfold dirent fileBytes
  congr 1
  apply List.map_congr_left
  intro x hx
  exact h x (List.mem_range.1 hx)

theorem Section.dirent {s' : InodeSt} (hs : Owner sb s.disk) (h : Section sb i s s') (hj : j ≠ i)
    (hA : Allocated sb (dinode sb s.disk) j) (hk : k < entries (dinode sb s.disk j)) :
    dirent s'.disk (dinode sb s'.disk j) k = dirent s.disk (dinode sb s.disk j) k := by
  apply dirent_congr
  intro x hx
  unfold entries at hk
  exact h.fileByte hs hj hA (by omega)

/-! ## Sections without blocks -/

def Blank (ip : Dinode) : Prop := ip.type = 0 ∨ (ip.addrs = (fun _ => 0) ∧ ip.size = 0)

theorem Blank.refs (h : Blank ip) : refs sb d (update D i ip) (i, x) = 0 := by
  unfold Fs.refs
  split
  · next hc =>
    rcases h with h | ⟨h, -⟩
    · exact absurd h (allocated_update_self.1 hc.1).2
    · have hb : ip = ip.bare := by rw [Dinode.bare, ← h]
      dsimp only
      rw [update_self, hb, blockAt_bare]
  · rfl

theorem Owner.blank (lg : List Nat) (hsb : sb.Ok) (h : Owner sb s.disk) (hi : i < sb.ninodes.toNat)
    (hb : Blank (dinode sb s.disk i)) (hb' : Blank ip) :
    Section sb i s ⟨putDinode sb s.disk i ip, ip, s.given, lg⟩ := by
  obtain ⟨h1, h2⟩ := hsb.inode_low hi
  have hdata : ∀ c, sb.bmapstart.toNat ≤ c → putDinode sb s.disk i ip c = s.disk c := fun c hc =>
    putDinode_of_ne (by omega)
  have hD : dinode sb (putDinode sb s.disk i ip) = update (dinode sb s.disk) i ip := by
    funext j
    rw [dinode_putDinode, update_apply]
  have hother : ∀ j, j ≠ i → Allocated sb (dinode sb s.disk) j → ∀ pos,
      blockAt (putDinode sb s.disk i ip) (dinode sb s.disk j) pos =
        blockAt s.disk (dinode sb s.disk j) pos := by
    intro j hj hA pos
    apply h.blockAt_eq hA
    intro c h3 h4 _
    exact hdata c (hsb.data_high h3 h4)
  have hself : update (dinode sb s.disk) i (dinode sb s.disk i) = dinode sb s.disk :=
    update_eq_self i _
  refine ⟨⟨h.owned.congr (fun ⟨j, pos⟩ => ?_) (fun _ => Iff.rfl) (fun b hbs => ?_),
    fun j hj k hk => ?_, fun j hj => ?_⟩, ?_, fun j _ hji => ?_, putDinode_of_ne h1,
    fun j hji hA pos hp h0 => ?_, fun g hg => .inl hg⟩
  · dsimp only
    rw [hD]
    by_cases hj : j = i
    · subst hj
      rw [hb'.refs, ← hself, hb.refs]
    · rw [refs_update_ne _ hj]
      unfold Fs.refs
      split
      · next hc => exact hother j hj hc.1 pos
      · rfl
  · exact bit_congr (hdata _ (le_BBLOCK sb b))
  · dsimp only at hj ⊢
    rw [hD] at hj ⊢
    by_cases hji : j = i
    · subst hji
      rcases hb' with h0 | ⟨h0, hz⟩
      · exact absurd h0 (allocated_update_self.1 hj).2
      · have hbare : ip = ip.bare := by rw [Dinode.bare, ← h0]
        have hnb : dataBlocks ip = 0 := by
          unfold dataBlocks
          rw [hz]
          rfl
        rw [update_self, hnb, hbare, blockAt_bare]
        simp
    · have hA := (allocated_update_ne hji).1 hj
      rw [update_of_ne hji, hother j hji hA]
      exact h.exact j hA k hk
  · dsimp only at hj ⊢
    rw [hD] at hj ⊢
    by_cases hji : j = i
    · subst hji
      rcases hb' with h0 | ⟨-, hz⟩
      · exact absurd h0 (allocated_update_self.1 hj).2
      · rw [update_self]
        unfold dataBlocks
        rw [hz]
        exact Nat.zero_le _
    · rw [update_of_ne hji]
      exact h.nb_le j ((allocated_update_ne hji).1 hj)
  · dsimp only
    rw [hD, update_self]
  · dsimp only
    rw [hD, update_of_ne hji]
  · exact hdata _ (hsb.data_high (h.range pos hA hp h0).1 (h.range pos hA hp h0).2)

theorem Owner.fields (lg : List Nat) (hsb : sb.Ok) (h : Owner sb s.disk) (hi : i < sb.ninodes.toNat)
    (hip : dinode sb s.disk i = s.ip) (ht : s.ip.type ≠ 0) (ha : ip.addrs = s.ip.addrs)
    (hsize : ip.size = s.ip.size) (ht' : ip.type ≠ 0) :
    Section sb i s ⟨putDinode sb s.disk i ip, ip, s.given, lg⟩ := by
  have hsec := Work.iupdate hsb ((h.work hip ht).fields ha ht') hi (by
    unfold dataBlocks
    rw [hsize])
  exact hsec.relog lg

end Xv6.Fs
