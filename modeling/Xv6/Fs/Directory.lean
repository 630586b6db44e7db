import Xv6.Fs.Section

/-!
# Writing files and directories

`writei`, `ifree` and the parts of `dirlookup`, `dirlink`, `isdirempty` and `sys_unlink` that run
under the lock of one inode are sections; for directories, what they do to the entries.
-/

namespace Xv6.Fs

open Lib

variable {sb : Superblock} {i k off : Nat} {s s' : InodeSt} {src : List UInt8}

/-! ## `writei` -/

/-- From `s` to `s'` the bytes `src` have been written at `off`. -/
structure Written (off : Nat) (src : List UInt8) (s s' : InodeSt) : Prop where
  start : off ≤ s.ip.size.toNat
  fields : s'.ip = { s.ip with addrs := s'.ip.addrs, size := s'.ip.size }
  size : s'.ip.size.toNat = max s.ip.size.toNat (off + src.length)
  inside : ∀ k (hk : k < src.length), fileByte s'.disk s'.ip (off + k) = src[k]
  outside : ∀ x < s.ip.size.toNat, x < off ∨ off + src.length ≤ x →
    fileByte s'.disk s'.ip x = fileByte s.disk s.ip x

/-- What `writei` answers: it refuses, or writes all bytes. -/
def WriteRes (off : Nat) (src : List UInt8) (s s' : InodeSt) : Option Nat → Prop
  | none => s' = s ∧ (s.ip.size.toNat < off ∨ BSIZE * MAXFILE < off + src.length)
  | some m => m = src.length ∧ Written off src s s'

theorem writei_spec (hsb : sb.Ok) (hi : i < sb.ninodes.toNat) (h : Owner sb s.disk)
    (hip : dinode sb s.disk i = s.ip) (ht : s.ip.type ≠ 0) :
    Sat (writei sb i off src) s (fun r s' => Section sb i s s' ∧ WriteRes off src s s' r) Fine := by
  have W := h.work hip ht
  have hsize := W.size_le hi
  have hmf : BSIZE * MAXFILE = 71680 := rfl
  unfold writei
  apply sat_get
  by_cases h1 : s.ip.size.toNat < off ∨ (off + src.length) % 2 ^ 32 < off
  · rw [if_pos h1]
    refine sat_pure ⟨Section.refl h hip, rfl, ?_⟩
    rcases h1 with h1 | h1
    · exact .inl h1
    · exact .inr (by omega)
  · rw [if_neg h1]
    by_cases h2 : MAXFILE * BSIZE < off + src.length
    · rw [if_pos h2]
      exact sat_pure ⟨Section.refl h hip, rfl, .inr (by rwa [Nat.mul_comm])⟩
    · rw [if_neg h2]
      have hblk := size_le_dataBlocks s.ip
      have hle : off ≤ s.ip.size.toNat := by omega
      have hend : off + src.length ≤ BSIZE * MAXFILE := by
        rw [Nat.mul_comm]
        omega
      refine (W.writeLoop hsb hi (le_refl _) (by omega) hend).bind fun _ t ⟨Wt, R⟩ => ?_
      have hts : t.ip.size = s.ip.size := by rw [R.fields]
      refine Sat.bind (Q := fun _ t' => Section sb i s t' ∧ Written off src s t') ?_
        fun _ t' h => sat_pure ⟨h.1, rfl, h.2⟩
      unfold growSize
      apply sat_get
      rw [hts]
      by_cases hgrow : 0 < src.length ∧ s.ip.size.toNat < off + src.length
      · -- the file grows
        rw [if_pos hgrow]
        have hnew : (BitVec.ofNat 32 (off + src.length)).toNat = off + src.length := by
          rw [BitVec.toNat_ofNat]
          exact Nat.mod_eq_of_lt (by omega)
        have hn : max (dataBlocks s.ip) (blocksFor (off + src.length)) =
            dataBlocks { t.ip with size := BitVec.ofNat 32 (off + src.length) } := by
          have h3 : dataBlocks { t.ip with size := BitVec.ofNat 32 (off + src.length) } =
              blocksFor (off + src.length) := by
            unfold dataBlocks blocksFor
            rw [hnew]
          rw [h3]
          exact max_eq_right (Nat.div_le_div_right (by omega))
        have Wt' : Work sb (dinode sb s.disk) i s _ nothing
            { t with ip := { t.ip with size := BitVec.ofNat 32 (off + src.length) } } :=
          Wt.fields rfl Wt.type
        have hsec := Wt'.iupdate hsb hi hn
        have hbyte : ∀ x, x / BSIZE < max (dataBlocks s.ip) (blocksFor (off + src.length)) →
            fileByte (putDinode sb t.disk i
              { t.ip with size := BitVec.ofNat 32 (off + src.length) })
              { t.ip with size := BitVec.ofNat 32 (off + src.length) } x =
              fileByte t.disk t.ip x := fun x hx => Wt.fileByte_putDinode hsb hi rfl hx
        apply sat_modify
        refine sat_modify_end ⟨hsec, hle, by rw [R.fields], ?_, fun k hk => ?_, fun x hx ho => ?_⟩
        · dsimp only
          rw [hnew]
          omega
        · have hlt : (off + k) / BSIZE < blocksFor (off + src.length) := lt_blocksFor (by omega)
          exact (hbyte _ (lt_of_lt_of_le hlt (le_max_right _ _))).trans (R.inside k hk)
        · have hlt : x / BSIZE < dataBlocks s.ip := lt_blocksFor hx
          exact (hbyte _ (lt_of_lt_of_le hlt (le_max_left _ _))).trans (R.outside x (by omega) ho)
      · rw [if_neg hgrow]
        have hle' : off + src.length ≤ s.ip.size.toNat := by omega
        have htip : t.ip = s.ip := R.same (by omega)
        have hn : max (dataBlocks s.ip) (blocksFor (off + src.length)) = dataBlocks t.ip := by
          rw [htip]
          exact max_eq_left (Nat.div_le_div_right (by omega))
        refine sat_pure ⟨Wt.unchanged hsb hi hn (by rw [htip, hip]), hle, by rw [htip], ?_,
          R.inside, fun x hx ho => R.outside x (by omega) ho⟩
        rw [htip]
        omega

/-! ## Entries -/

/-- From `s` to `s'` entry `e` of the directory has become `de`. -/
structure EntrySet (e : Nat) (de : Dirent) (s s' : InodeSt) : Prop where
  start : e ≤ entries s.ip
  fields : s'.ip = { s.ip with addrs := s'.ip.addrs, size := s'.ip.size }
  size : s'.ip.size.toNat = max s.ip.size.toNat (16 * e + 16)
  entry : dirent s'.disk s'.ip e = de
  others : ∀ k < entries s.ip, k ≠ e → dirent s'.disk s'.ip k = dirent s.disk s.ip k

theorem EntrySet.entries {e : Nat} {de : Dirent} (h : EntrySet e de s s') :
    entries s'.ip = max (entries s.ip) (e + 1) := by
  have := h.size
  unfold Fs.entries
  omega

@[simp] theorem Dirent.size_codec : Dirent.codec.size = 16 := rfl

theorem Written.entrySet {e : Nat} {de : Dirent}
    (h : Written (16 * e) (Dirent.codec.enc de) s s') : EntrySet e de s s' := by
  have hlen : (Dirent.codec.enc de).length = 16 := Dirent.codec.length_enc de
  have hstart := h.start
  refine ⟨by unfold Fs.entries; omega, h.fields, by rw [h.size, hlen], ?_,
    fun k hk hne => dirent_congr fun x hx => ?_⟩
  · have hb : fileBytes s'.disk s'.ip (16 * e) 16 = Dirent.codec.enc de := by
      refine List.ext_getElem (by simp) fun k h1 h2 => ?_
      rw [← h.inside k h2]
      simp [fileBytes]
    unfold dirent
    rw [hb, Dirent.codec.dec_enc]
  · unfold Fs.entries at hk
    exact h.outside _ (by omega) (by rw [hlen]; omega)

theorem EntrySet.cases {e : Nat} {de : Dirent} (h : EntrySet e de s s')
    (hk : k < Fs.entries s'.ip) :
    dirent s'.disk s'.ip k = de ∨
      k < Fs.entries s.ip ∧ dirent s'.disk s'.ip k = dirent s.disk s.ip k := by
  by_cases hke : k = e
  · rw [hke]
    exact .inl h.entry
  · have h1 := h.start
    rw [h.entries] at hk
    have hk' : k < Fs.entries s.ip := by omega
    exact .inr ⟨hk', h.others k hk' hke⟩

theorem Owner.dirent_fields {ip : Dinode} (hsb : sb.Ok) (h : Owner sb s.disk)
    (hi : i < sb.ninodes.toNat) (hip : dinode sb s.disk i = s.ip) (ht : s.ip.type ≠ 0)
    (ha : ip.addrs = s.ip.addrs) (hk : k < entries s.ip) :
    dirent (putDinode sb s.disk i ip) ip k = dirent s.disk s.ip k := by
  apply dirent_congr
  intro x hx
  unfold Fs.entries at hk
  exact (h.work hip ht).fileByte_putDinode hsb hi ha (lt_blocksFor (by omega))

/-- What looking up a name answers: the number and the offset of an entry, or none. -/
def Looked (d : Disk) (ip : Dinode) (name : Name) : Option (Nat × Nat) → Prop
  | some (inum, off) => ∃ e < entries ip, off = 16 * e ∧ inum = (dirent d ip e).inum.toNat ∧
      inum ≠ 0 ∧ (dirent d ip e).name.text = name.text
  | none => ∀ e < entries ip, (dirent d ip e).inum = 0 ∨ (dirent d ip e).name.text ≠ name.text

section

variable (hsb : sb.Ok) (hi : i < sb.ninodes.toNat) (h : Owner sb s.disk)
  (hip : dinode sb s.disk i = s.ip)

include hsb hi h hip

theorem scan_spec (ht : s.ip.type ≠ 0) {msg : String} (hmsg : Fine msg) (want : Dirent → Bool) :
    Sat (scan sb msg want (entriesOf s.ip) k) s (fun r s' => s' = s ∧
      Found s.disk s.ip want k r ∧
      (r = none → s.ip.size.toNat ≤ 16 * k ∨ s.ip.size.toNat % 16 = 0)) Fine := by
  refine (h.work hip ht).scan hsb hi hmsg ?_
  unfold entriesOf
  omega

theorem lookup_spec (name : Name) :
    Sat (lookup sb name) s (fun r s' => s' = s ∧ s.ip.type = T_DIR ∧ Looked s.disk s.ip name r)
      Fine := by
  unfold lookup
  apply sat_get
  by_cases ht : s.ip.type = T_DIR
  · rw [if_neg (not_not.2 ht)]
    have ht0 : s.ip.type ≠ 0 := by
      rw [ht]
      decide
    refine (scan_spec hsb hi h hip ht0 (by simp [Fine]) _).bind fun r s' ⟨hs, hf, _⟩ => ?_
    refine sat_pure ⟨hs, ht, ?_⟩
    cases r with
    | none =>
      intro e he
      have := hf e (Nat.zero_le _) he
      simp only [namecmp, Bool.and_eq_false_iff, decide_eq_false_iff_not, ne_eq, not_not] at this
      exact this.imp id fun h he => h he.symm
    | some q =>
      obtain ⟨e, -, he, hoff, hde, hw, -⟩ := hf
      simp only [namecmp, Bool.and_eq_true, decide_eq_true_eq] at hw
      refine ⟨e, he, hoff, by rw [← hde], fun h0 => hw.1 (BitVec.eq_of_toNat_eq h0), ?_⟩
      rw [← hde, hw.2]
  · rw [if_pos ht]
    exact (by decide : "dirlookup not DIR" ≠ "freeing free block")

theorem isdirempty_spec (ht : s.ip.type ≠ 0) :
    Sat (isdirempty sb) s (fun r s' => s' = s ∧ (r = true →
      ∀ e, 2 ≤ e → e < entries s.ip → (dirent s.disk s.ip e).inum = 0)) Fine := by
  unfold isdirempty
  apply sat_get
  refine (scan_spec hsb hi h hip ht (by simp [Fine]) _).bind fun r s' ⟨hs, hf, _⟩ => ?_
  refine sat_pure ⟨hs, fun hr e h2 he => ?_⟩
  cases r with
  | none =>
    have := hf e h2 he
    simpa using this
  | some q => cases hr

theorem addEntry_spec (ht : s.ip.type ≠ 0) (name : Name) (inum : Nat) :
    Sat (addEntry sb i name inum) s (fun _ s' => Section sb i s s' ∧ ∃ e, e ≤ entries s.ip ∧
      (e < entries s.ip → (dirent s.disk s.ip e).inum = 0) ∧
      (e = entries s.ip → ∀ k < entries s.ip, (dirent s.disk s.ip k).inum ≠ 0) ∧
      EntrySet e ⟨BitVec.ofNat 16 inum, name⟩ s s') Fine := by
  unfold addEntry
  apply sat_get
  refine (scan_spec hsb hi h hip ht (by simp [Fine]) _).bind ?_
  rintro r s' ⟨rfl, hf, hr⟩
  -- the place: a free entry, or the end of the directory
  obtain ⟨e, he, hfree, hfull, hoff⟩ : ∃ e, e ≤ entries s'.ip ∧
      (e < entries s'.ip → (dirent s'.disk s'.ip e).inum = 0) ∧
      (e = entries s'.ip → ∀ k < entries s'.ip, (dirent s'.disk s'.ip k).inum ≠ 0) ∧
      freePlace s'.ip r = 16 * e := by
    cases r with
    | none =>
      refine ⟨entries s'.ip, le_refl _, fun h => absurd h (lt_irrefl _), fun _ k hk => ?_, ?_⟩
      · simpa using hf k (Nat.zero_le _) hk
      · have := hr rfl
        simp only [entries, freePlace]
        omega
    | some q =>
      obtain ⟨e, -, he, hoff, hde, hw, -⟩ := hf
      refine ⟨e, he.le, fun _ => ?_, fun h => absurd he (by omega), hoff⟩
      rw [← hde]
      simpa using hw
  rw [hoff]
  refine (writei_spec hsb hi h hip ht).bind ?_
  rintro r' t ⟨hsec, hres⟩
  cases r' with
  | none => exact (by decide : "dirlink" ≠ "freeing free block")
  | some m => exact sat_pure ⟨hsec, e, he, hfree, hfull, hres.2.entrySet⟩

def Dirent.zero : Dirent := ⟨0, ⟨List.replicate DIRSIZ 0, rfl⟩⟩

theorem eraseEntry_spec (ht : s.ip.type ≠ 0) (e : Nat) :
    Sat (eraseEntry sb i (16 * e)) s (fun _ s' => Section sb i s s' ∧
      EntrySet e Dirent.zero s s') Fine := by
  unfold eraseEntry
  have hz : List.replicate 16 0 = Dirent.codec.enc Dirent.zero := rfl
  rw [hz]
  refine (writei_spec hsb hi h hip ht).bind fun r t ⟨hsec, hres⟩ => ?_
  cases r with
  | none => exact (by decide : "unlink: writei" ≠ "freeing free block")
  | some m => exact sat_pure ⟨hsec, hres.2.entrySet⟩

/-! ## Freeing an inode -/

theorem ifree_spec (ht : s.ip.type ≠ 0) (hread : readsb s.disk = sb) :
    Sat (ifree sb i) s (fun _ s' => (Section sb i s s' ∧ s'.ip.type = 0) ∧
      ∃ l, s'.logged = l ++ s.logged ∧
        ∀ b ∈ l, b = IBLOCK i sb ∨ ∃ c < sb.size.toNat, b = BBLOCK c sb) fun _ => False := by
  unfold ifree
  refine ((h.work hip ht).itrunc hsb hread hi).bind fun _ t ⟨hip', ⟨d, hd, W⟩, l, hl, hin⟩ => ?_
  have hsize : t.ip.size = 0 := by rw [hip']
  have hn : 0 = dataBlocks t.ip := by
    unfold dataBlocks
    rw [hsize]
    rfl
  have hsec : Section sb i s t := by
    have := (W.iupdate hsb hi hn).relog t.logged
    rwa [← hd] at this
  apply sat_modify
  refine sat_modify_end ⟨⟨hsec.trans ?_, rfl⟩, IBLOCK i sb :: IBLOCK i sb :: l, by rw [hl]; rfl, ?_⟩
  · refine Owner.blank _ hsb hsec.own hi (.inr ?_) (.inl rfl)
    rw [hsec.inode, hip']
    exact ⟨rfl, rfl⟩
  · intro b hb
    rcases List.mem_cons.1 hb with rfl | hb
    · exact .inl rfl
    rcases List.mem_cons.1 hb with rfl | hb
    · exact .inl rfl
    · exact .inr (hin b hb)

end

end Xv6.Fs
