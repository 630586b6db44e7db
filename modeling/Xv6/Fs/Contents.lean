import Xv6.Fs.Alloc

/-!
# Reading and writing the contents of an inode

The bytes of a file lie in its blocks one after the other. On an inode without holes `readi`
reads them and changes nothing, and `writei` replaces a range of them, growing the file if the
range ends behind it. A directory is read and written by entries of 16 bytes.
-/

namespace Xv6.Fs

open Lib
open Function (comp_apply update update_of_ne update_self)

variable {sb : Superblock} {d d' : Disk} {D : Nat → Dinode} {E : Nat → Prop}
  {i j b k n m off x : Nat} {ip : Dinode} {s0 s : InodeSt}

/-! ## The bytes of a file -/

/-- The disk block of block `k` of a file. -/
def fileBlock (d : Disk) (ip : Dinode) (k : Nat) : Nat := blockAt d ip (filePos k)

/-- Byte `x` of a file. -/
def fileByte (d : Disk) (ip : Dinode) (x : Nat) : UInt8 :=
  (d (fileBlock d ip (x / BSIZE))).get (x % BSIZE)

/-- The `n` bytes of a file from `off` on. -/
def fileBytes (d : Disk) (ip : Dinode) (off n : Nat) : List UInt8 :=
  (List.range n).map fun x => fileByte d ip (off + x)

/-- Entry `k` of a directory. -/
def dirent (d : Disk) (ip : Dinode) (k : Nat) : Dirent :=
  Dirent.codec.dec (fileBytes d ip (16 * k) 16)

@[simp] theorem length_fileBytes : (fileBytes d ip off n).length = n := by
  simp [fileBytes]

theorem BSIZE_pos : 0 < BSIZE := by decide

theorem fileBytes_add : fileBytes d ip off (m + n) =
    fileBytes d ip off m ++ fileBytes d ip (off + m) n := by
  unfold fileBytes
  rw [List.range_add, List.map_append, List.map_map]
  congr 1
  apply List.map_congr_left
  intro x _
  simp only [comp_apply, Nat.add_assoc]

theorem div_mod_add (h : off % BSIZE + x < BSIZE) :
    (off + x) / BSIZE = off / BSIZE ∧ (off + x) % BSIZE = off % BSIZE + x := by
  have hdm := Nat.div_add_mod off BSIZE
  have hq : (off + x) / BSIZE = off / BSIZE := by
    apply Nat.div_eq_of_lt_le
    · rw [Nat.mul_comm]
      omega
    · rw [Nat.succ_mul, Nat.mul_comm]
      omega
  have := Nat.div_add_mod (off + x) BSIZE
  rw [hq] at this
  exact ⟨hq, by omega⟩

theorem fileBytes_slice (h : off % BSIZE + m ≤ BSIZE) :
    fileBytes d ip off m = (d (fileBlock d ip (off / BSIZE))).slice (off % BSIZE) m := by
  unfold fileBytes Bytes.slice
  apply List.map_congr_left
  intro x hx
  have hx' := List.mem_range.1 hx
  obtain ⟨hq, hr⟩ := div_mod_add (show off % BSIZE + x < BSIZE by omega)
  unfold fileByte
  rw [hq, hr]

/-! ## Reading -/

theorem Work.readLoop (hsb : sb.Ok) (W : Work sb D i s0 n nothing s) (hi : i < sb.ninodes.toNat)
    {passes : Nat} (hp : m ≤ passes) (hoff : off + m ≤ BSIZE * n) :
    Sat (readLoop sb passes off m) s (fun l s' => s' = s ∧ l = fileBytes s.disk s.ip off m)
      Fine := by
  induction passes generalizing off m with
  | zero =>
    obtain rfl : m = 0 := by omega
    exact sat_pure ⟨rfl, rfl⟩
  | succ passes ih =>
    unfold Fs.readLoop
    by_cases h0 : m = 0
    · subst h0
      exact sat_pure ⟨rfl, rfl⟩
    · rw [if_neg h0]
      have hb := BSIZE_pos
      have hmod := Nat.mod_lt off hb
      have hk : off / BSIZE < n := Nat.div_lt_of_lt_mul (by omega)
      have hmax := W.nb_le hi
      refine (W.bmap hsb hi hk.le (by omega)).bind fun b s' ⟨_, _, hblk, hsame⟩ => ?_
      obtain rfl := hsame hk
      apply sat_get
      have hle : min m (BSIZE - off % BSIZE) ≤ m := min_le_left _ _
      have hle' : min m (BSIZE - off % BSIZE) ≤ BSIZE - off % BSIZE := min_le_right _ _
      have hpos : 0 < min m (BSIZE - off % BSIZE) := by omega
      refine (ih (by omega) (by omega)).bind fun l s'' ⟨hs, hl⟩ => ?_
      refine sat_pure ⟨hs, ?_⟩
      have hsplit : m = min m (BSIZE - off % BSIZE) + (m - min m (BSIZE - off % BSIZE)) := by
        omega
      have hfirst : fileBytes s'.disk s'.ip off (min m (BSIZE - off % BSIZE)) =
          (s'.disk b).slice (off % BSIZE) (min m (BSIZE - off % BSIZE)) := by
        rw [hblk]
        exact fileBytes_slice (by omega)
      conv_rhs => rw [hsplit]
      rw [fileBytes_add, hfirst, hl]

theorem size_le_dataBlocks (ip : Dinode) : ip.size.toNat ≤ BSIZE * dataBlocks ip := by
  have h := Nat.div_add_mod (ip.size.toNat + (BSIZE - 1)) BSIZE
  have hm := Nat.mod_lt (ip.size.toNat + (BSIZE - 1)) BSIZE_pos
  unfold dataBlocks
  omega

theorem Work.size_le (W : Work sb D i s0 (dataBlocks s.ip) E s) (hi : i < sb.ninodes.toNat) :
    s.ip.size.toNat ≤ BSIZE * MAXFILE :=
  le_trans (size_le_dataBlocks _) (Nat.mul_le_mul_left _ (W.nb_le hi))

section

variable (hsb : sb.Ok) (W : Work sb D i s0 (dataBlocks s.ip) nothing s) (hi : i < sb.ninodes.toNat)

include hsb W hi

theorem Work.readi : Sat (readi sb off n) s (fun r s' => s' = s ∧ ∀ l, r = some l →
      off ≤ s.ip.size.toNat ∧ l = fileBytes s.disk s.ip off (min n (s.ip.size.toNat - off)))
      Fine := by
  unfold Fs.readi
  apply sat_get
  by_cases hbad : s.ip.size.toNat < off ∨ (off + n) % 2 ^ 32 < off
  · rw [if_pos hbad]
    exact sat_pure ⟨rfl, nofun⟩
  · rw [if_neg hbad]
    have hle := size_le_dataBlocks s.ip
    have hmin : (if s.ip.size.toNat < off + n then s.ip.size.toNat - off else n) =
        min n (s.ip.size.toNat - off) := by
      split <;> omega
    rw [hmin]
    have hm : min n (s.ip.size.toNat - off) ≤ s.ip.size.toNat - off := min_le_right _ _
    refine (W.readLoop hsb hi (le_refl _) (by omega)).bind fun l s' ⟨hs, hl⟩ => ?_
    refine sat_pure ⟨hs, fun l' hl' => ?_⟩
    cases hl'
    exact ⟨by omega, hl⟩

/-! ## Directory entries -/

def entries (ip : Dinode) : Nat := ip.size.toNat / 16

theorem Work.readDirent {msg : String} (hmsg : Fine msg) :
    Sat (readDirent sb (16 * k) msg) s (fun de s' => s' = s ∧ k < entries s.ip ∧
      de = dirent s.disk s.ip k) Fine := by
  unfold Fs.readDirent
  refine (W.readi hsb hi).bind fun r s' ⟨hs, hr⟩ => ?_
  subst hs
  cases r with
  | none => exact hmsg
  | some l =>
    obtain ⟨hle, hl⟩ := hr l rfl
    dsimp only
    by_cases h16 : l.length = 16
    · rw [if_pos h16]
      rw [hl, length_fileBytes] at h16
      refine sat_pure ⟨rfl, ?_, ?_⟩
      · unfold entries
        omega
      · unfold dirent
        rw [hl, h16]
    · rw [if_neg h16]
      exact hmsg

/-- What a loop over the entries finds: the first entry that is wanted, or none. -/
def Found (d : Disk) (ip : Dinode) (want : Dirent → Bool) (k : Nat) :
    Option (Nat × Dirent) → Prop
  | some (off, de) => ∃ e, k ≤ e ∧ e < entries ip ∧ off = 16 * e ∧ de = dirent d ip e ∧
      want de = true ∧ ∀ j, k ≤ j → j < e → want (dirent d ip j) = false
  | none => ∀ j, k ≤ j → j < entries ip → want (dirent d ip j) = false

theorem Work.scan {msg : String} (hmsg : Fine msg) {want : Dirent → Bool}
    (hm : s.ip.size.toNat ≤ 16 * (k + m)) :
    Sat (scan sb msg want m k) s (fun r s' => s' = s ∧ Found s.disk s.ip want k r ∧
      (r = none → s.ip.size.toNat ≤ 16 * k ∨ s.ip.size.toNat % 16 = 0)) Fine := by
  induction m generalizing k with
  | zero =>
    refine sat_pure ⟨rfl, fun j hj hlt => ?_, fun _ => .inl (by omega)⟩
    unfold entries at hlt
    omega
  | succ m ih =>
    unfold Fs.scan
    apply sat_get
    by_cases hlt : 16 * k < s.ip.size.toNat
    · rw [if_pos hlt]
      refine (W.readDirent hsb hi hmsg).bind fun de s' ⟨hs, hk, hde⟩ => ?_
      subst hs
      by_cases hw : want de = true
      · rw [if_pos hw]
        exact sat_pure ⟨rfl, ⟨k, le_refl _, hk, rfl, hde, hw, fun j h1 h2 => by omega⟩, nofun⟩
      · rw [if_neg hw]
        have hw' : want (dirent s'.disk s'.ip k) = false := by simpa [hde] using hw
        refine (ih (k := k + 1) (by omega)).mono fun r s'' ⟨hs, hf, hr⟩ => ⟨hs, ?_, ?_⟩
        · cases r with
          | none =>
            intro j h1 h2
            by_cases hjk : j = k
            · rw [hjk, hw']
            · exact hf j (by omega) h2
          | some q =>
            obtain ⟨e, h1, h2, h3, h4, h5, h6⟩ := hf
            refine ⟨e, by omega, h2, h3, h4, h5, fun j hj hje => ?_⟩
            by_cases hjk : j = k
            · rw [hjk, hw']
            · exact h6 j (by omega) hje
        · intro hnone
          rcases hr hnone with h | h
          · unfold entries at hk
            exact .inr (by omega)
          · exact .inr h
    · rw [if_neg hlt]
      refine sat_pure ⟨rfl, fun j hj hje => ?_, fun _ => .inl (by omega)⟩
      unfold entries at hje
      omega

end

/-! ## Writing -/

theorem Work.write (hsb : sb.Ok) (W : Work sb D i s0 n nothing s) (hi : i < sb.ninodes.toNat)
    (hk : k < n) (v : Block) :
    Work sb D i s0 n nothing
      { s with disk := update s.disk (fileBlock s.disk s.ip k) v } ∧
    ∀ p, blockAt (update s.disk (fileBlock s.disk s.ip k) v) s.ip p =
      blockAt s.disk s.ip p := by
  have hm : k < MAXFILE := lt_of_lt_of_le hk (W.nb_le hi)
  have hA := W.allocated hi
  have h0 : fileBlock s.disk s.ip k ≠ 0 := (W.exact hi k hm).2 hk
  have hr := W.range (filePos k) hi (filePos_lt hm) h0
  -- the block is no indirect block
  have hall : ∀ j, Allocated sb (update D i s.ip) j → ∀ p,
      blockAt (update s.disk (fileBlock s.disk s.ip k) v)
        (update D i s.ip j) p = blockAt s.disk (update D i s.ip j) p := by
    intro j hj p
    apply W.own.blockAt_eq hj
    intro c hc _ he
    apply update_of_ne
    rintro rfl
    rw [refs_of hj (by decide)] at he
    have := W.own.inj hj hA (show NDIRECT < NPOS by decide) (filePos_lt hm)
      (by rw [he, update_self]; rfl) (by rw [he]; exact h0)
    exact filePos_ne this.2.symm
  refine ⟨W.step W.type (W.own.disk (W.own.owned.congr (fun _ => rfl) (fun _ => Iff.rfl)
    fun c hc => ?_) fun j hj p _ => hall j hj p) (fun c => ?_) (fun g hg => .inl hg), fun p => ?_⟩
  · apply bit_congr
    have := hsb.bitmap c hc
    exact update_of_ne (by unfold fileBlock; omega) _ _
  · by_cases hc : c = fileBlock s.disk s.ip k
    · subst hc
      refine .inr ⟨?_, fun j hj p hne => W.mine (filePos k) hi (filePos_lt hm) hj hne⟩
      have := hsb.bitmap _ hr.2
      have := le_BBLOCK sb (blockAt s.disk s.ip (filePos k))
      unfold fileBlock
      omega
    · exact .inl (update_of_ne hc _ _)
  · have := hall i hA p
    rwa [update_self] at this

theorem Work.fileByte_write (hsb : sb.Ok) (W : Work sb D i s0 n nothing s)
    (hi : i < sb.ninodes.toNat) (hk : k < n) (v : Block) (hx : x / BSIZE < n) :
    fileByte (update s.disk (fileBlock s.disk s.ip k) v) s.ip x =
      if x / BSIZE = k then v.get (x % BSIZE) else fileByte s.disk s.ip x := by
  have hm : k < MAXFILE := lt_of_lt_of_le hk (W.nb_le hi)
  have hmx : x / BSIZE < MAXFILE := lt_of_lt_of_le hx (W.nb_le hi)
  unfold fileByte
  have hblk : fileBlock (update s.disk (fileBlock s.disk s.ip k) v) s.ip (x / BSIZE) =
      fileBlock s.disk s.ip (x / BSIZE) := (W.write hsb hi hk v).2 _
  rw [hblk]
  split
  · next h => rw [h, update_self]
  · next h =>
    rw [update_of_ne]
    intro he
    have hA := W.allocated hi
    have := (W.own.inj hA hA (filePos_lt hmx) (filePos_lt hm) (by rwa [update_self])
      (by rw [update_self]; exact (W.exact hi _ hmx).2 hx)).2
    exact h (filePos_inj this)

/-- From `s` to `s'` the bytes `src` have been written at `off` into a file of `n` blocks. -/
structure Wrote (n off : Nat) (src : List UInt8) (s s' : InodeSt) : Prop where
  fields : s'.ip = { s.ip with addrs := s'.ip.addrs }
  inside : ∀ k (hk : k < src.length), fileByte s'.disk s'.ip (off + k) = src[k]
  outside : ∀ x, x < BSIZE * n → x < off ∨ off + src.length ≤ x →
    fileByte s'.disk s'.ip x = fileByte s.disk s.ip x
  same : off + src.length ≤ BSIZE * n → s'.ip = s.ip

theorem Grown.fileByte {s' : InodeSt} (h : Grown n s s') (hx : x / BSIZE < n) :
    fileByte s'.disk s'.ip x = fileByte s.disk s.ip x := by
  obtain ⟨h1, h2⟩ := h.kept _ hx
  unfold Fs.fileByte fileBlock
  rw [h1, h2]

/-- The number of blocks that hold `x` bytes. -/
def blocksFor (x : Nat) : Nat := (x + (BSIZE - 1)) / BSIZE

theorem blocksFor_le (h : x ≤ BSIZE * n) : blocksFor x ≤ n := by
  unfold blocksFor
  have := BSIZE_pos
  exact Nat.le_of_lt_succ (Nat.div_lt_of_lt_mul (by rw [Nat.mul_succ]; omega))

theorem lt_blocksFor (h : k < x) : k / BSIZE < blocksFor x := by
  have hb := BSIZE_pos
  have h1 := Nat.div_add_mod k BSIZE
  have h2 := Nat.mod_lt k hb
  unfold blocksFor
  rw [Nat.lt_iff_add_one_le, Nat.le_div_iff_mul_le hb, Nat.add_mul, Nat.mul_comm]
  omega

/-- The block in which a write begins. -/
theorem first_block {len : Nat} (hoff : off ≤ BSIZE * n) (h0 : len ≠ 0)
    (hend : off + len ≤ BSIZE * MAXFILE) : 0 < BSIZE ∧
    BSIZE * (off / BSIZE) + off % BSIZE = off ∧ off % BSIZE < BSIZE ∧ off / BSIZE ≤ n ∧
    off / BSIZE < MAXFILE ∧ off / BSIZE < max n (off / BSIZE + 1) ∧
    BSIZE * (off / BSIZE) + BSIZE ≤ BSIZE * max n (off / BSIZE + 1) :=
  ⟨BSIZE_pos, Nat.div_add_mod off BSIZE, Nat.mod_lt off BSIZE_pos, Nat.div_le_of_le_mul hoff,
    Nat.div_lt_of_lt_mul (by omega), by omega,
    (Nat.mul_succ BSIZE _).symm.le.trans (Nat.mul_le_mul_left BSIZE (le_max_right n _))⟩

theorem Work.writeLoop (hsb : sb.Ok) (hi : i < sb.ninodes.toNat) {passes : Nat} {src : List UInt8}
    (W : Work sb D i s0 n nothing s) (hp : src.length ≤ passes) (hoff : off ≤ BSIZE * n)
    (hend : off + src.length ≤ BSIZE * MAXFILE) :
    Sat (writeLoop sb passes off src) s (fun _ s' =>
      Work sb D i s0 (max n (blocksFor (off + src.length))) nothing s' ∧ Wrote n off src s s')
      Fine := by
  induction passes generalizing off src n s with
  | zero =>
    have h0 : src = [] := List.eq_nil_of_length_eq_zero (by omega)
    subst h0
    refine sat_pure ⟨?_, rfl, fun k hk => absurd hk (by simp), fun _ _ _ => rfl, fun _ => rfl⟩
    rwa [max_eq_left (blocksFor_le (by simpa using hoff))]
  | succ passes ih =>
    unfold Fs.writeLoop
    by_cases h0 : src.length = 0
    · obtain rfl := List.eq_nil_of_length_eq_zero h0
      refine sat_pure ⟨?_, rfl, fun k hk => absurd hk (by simp), fun _ _ _ => rfl, fun _ => rfl⟩
      rwa [max_eq_left (blocksFor_le (by simpa using hoff))]
    · rw [if_neg h0]
      obtain ⟨hb, hdm, hmod, hkn, hkm, hk1, hnext⟩ := first_block hoff h0 hend
      refine (W.bmap hsb hi hkn hkm).bind fun b s1 ⟨W1, hG, hblk, hsame⟩ => ?_
      apply sat_modify
      -- one block, from `off` to its end or to the end of the bytes
      obtain ⟨m, hm⟩ : ∃ m, m = min src.length (BSIZE - off % BSIZE) := ⟨_, rfl⟩
      rw [← hm]
      have hm1 : m ≤ src.length := hm ▸ min_le_left _ _
      have hm2 : m ≤ BSIZE - off % BSIZE := hm ▸ min_le_right _ _
      have hm3 : 0 < m := by omega
      have hlen : (src.drop m).length = src.length - m := List.length_drop
      have hb' : b = fileBlock s1.disk s1.ip (off / BSIZE) := hblk
      rw [hb']
      obtain ⟨v, hv⟩ : ∃ v, v = (s1.disk (fileBlock s1.disk s1.ip (off / BSIZE))).splice
        (off % BSIZE) (src.take m) := ⟨_, rfl⟩
      rw [← hv]
      have W2 := (W1.write hsb hi hk1 v).1.relog
        (fileBlock s1.disk s1.ip (off / BSIZE) :: s1.logged)
      have hbyte : ∀ {x}, x / BSIZE < max n (off / BSIZE + 1) →
          fileByte (update s1.disk (fileBlock s1.disk s1.ip (off / BSIZE)) v) s1.ip x =
            if x / BSIZE = off / BSIZE then v.get (x % BSIZE) else fileByte s1.disk s1.ip x :=
        fun hx => W1.fileByte_write hsb hi hk1 v hx
      refine (ih W2 (by omega) (by omega) (by omega)).mono fun _ s' ⟨W', R⟩ => ⟨?_, ?_⟩
      · have hmax : max (max n (off / BSIZE + 1)) (blocksFor (off + m + (src.drop m).length)) =
            max n (blocksFor (off + src.length)) := by
          rw [hlen, show off + m + (src.length - m) = off + src.length by omega]
          have : off / BSIZE < blocksFor (off + src.length) := lt_blocksFor (by omega)
          omega
        rwa [hmax] at W'
      · refine ⟨by rw [R.fields, hG.fields], fun k hk => ?_, fun x hx ho => ?_, fun hle => ?_⟩
        · by_cases hkm' : k < m
          · -- written in this pass, and left alone by the later ones
            obtain ⟨hq, hr⟩ := div_mod_add (show off % BSIZE + k < BSIZE by omega)
            have htl : (src.take m).length = m := by simp [hm1]
            rw [R.outside (off + k) (by omega) (.inl (by omega)), hbyte (by omega), if_pos hq, hr,
              hv, Bytes.get_splice_of_mem _ (by omega) (by omega) (by omega)]
            simp
          · have := R.inside (k - m) (by omega)
            rw [show off + m + (k - m) = off + k by omega] at this
            rw [this, List.getElem_drop]
            congr 1
            omega
        · have hxn : x / BSIZE < n := Nat.div_lt_of_lt_mul hx
          have hle : BSIZE * n ≤ BSIZE * max n (off / BSIZE + 1) :=
            Nat.mul_le_mul_left _ (le_max_left _ _)
          rw [R.outside x (by omega) (by omega), hbyte (by omega)]
          split
          · next hq =>
            have hdx := Nat.div_add_mod x BSIZE
            rw [hq] at hdx
            have htl : (src.take m).length = m := by simp [hm1]
            rw [hv, Bytes.get_splice_of_not_mem _ (by omega), ← hG.fileByte hxn]
            unfold fileByte
            rw [hq]
          · exact hG.fileByte hxn
        · have hlt : off / BSIZE < n := Nat.div_lt_of_lt_mul (by omega)
          obtain rfl := hsame hlt
          apply R.same
          rw [max_eq_left (by omega), hlen]
          omega

end Xv6.Fs
