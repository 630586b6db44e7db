import Mathlib.Order.Interval.Finset.Nat
import Mathlib.Tactic.IntervalCases
import Xv6.Fs.Directory

/-!
# Files as byte arrays

`readi` and `writei` on a file whose contents are the bytes that its block map denotes: reading
gives a part of them and changes nothing, and writing replaces or appends bytes, and changes no
other file. `writei` may need blocks. It takes exactly as many from the free map as the file lacks,
and panics if there are not so many.
-/

namespace Xv6.Fs

open Lib

variable {sb : Superblock} {d : Disk} {D : Nat → Dinode} {i k n m off b L : Nat} {ip : Dinode}
  {s0 s s' : InodeSt} {src : List UInt8}

def contents (d : Disk) (ip : Dinode) : List UInt8 := fileBytes d ip 0 ip.size.toNat

/-! ## Free blocks -/

def room (sb : Superblock) (d : Disk) : Nat :=
  ((Finset.range sb.size.toNat).filter fun b => bit sb d b = false).card

/-- The blocks that a file of `n` blocks lacks to have `L`, with the indirect block. -/
def lacks (L n : Nat) (ip : Dinode) : Nat :=
  (L - n) + if NDIRECT < L ∧ ip.addr NDIRECT = 0 then 1 else 0

theorem lacks_of_ne (h : ip.addr NDIRECT ≠ 0) : lacks L n ip = L - n := by
  unfold lacks
  rw [if_neg fun hc => h hc.2, Nat.add_zero]

/-- The panic of `balloc`, with fewer than `c` blocks free. -/
def OutOf (sb : Superblock) (d : Disk) (c : Nat) (msg : String) : Prop :=
  msg = "balloc: out of blocks" ∧ room sb d < c

theorem room_congr {d' : Disk} (h : ∀ c < sb.size.toNat, bit sb d' c = bit sb d c) :
    room sb d' = room sb d := by
  unfold room
  congr 1
  exact Finset.filter_congr fun c hc => by rw [h c (Finset.mem_range.1 hc)]

theorem room_update (hsb : sb.Ok) (hb : sb.firstData ≤ b) (v : Block) :
    room sb (Function.update d b v) = room sb d := by
  refine room_congr fun c hc => bit_congr ?_
  have := hsb.bitmap c hc
  exact Function.update_of_ne (by omega) _ _

theorem firstFree_none (h : firstFree sb d = none) : room sb d = 0 := by
  unfold firstFree at h
  unfold room
  rw [Finset.card_eq_zero, Finset.filter_eq_empty_iff]
  intro b hb
  simpa using List.find?_eq_none.1 h b (List.mem_range.2 (Finset.mem_range.1 hb))

theorem Work.balloc_room (hsb : sb.Ok) {E : Nat → Prop} (W : Work sb D i s0 n E s) :
    Sat (Fs.balloc sb) s (fun _ s' => room sb s'.disk + 1 = room sb s.disk ∧ s'.ip = s.ip)
      (OutOf sb s.disk 1) := by
  unfold Sat Fs.balloc
  cases hf : firstFree sb s.disk with
  | none => exact ⟨rfl, by rw [firstFree_none hf]; exact Nat.one_pos⟩
  | some b =>
    obtain ⟨hb, hbit⟩ := firstFree_some hf
    obtain ⟨hlo, -, -⟩ := W.own.owned.unmarked hb hbit
    refine ⟨?_, rfl⟩
    have hset : ((Finset.range sb.size.toNat).filter fun c =>
        bit sb (bzero (putMapBit sb s.disk b true) b) c = false) =
        ((Finset.range sb.size.toNat).filter fun c => bit sb s.disk c = false).erase b := by
      ext c
      simp only [Finset.mem_filter, Finset.mem_range, Finset.mem_erase]
      constructor
      · rintro ⟨hc, h⟩
        rw [bit_bzero hsb hlo hc, bit_putMapBit] at h
        split at h
        · cases h
        · next hne => exact ⟨hne, hc, h⟩
      · rintro ⟨hne, hc, h⟩
        rw [bit_bzero hsb hlo hc, bit_putMapBit, if_neg hne]
        exact ⟨hc, h⟩
    unfold room
    rw [hset]
    exact Finset.card_erase_add_one (Finset.mem_filter.2 ⟨Finset.mem_range.2 hb, hbit⟩)

theorem Work.addrOrAlloc_room (hsb : sb.Ok) (W : Work sb D i s0 n nothing s) (hk : k ≤ NDIRECT) :
    Sat (Fs.addrOrAlloc sb k) s (fun _ s' =>
      room sb s'.disk + (if s.ip.addr k = 0 then 1 else 0) = room sb s.disk ∧
      ∀ k', k' ≠ k → s'.ip.addr k' = s.ip.addr k')
      (fun e => s.ip.addr k = 0 ∧ OutOf sb s.disk 1 e) := by
  unfold Fs.addrOrAlloc
  apply sat_get
  by_cases h0 : s.ip.addr k = 0
  · rw [if_pos h0]
    refine Sat.bind (((W.balloc hsb).and (W.balloc_room hsb)).monoError fun e he => ⟨h0, he.2⟩)
      fun b s1 ⟨T, hroom, hip⟩ => sat_modify (sat_pure ⟨?_, fun k' hk' => ?_⟩)
    · rw [if_pos h0]
      exact hroom
    · rw [addr_setAddr hk (lt_trans T.hi sb.size.isLt), if_neg hk', hip]
  · rw [if_neg h0]
    refine sat_pure ⟨?_, fun _ _ => rfl⟩
    rw [if_neg h0, Nat.add_zero]

theorem Work.bmap_room (hsb : sb.Ok) (W : Work sb D i s0 n nothing s) (hi : i < sb.ninodes.toNat)
    (hkn : k ≤ n) (hk : k < MAXFILE) (hL : k < L) :
    Sat (Fs.bmap sb k) s (fun _ s' =>
      room sb s'.disk + lacks L n s.ip = room sb s.disk + lacks L (max n (k + 1)) s'.ip)
      (OutOf sb s.disk (lacks L n s.ip)) := by
  have hex := W.exact hi k hk
  unfold Fs.bmap
  by_cases hdir : k < NDIRECT
  · have hpos : filePos k = k := if_pos hdir
    rw [hpos, blockAt_of_le (by omega)] at hex
    rw [if_pos hdir]
    have hne : NDIRECT ≠ k := by omega
    have herr : ∀ e, s.ip.addr k = 0 ∧ OutOf sb s.disk 1 e →
        OutOf sb s.disk (lacks L n s.ip) e := by
      intro e ⟨h0, he, hlt⟩
      have hn : ¬ k < n := fun h => hex.2 h h0
      refine ⟨he, lt_of_lt_of_le hlt ?_⟩
      unfold lacks
      omega
    refine ((W.addrOrAlloc_room hsb hdir.le).monoError herr).mono fun b s1 ⟨hroom, haddr⟩ => ?_
    · unfold lacks
      rw [haddr NDIRECT hne]
      split at hroom
      · next h0 =>
        have hn : ¬ k < n := fun h => hex.2 h h0
        omega
      · next h0 =>
        have := hex.1 h0
        rw [max_eq_left (by omega)]
        omega
  · have hpos : filePos k = NDIRECT + 1 + (k - NDIRECT) := by
      unfold filePos
      rw [if_neg hdir]
      omega
    have hind : k - NDIRECT < NINDIRECT := by
      unfold MAXFILE at hk
      omega
    have hLind : NDIRECT < L := by omega
    rw [if_neg hdir, if_pos hind]
    have hlacks : lacks L n s.ip = (L - n) + if s.ip.addr NDIRECT = 0 then 1 else 0 := by
      unfold lacks
      simp only [hLind, true_and]
    have herr : ∀ e, Fine e ∧ s.ip.addr NDIRECT = 0 ∧ OutOf sb s.disk 1 e →
        OutOf sb s.disk (lacks L n s.ip) e := by
      intro e ⟨_, h0, he, hlt⟩
      refine ⟨he, lt_of_lt_of_le hlt ?_⟩
      rw [hlacks, if_pos h0]
      omega
    refine (((W.addrOrAlloc hsb hi n (le_refl _) (fun _ => .inl ⟨rfl, rfl⟩) (fun _ => rfl)).and
      (W.addrOrAlloc_room hsb (le_refl _))).monoError herr).bind
      fun ind s1 ⟨⟨W1, _, hind1, hne, _⟩, hroom, _⟩ => ?_
    subst hind1
    apply sat_get
    have hex1 := W1.exact hi k hk
    rw [hpos, blockAt_entry hne] at hex1
    by_cases h0 : entry (s1.disk (s1.ip.addr NDIRECT)) (k - NDIRECT) = 0
    · rw [if_pos h0]
      have hn : ¬ k < n := fun h => hex1.2 h h0
      have herr1 : ∀ e, OutOf sb s1.disk 1 e → OutOf sb s.disk (lacks L n s.ip) e := by
        intro e ⟨he, hlt⟩
        exact ⟨he, by omega⟩
      refine ((W1.balloc_room hsb).monoError herr1).bind fun b s2 ⟨hroom2, hip2⟩ =>
        sat_modify (sat_pure ?_)
      have hlo : sb.firstData ≤ s1.ip.addr NDIRECT := by
        have := W1.range NDIRECT hi (by decide)
        rw [blockAt_indirect] at this
        exact (this hne).1
      dsimp only
      rw [room_update hsb hlo, hlacks, hip2, lacks_of_ne hne]
      omega
    · rw [if_neg h0]
      have := hex1.1 h0
      refine sat_pure ?_
      rw [max_eq_left (by omega), hlacks, lacks_of_ne hne]
      omega

theorem Work.indirect (W : Work sb D i s0 n nothing s) (hi : i < sb.ninodes.toNat) (hkn : k < n)
    (hk : k < MAXFILE) (hdir : NDIRECT ≤ k) : s.ip.addr NDIRECT ≠ 0 := by
  intro h0
  apply (W.exact hi k hk).2 hkn
  have hpos : filePos k = k + 1 := if_neg (by omega)
  unfold blockAt
  rw [hpos, if_neg (by omega), if_pos h0]

theorem Work.lacks_zero (W : Work sb D i s0 n nothing s) (hi : i < sb.ninodes.toNat) (hL : L ≤ n) :
    lacks L n s.ip = 0 := by
  unfold lacks
  have hdir : NDIRECT < MAXFILE := by decide
  rw [if_neg fun hc => W.indirect hi (lt_of_lt_of_le hc.1 hL) hdir (le_refl _) hc.2]
  omega

theorem Work.writeLoop_room (hsb : sb.Ok) (hi : i < sb.ninodes.toNat) {passes : Nat}
    (W : Work sb D i s0 n nothing s) (hp : src.length ≤ passes) (hoff : off ≤ BSIZE * n)
    (hend : off + src.length ≤ BSIZE * MAXFILE) (hL : L = blocksFor (off + src.length)) :
    Sat (Fs.writeLoop sb passes off src) s (fun _ _ => lacks L n s.ip ≤ room sb s.disk)
      (OutOf sb s.disk (lacks L n s.ip)) := by
  induction passes generalizing off src n s with
  | zero =>
    refine sat_pure ?_
    rw [W.lacks_zero hi (hL ▸ blocksFor_le (by omega))]
    exact Nat.zero_le _
  | succ passes ih =>
    unfold Fs.writeLoop
    by_cases h0 : src.length = 0
    · rw [if_pos h0]
      refine sat_pure ?_
      rw [W.lacks_zero hi (hL ▸ blocksFor_le (by omega))]
      exact Nat.zero_le _
    · rw [if_neg h0]
      obtain ⟨hb, hdm, hmod, hkn, hkm, hk1, hnext⟩ := first_block hoff h0 hend
      have hkL : off / BSIZE < L := hL ▸ lt_blocksFor (by omega)
      refine (((W.bmap hsb hi hkn hkm).and (W.bmap_room hsb hi hkn hkm hkL)).monoError
        fun _ => And.right).bind ?_
      rintro b s1 ⟨⟨W1, -, hblk, -⟩, hroom⟩
      apply sat_modify
      obtain ⟨m, hm⟩ : ∃ m, m = min src.length (BSIZE - off % BSIZE) := ⟨_, rfl⟩
      rw [← hm]
      have hlen : (src.drop m).length = src.length - m := List.length_drop
      subst hblk
      have W2 := (W1.write hsb hi hk1 ((s1.disk (fileBlock s1.disk s1.ip (off / BSIZE))).splice
        (off % BSIZE) (src.take m))).1.relog (fileBlock s1.disk s1.ip (off / BSIZE) :: s1.logged)
      have hlo : sb.firstData ≤ fileBlock s1.disk s1.ip (off / BSIZE) :=
        (W1.range _ hi (filePos_lt hkm) ((W1.exact hi _ hkm).2 hk1)).1
      have hrest := ih W2 (by omega) (by omega) (by omega)
        (show _ = blocksFor (off + m + (src.drop m).length) by rw [hL, hlen]; congr 1; omega)
      dsimp only at hrest
      unfold OutOf at hrest
      rw [room_update hsb hlo] at hrest
      refine (hrest.monoError (F := OutOf sb s.disk (lacks L n s.ip)) ?_).mono fun _ s' h => ?_
      · rintro e ⟨he, hlt⟩
        exact ⟨he, by omega⟩
      · omega

/-! ## Reading -/

theorem Work.bmap_has (hsb : sb.Ok) (W : Work sb D i s0 n nothing s) (hi : i < sb.ninodes.toNat)
    (hk : k < n) : Sat (Fs.bmap sb k) s (fun _ s' => s' = s) (fun _ => False) := by
  have hm : k < MAXFILE := lt_of_lt_of_le hk (W.nb_le hi)
  have hzero : lacks (k + 1) n s.ip = 0 := W.lacks_zero hi hk
  refine (((W.bmap hsb hi hk.le hm).and
    (W.bmap_room hsb hi hk.le hm (L := k + 1) (by omega))).monoError
    fun e he => ?_).mono fun b s' h => h.1.2.2.2 hk
  rw [hzero] at he
  exact Nat.not_lt_zero _ he.2.2

theorem Work.readLoop_returns (hsb : sb.Ok) (W : Work sb D i s0 n nothing s)
    (hi : i < sb.ninodes.toNat) {passes : Nat} (hoff : off + m ≤ BSIZE * n) :
    Sat (Fs.readLoop sb passes off m) s (fun _ s' => s' = s) (fun _ => False) := by
  induction passes generalizing off m with
  | zero => exact sat_pure rfl
  | succ passes ih =>
    unfold Fs.readLoop
    split
    · exact sat_pure rfl
    · have hk : off / BSIZE < n := Nat.div_lt_of_lt_mul (by omega)
      refine (W.bmap_has hsb hi hk).bind fun b s1 hs => ?_
      subst hs
      apply sat_get
      exact (ih (by omega)).bind fun l s2 hs => sat_pure hs

theorem take_fileBytes : (fileBytes d ip off m).take n = fileBytes d ip off (min n m) := by
  unfold fileBytes
  rw [← List.map_take, List.take_range]

theorem drop_contents (h : off ≤ ip.size.toNat) :
    (contents d ip).drop off = fileBytes d ip off (ip.size.toNat - off) := by
  have hsplit : contents d ip = fileBytes d ip 0 off ++ fileBytes d ip off
    (ip.size.toNat - off) := by
    rw [contents, show ip.size.toNat = off + (ip.size.toNat - off) by omega, fileBytes_add]
    simp
  rw [hsplit, List.drop_left' length_fileBytes]

theorem readi_eq (hsb : sb.Ok) (hi : i < sb.ninodes.toNat) (h : Owner sb s.disk)
    (hip : dinode sb s.disk i = s.ip) (ht : s.ip.type ≠ 0) (off n : BitVec 32) :
    readi sb off.toNat n.toNat s = .ok
      (if off.toNat ≤ s.ip.size.toNat ∧ off.toNat + n.toNat < 2 ^ 32
        then some (((contents s.disk s.ip).drop off.toNat).take n.toNat) else none, s) := by
  have W := h.work hip ht
  have hle := size_le_dataBlocks s.ip
  have hoff := off.isLt
  have hn := n.isLt
  suffices hsat : Sat (readi sb off.toNat n.toNat) s (fun r s' => s' = s ∧ r =
      if off.toNat ≤ s.ip.size.toNat ∧ off.toNat + n.toNat < 2 ^ 32
        then some (((contents s.disk s.ip).drop off.toNat).take n.toNat) else none)
      (fun _ => False) by
    obtain ⟨r, s', hrun, rfl, rfl⟩ := hsat.returns
    exact hrun
  unfold readi
  apply sat_get
  by_cases hbad : s.ip.size.toNat < off.toNat ∨ (off.toNat + n.toNat) % 2 ^ 32 < off.toNat
  · rw [if_pos hbad]
    refine sat_pure ⟨rfl, ?_⟩
    rw [if_neg (by omega)]
  · rw [if_neg hbad]
    have hin : off.toNat ≤ s.ip.size.toNat ∧ off.toNat + n.toNat < 2 ^ 32 := by omega
    have hmin : (if s.ip.size.toNat < off.toNat + n.toNat then s.ip.size.toNat - off.toNat
        else n.toNat) = min n.toNat (s.ip.size.toNat - off.toNat) := by
      split <;> omega
    rw [hmin, if_pos hin, drop_contents hin.1, take_fileBytes]
    have hend : off.toNat + min n.toNat (s.ip.size.toNat - off.toNat) ≤ BSIZE *
      dataBlocks s.ip := by
      omega
    refine (((W.readLoop hsb hi (le_refl _) hend).and (W.readLoop_returns hsb hi hend)).monoError
      fun _ => And.right).bind fun l s' hl => sat_pure ⟨hl.2, ?_⟩
    rw [hl.1.2]

/-! ## Writing -/

theorem length_contents : (contents d ip).length = ip.size.toNat := length_fileBytes

theorem getElem_contents {x : Nat} (hx : x < (contents d ip).length) :
    (contents d ip)[x] = fileByte d ip x := by
  simp [contents, fileBytes]

theorem Written.contents (hw : Written off src s s') :
    contents s'.disk s'.ip = (contents s.disk s.ip).take off ++ src ++
      (contents s.disk s.ip).drop (off + src.length) := by
  have hstart := hw.start
  have hsize := hw.size
  have hlen : ((Fs.contents s.disk s.ip).take off).length = off := by
    rw [List.length_take, length_contents]
    omega
  apply List.ext_getElem
  · simp only [List.length_append, hlen, List.length_drop, length_contents]
    omega
  · intro x hx _
    rw [getElem_contents]
    rw [length_contents] at hx
    simp only [List.getElem_append, List.length_append, hlen]
    split
    · next h1 =>
      split
      · next h2 =>
        rw [hw.outside x (by omega) (.inl h2), List.getElem_take, getElem_contents]
      · next h2 =>
        have := hw.inside (x - off) (by omega)
        rwa [Nat.add_sub_cancel' (by omega)] at this
    · next h1 =>
      rw [hw.outside x (by omega) (.inr (by omega)), List.getElem_drop, getElem_contents]
      congr 1
      omega

/-- The other files, and the inode on the disk, after a call on inode `i`. -/
structure Others (sb : Superblock) (i : Nat) (s s' : InodeSt) : Prop where
  own : Owner sb s'.disk
  inode : dinode sb s'.disk i = s'.ip
  others : ∀ j, j ≠ i → Allocated sb (dinode sb s.disk) j →
    dinode sb s'.disk j = dinode sb s.disk j ∧
    contents s'.disk (dinode sb s'.disk j) = contents s.disk (dinode sb s.disk j)

theorem Section.toOthers (hs : Owner sb s.disk) (h : Section sb i s s') : Others sb i s s' := by
  refine ⟨h.own, h.inode, fun j hj hA => ?_⟩
  have hd := h.dinodes j hA.1 hj
  refine ⟨hd, ?_⟩
  apply List.ext_getElem
  · rw [length_contents, length_contents, hd]
  · intro x hx hx'
    rw [getElem_contents, getElem_contents]
    rw [length_contents] at hx'
    exact h.fileByte hs hj hA hx'

theorem writei_room (hsb : sb.Ok) (hi : i < sb.ninodes.toNat) (h : Owner sb s.disk)
    (hip : dinode sb s.disk i = s.ip) (ht : s.ip.type ≠ 0) (hoff : off ≤ s.ip.size.toNat)
    (hend : off + src.length ≤ MAXFILE * BSIZE) :
    Sat (writei sb i off src) s (fun r _ => r = some src.length ∧
      lacks (blocksFor (off + src.length)) (dataBlocks s.ip) s.ip ≤ room sb s.disk)
      (OutOf sb s.disk (lacks (blocksFor (off + src.length)) (dataBlocks s.ip) s.ip)) := by
  have W := h.work hip ht
  have hmf : MAXFILE * BSIZE = 71680 := rfl
  have hle := size_le_dataBlocks s.ip
  unfold writei
  apply sat_get
  rw [if_neg (by omega), if_neg (by omega)]
  refine (W.writeLoop_room hsb hi (le_refl _) (by omega) (by rw [Nat.mul_comm]; omega) rfl).bind
    fun _ t hroom => ?_
  refine Sat.bind (Q := fun _ _ => True) ?_ fun _ _ _ => sat_pure ⟨rfl, hroom⟩
  unfold growSize
  apply sat_get
  split
  · exact trivial
  · exact trivial

theorem writei_refuses
    (hbad : ¬ (off ≤ s.ip.size.toNat ∧ off + src.length ≤ MAXFILE * BSIZE)) :
    writei sb i off src s = .ok (none, s) := by
  unfold writei
  dsimp only [bind, StateT.bind, get, getThe, MonadStateOf.get, StateT.get, pure, Except.pure,
    Except.bind]
  by_cases h1 : s.ip.size.toNat < off ∨ (off + src.length) % 2 ^ 32 < off
  · rw [if_pos h1]
    rfl
  · have hmf : MAXFILE * BSIZE = 71680 := rfl
    rw [if_neg h1, if_pos (by omega)]
    rfl

/-- On a consistent disk, with the contents of the file of a locked inode `i`: `readi` gives the
bytes from `off` on, as many of `n` as there are, or −1, and changes nothing. `writei` outside the
limits answers −1 and changes nothing. Within them, if the blocks that the file lacks are free, it
answers the number of bytes and replaces or appends them; if not, `balloc` panics. The disk is
consistent again, and no other file has changed. -/
theorem byte_array (hsb : sb.Ok) (hi : i < sb.ninodes.toNat) (h : Owner sb s.disk)
    (hip : dinode sb s.disk i = s.ip) (ht : s.ip.type ≠ 0) (off : BitVec 32) :
    (∀ n : BitVec 32, readi sb off.toNat n.toNat s = .ok
      (if off.toNat ≤ s.ip.size.toNat ∧ off.toNat + n.toNat < 2 ^ 32
        then some (((contents s.disk s.ip).drop off.toNat).take n.toNat) else none, s)) ∧
    ∀ src : List UInt8, src.length < 2 ^ 32 →
      (¬ (off.toNat ≤ s.ip.size.toNat ∧ off.toNat + src.length ≤ MAXFILE * BSIZE) →
        writei sb i off.toNat src s = .ok (none, s)) ∧
      (off.toNat ≤ s.ip.size.toNat → off.toNat + src.length ≤ MAXFILE * BSIZE →
        (lacks (blocksFor (off.toNat + src.length)) (dataBlocks s.ip) s.ip ≤ room sb s.disk →
          ∃ s', writei sb i off.toNat src s = .ok (some src.length, s') ∧
            contents s'.disk s'.ip = (contents s.disk s.ip).take off.toNat ++ src ++
              (contents s.disk s.ip).drop (off.toNat + src.length) ∧
            Others sb i s s') ∧
        (room sb s.disk < lacks (blocksFor (off.toNat + src.length)) (dataBlocks s.ip) s.ip →
          writei sb i off.toNat src s = .error "balloc: out of blocks")) := by
  refine ⟨readi_eq hsb hi h hip ht off, fun src _ => ⟨fun hbad => ?_, fun hoff hend => ?_⟩⟩
  · exact writei_refuses hbad
  · have hsat := (writei_spec hsb hi h hip ht).and
      (writei_room hsb hi h hip ht hoff hend)
    cases hrun : writei sb i off.toNat src s with
    | error e =>
      obtain ⟨-, he, hlt⟩ := hsat.error hrun
      exact ⟨fun hle => absurd hlt (not_lt.2 hle), fun _ => by rw [he]⟩
    | ok r =>
      obtain ⟨⟨hsec, hres⟩, hr, hle⟩ := hsat.ok hrun
      refine ⟨fun _ => ⟨r.2, ?_, ?_, hsec.toOthers h⟩, fun hlt => absurd hlt (not_lt.2 hle)⟩
      · rw [← hr]
      · rw [hr] at hres
        exact hres.2.contents

/-! ## A small disk -/

/-- A disk on which no inode has a block. -/
theorem owner_of_bare (hpos : 0 < sb.firstData)
    (hbit : ∀ b < sb.size.toNat, bit sb d b = decide (b < sb.firstData))
    (hbare : ∀ j, Allocated sb (dinode sb d) j →
      (dinode sb d j).size = 0 ∧ (dinode sb d j).addrs = fun _ => 0) : Owner sb d := by
  have hblock : ∀ j, Allocated sb (dinode sb d) j → ∀ pos, blockAt d (dinode sb d j) pos = 0 := by
    intro j hj pos
    have heq : dinode sb d j = (dinode sb d j).bare := by
      rw [Dinode.bare, ← (hbare j hj).2]
    rw [heq, blockAt_bare]
  have hrefs : ∀ k, refs sb d (dinode sb d) k = 0 := by
    intro k
    unfold refs
    split
    · next h => exact hblock _ h.1 _
    · rfl
  have hnone : ∀ j, Allocated sb (dinode sb d) j → dataBlocks (dinode sb d j) = 0 := by
    intro j hj
    rw [dataBlocks, (hbare j hj).1]
    rfl
  refine ⟨⟨hpos, fun k hk => absurd (hrefs k) hk, fun k _ _ hk => absurd (hrefs k) hk,
    fun _ h => h.elim, fun b hb => ?_⟩, fun j hj k _ => ?_, fun j hj => ?_⟩
  · rw [hbit b hb, decide_eq_true_iff]
    refine ⟨.inl, ?_⟩
    rintro (h | h | ⟨k, hk⟩)
    · exact h
    · exact h.elim
    · rw [hrefs] at hk
      omega
  · rw [hblock j hj, hnone j hj]
    exact ⟨fun h => absurd rfl h, fun h => absurd h (Nat.not_lt_zero k)⟩
  · rw [hnone j hj]
    exact Nat.zero_le _

theorem room_of_bits {n : Nat} (hbit : ∀ b < sb.size.toNat, bit sb d b = decide (b < n)) :
    room sb d = sb.size.toNat - n := by
  rw [← Nat.card_Ico, room]
  congr 1
  ext b
  rw [Finset.mem_filter, Finset.mem_range, Finset.mem_Ico, and_comm]
  refine and_congr_left fun hb => ?_
  rw [hbit b hb, decide_eq_false_iff_not, not_lt]

def smallSb : Superblock := ⟨5, 1, 2, 0, 2, 2, 3⟩

def emptyFile : Dinode := ⟨T_FILE, 0, 0, 1, 0, fun _ => 0⟩

/-- The blocks below the data block are marked, and inode 1 is the empty file. -/
def smallDisk : Disk :=
  putDinode smallSb ([0, 1, 2, 3].foldl (fun d b => putMapBit smallSb d b true) fun _ => Bytes.zero)
    1 emptyFile

theorem bit_smallDisk {b : Nat} (hb : b < 5) : bit smallSb smallDisk b = decide (b < 4) := by
  have hzero : bit smallSb (fun _ => Bytes.zero) b = false := by
    simp [bit, getBit, Bytes.get_zero]
  have hmap : BBLOCK b smallSb ≠ IBLOCK 1 smallSb := by
    interval_cases b <;> decide
  unfold smallDisk
  rw [bit_congr (putDinode_of_ne hmap)]
  simp only [List.foldl, bit_putMapBit, hzero]
  interval_cases b <;> rfl

theorem dinode_smallDisk : dinode smallSb smallDisk 1 = emptyFile := by
  rw [smallDisk, dinode_putDinode, if_pos rfl]

theorem allocated_smallDisk {j : Nat} (h : Allocated smallSb (dinode smallSb smallDisk) j) :
    j = 1 := by
  obtain ⟨hj, ht⟩ := h
  by_contra hne
  obtain rfl : j = 0 := by
    have : j < 2 := hj
    omega
  apply ht
  rw [smallDisk, dinode_putDinode, if_neg (by decide)]
  simp only [List.foldl]
  rw [dinode_congr (d := fun _ => Bytes.zero)]
  · rfl
  · simp only [putMapBit_of_ne (show IBLOCK 0 smallSb ≠ BBLOCK 0 smallSb by decide),
      putMapBit_of_ne (show IBLOCK 0 smallSb ≠ BBLOCK 1 smallSb by decide),
      putMapBit_of_ne (show IBLOCK 0 smallSb ≠ BBLOCK 2 smallSb by decide),
      putMapBit_of_ne (show IBLOCK 0 smallSb ≠ BBLOCK 3 smallSb by decide)]

theorem ok_smallSb : smallSb.Ok := by
  refine ⟨by decide, fun i hi => ?_, fun b hb => ?_, by decide, by decide, by decide⟩
  · have : i < 2 := hi
    interval_cases i <;> decide
  · have : b < 5 := hb
    interval_cases b <;> decide

theorem owner_smallDisk : Owner smallSb smallDisk :=
  owner_of_bare (by decide) (fun _ hb => bit_smallDisk hb) fun j hj => by
    rw [allocated_smallDisk hj, dinode_smallDisk]
    exact ⟨rfl, rfl⟩

theorem room_smallDisk : room smallSb smallDisk = 1 := room_of_bits fun _ hb => bit_smallDisk hb

theorem byte_array_small : ∃ s', writei smallSb 1 0 [7] ⟨smallDisk, emptyFile, [], []⟩ =
    .ok (some 1, s') ∧ contents s'.disk s'.ip = [7] := by
  obtain ⟨-, hw⟩ := byte_array (s := ⟨smallDisk, emptyFile, [], []⟩) (i := 1) ok_smallSb (by decide)
    owner_smallDisk dinode_smallDisk (by decide) 0
  obtain ⟨-, hin⟩ := hw [7] (by decide)
  obtain ⟨s', hrun, hc, -⟩ := (hin (by decide) (by decide)).1 (by
    rw [room_smallDisk]
    decide)
  exact ⟨s', hrun, hc⟩

/-- The disk is consistent, and a write of 513 bytes is within the limits, but a file of two blocks
does not fit. -/
theorem writei_full : Owner smallSb smallDisk ∧ dinode smallSb smallDisk 1 = emptyFile ∧
    0 + (List.replicate 513 (7 : UInt8)).length ≤ MAXFILE * BSIZE ∧
    writei smallSb 1 0 (List.replicate 513 7) ⟨smallDisk, emptyFile, [], []⟩ =
      .error "balloc: out of blocks" := by
  have hlen : (List.replicate 513 (7 : UInt8)).length = 513 := List.length_replicate
  generalize List.replicate 513 (7 : UInt8) = src at hlen ⊢
  have hsat : Sat (writei smallSb 1 0 src) ⟨smallDisk, emptyFile, [], []⟩ _ _ :=
    writei_room ok_smallSb
    (by decide) owner_smallDisk dinode_smallDisk (by decide) (Nat.zero_le _)
    (by rw [hlen]; decide)
  refine ⟨owner_smallDisk, dinode_smallDisk, by rw [hlen]; decide, ?_⟩
  have hlack : lacks (blocksFor (0 + src.length)) (dataBlocks emptyFile) emptyFile = 2 := by
    rw [hlen]
    decide
  dsimp only at hsat
  rw [hlack, room_smallDisk] at hsat
  cases hrun : writei smallSb 1 0 src ⟨smallDisk, emptyFile, [], []⟩ with
  | error e => rw [(hsat.error hrun).1]
  | ok r =>
    have := (hsat.ok hrun).2
    omega

end Xv6.Fs
