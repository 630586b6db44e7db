import Xv6.Fs.ByteArray
import Xv6.Fs.Calls

/-!
# A directory is a finite map

What `dirlink` and the entry clearing of `sys_unlink` do to a directory under the lock of its inode,
over any sequence of them: the names of the entries in use stay distinct, `dirlink` refuses exactly
the names that are there, and what looking up any other name finds does not change. A name is a
string of any length; the kernel looks at its first `DIRSIZ` bytes.
-/

namespace Xv6.Fs

open Lib

variable {sb : Superblock} {i k e inum : Nat} {s s' t : InodeSt} {de : Dirent} {msg : String}

/-! ## Comparing and copying names -/

/-- `strncmp`; the bytes of a string after its last one are read as the terminating zero. -/
def strncmp : (n : Nat) → (p q : List UInt8) → Int
  | 0, _, _ => 0
  | n + 1, p, q =>
    if p.headD 0 ≠ 0 ∧ p.headD 0 = q.headD 0 then strncmp n p.tail q.tail
    else (p.headD 0).toNat - (q.headD 0).toNat

/-- `strncpy`: copy up to the terminating zero, and fill up with zeros. -/
def strncpy : (n : Nat) → (t : List UInt8) → List UInt8
  | 0, _ => []
  | n + 1, t => t.headD 0 :: if t.headD 0 ≠ 0 then strncpy n t.tail else List.replicate n 0

def key (name : List UInt8) : List UInt8 := (name.take DIRSIZ).takeWhile (· ≠ 0)

variable {n : Nat} {l : List UInt8}

theorem takeWhile_take_succ : (l.take (n + 1)).takeWhile (· ≠ 0) =
    if l.headD 0 ≠ 0 then l.headD 0 :: (l.tail.take n).takeWhile (· ≠ 0) else [] := by
  cases l with
  | nil => simp
  | cons a l =>
    by_cases ha : a = 0
    · simp [ha]
    · simp [ha]

theorem strncmp_eq_zero {p q : List UInt8} : strncmp n p q = 0 ↔
    (p.take n).takeWhile (· ≠ 0) = (q.take n).takeWhile (· ≠ 0) := by
  induction n generalizing p q with
  | zero => simp [strncmp]
  | succ n ih =>
    rw [takeWhile_take_succ, takeWhile_take_succ]
    unfold strncmp
    generalize p.headD 0 = a
    generalize q.headD 0 = b
    have hsub : ((a.toNat : Int) - b.toNat = 0) ↔ a = b := by
      rw [sub_eq_zero, Nat.cast_inj, UInt8.toNat_inj]
    by_cases hab : a = b
    · subst hab
      by_cases ha : a = 0
      · simp [ha]
      · simp [ha, ih]
    · rw [if_neg fun h => hab h.2, hsub]
      refine ⟨fun h => absurd h hab, fun h => ?_⟩
      by_cases ha : a = 0 <;> by_cases hb : b = 0 <;> simp_all

theorem strncpy_eq (h : 0 ∉ l) : strncpy n l = (l ++ List.replicate n 0).take n := by
  induction n generalizing l with
  | zero => simp [strncpy]
  | succ n ih =>
    cases l with
    | nil => simp [strncpy, List.replicate_succ]
    | cons a l =>
      have ha : a ≠ 0 := fun h0 => h (by simp [h0])
      have hl : 0 ∉ l := fun h0 => h (List.mem_cons_of_mem _ h0)
      have hcut : (l ++ List.replicate (n + 1) 0).take n = (l ++ List.replicate n 0).take n := by
        rw [List.replicate_succ', ← List.append_assoc, List.take_append_of_le_length (by simp)]
      simp [strncpy, ha, ih hl, hcut]

variable {name : List UInt8}

theorem ofList_eq (h : 0 ∉ name) : (Name.ofList name).1 = strncpy DIRSIZ name := (strncpy_eq h).symm

variable {m : Nat}

theorem takeWhile_fill :
    ((l ++ List.replicate m 0).take n).takeWhile (· ≠ 0) = (l.take n).takeWhile (· ≠ 0) := by
  induction n generalizing l with
  | zero => simp
  | succ n ih =>
    cases l with
    | nil => simp [List.take_replicate]
    | cons a l =>
      by_cases ha : a = 0
      · simp [ha]
      · simpa [ha] using ih

theorem text_ofList (name : List UInt8) : (Name.ofList name).text = key name := takeWhile_fill

theorem namecmp_iff (name : List UInt8) (m : Name) :
    namecmp (Name.ofList name) m = true ↔ strncmp DIRSIZ name m.1 = 0 := by
  rw [strncmp_eq_zero, namecmp, decide_eq_true_iff, text_ofList, key, Name.text,
    List.take_of_length_le m.2.le]

/-! ## Looking up names -/

/-- The inode `i` is that of a directory of 16-byte entries, on a consistent disk. -/
structure Whole (sb : Superblock) (i : Nat) (s : InodeSt) : Prop where
  own : Owner sb s.disk
  inode : dinode sb s.disk i = s.ip
  type : s.ip.type = T_DIR
  whole : s.ip.size.toNat % 16 = 0

structure IsDir (sb : Superblock) (i : Nat) (s : InodeSt) : Prop extends Whole sb i s where
  distinct : ∀ j < entries s.ip, ∀ k < entries s.ip, (dirent s.disk s.ip j).inum ≠ 0 →
    (dirent s.disk s.ip k).inum ≠ 0 →
    (dirent s.disk s.ip j).name.text = (dirent s.disk s.ip k).name.text → j = k

theorem Whole.allocated (h : Whole sb i s) : s.ip.type ≠ 0 := by
  rw [h.type]
  decide

theorem Whole.size_le (h : Whole sb i s) (hi : i < sb.ninodes.toNat) :
    s.ip.size.toNat ≤ MAXFILE * BSIZE := by
  rw [Nat.mul_comm]
  exact (h.own.work h.inode h.allocated).size_le hi

section

variable (hsb : sb.Ok) (hi : i < sb.ninodes.toNat) (h : Whole sb i s)

include hsb hi h

theorem Whole.readDirent (hk : 16 * k < s.ip.size.toNat) :
    Sat (readDirent sb (16 * k) msg) s (fun _ s' => s' = s) fun _ => False := by
  have hsize := h.size_le hi
  have hmf : MAXFILE * BSIZE = 71680 := rfl
  have hwhole := h.whole
  have hoff : (BitVec.ofNat 32 (16 * k)).toNat = 16 * k := by
    rw [BitVec.toNat_ofNat]
    exact Nat.mod_eq_of_lt (by omega)
  have hread := readi_eq hsb hi h.own h.inode h.allocated (BitVec.ofNat 32 (16 * k)) 16
  rw [hoff, show (16 : BitVec 32).toNat = 16 from rfl, if_pos (by omega)] at hread
  unfold Fs.readDirent
  refine Sat.bind (Q := fun r s' => s' = s ∧ ∃ l, r = some l ∧ l.length = 16) ?_ ?_
  · unfold Sat
    rw [hread]
    refine ⟨rfl, _, rfl, ?_⟩
    rw [List.length_take, List.length_drop, length_contents]
    omega
  · rintro r s' ⟨rfl, l, rfl, hl⟩
    dsimp only
    rw [if_pos hl]
    exact sat_pure rfl

theorem Whole.scan (want : Dirent → Bool) :
    Sat (scan sb msg want m k) s (fun _ s' => s' = s) fun _ => False := by
  induction m generalizing k with
  | zero => exact sat_pure rfl
  | succ m ih =>
    unfold Fs.scan
    apply sat_get
    by_cases hk : 16 * k < s.ip.size.toNat
    · rw [if_pos hk]
      refine (h.readDirent hsb hi hk).bind fun de s' hs => ?_
      subst hs
      split
      · exact sat_pure rfl
      · exact ih
    · rw [if_neg hk]
      exact sat_pure rfl

theorem Whole.lookup (name : Name) :
    ∃ r, lookup sb name s = .ok (r, s) ∧ Looked s.disk s.ip name r := by
  have hsat : Sat (Fs.lookup sb name) s (fun _ s' => s' = s) fun _ => False := by
    unfold Fs.lookup
    apply sat_get
    rw [if_neg (not_not.2 h.type)]
    exact (h.scan hsb hi _).bind fun _ _ hs => sat_pure hs
  obtain ⟨r, s', hrun, rfl⟩ := hsat.returns
  exact ⟨r, hrun, ((lookup_spec hsb hi h.own h.inode name).ok hrun).2.2⟩

end

variable {r : Option (Nat × Nat)}

theorem IsDir.unique (h : IsDir sb i s) {name : Name} {r' : Option (Nat × Nat)}
    (hr : Looked s.disk s.ip name r) (hr' : Looked s.disk s.ip name r') : r = r' := by
  have hnum : ∀ b : BitVec 16, b.toNat ≠ 0 → b ≠ 0 := fun b hb h0 => hb (by rw [h0]; rfl)
  cases r with
  | none =>
    cases r' with
    | none => rfl
    | some q' =>
      obtain ⟨e, he, -, hinum, hne, htext⟩ := hr'
      rw [hinum] at hne
      exact ((hr e he).elim (hnum _ hne) fun hn => hn htext).elim
  | some q =>
    obtain ⟨e, he, hoff, hinum, hne, htext⟩ := hr
    cases r' with
    | none =>
      rw [hinum] at hne
      exact ((hr' e he).elim (hnum _ hne) fun hn => hn htext).elim
    | some q' =>
      obtain ⟨e', he', hoff', hinum', hne', htext'⟩ := hr'
      obtain rfl := h.distinct e he e' he' (hnum _ (hinum ▸ hne)) (hnum _ (hinum' ▸ hne'))
        (htext.trans htext'.symm)
      exact congrArg some (Prod.ext (hinum.trans hinum'.symm) (hoff.trans hoff'.symm))

theorem IsDir.lookup_iff (hsb : sb.Ok) (hi : i < sb.ninodes.toNat) (h : IsDir sb i s)
    {name : Name} :
    Fs.lookup sb name s = .ok (r, s) ↔ Looked s.disk s.ip name r := by
  obtain ⟨r', hrun, hr'⟩ := h.lookup hsb hi name
  rw [hrun]
  constructor
  · intro heq
    cases heq
    exact hr'
  · intro hr
    rw [h.unique hr hr']

/-! ## Changing one entry -/

theorem IsDir.entrySet (h : IsDir sb i s) (hsec : Section sb i s t) (hset : EntrySet e de s t)
    (hnew : de.inum ≠ 0 → ∀ k < entries s.ip, k ≠ e → (dirent s.disk s.ip k).inum ≠ 0 →
      (dirent s.disk s.ip k).name.text ≠ de.name.text) : IsDir sb i t := by
  have hstart := hset.start
  refine ⟨⟨hsec.own, hsec.inode, ?_, ?_⟩, fun j hj k hk huj huk htext => ?_⟩
  · rw [hset.fields]
    exact h.type
  · have := hset.size
    have := h.whole
    omega
  · have hold : ∀ {k}, k < entries t.ip → k ≠ e →
        k < entries s.ip ∧ dirent t.disk t.ip k = dirent s.disk s.ip k := by
      intro k hk hne
      rw [hset.entries] at hk
      have hk' : k < entries s.ip := by omega
      exact ⟨hk', hset.others k hk' hne⟩
    by_cases hje : j = e
    · by_cases hke : k = e
      · rw [hje, hke]
      · obtain ⟨hks, hkd⟩ := hold hk hke
        rw [hje, hset.entry] at huj htext
        rw [hkd] at huk htext
        exact absurd htext.symm (hnew huj k hks hke huk)
    · obtain ⟨hjs, hjd⟩ := hold hj hje
      rw [hjd] at huj htext
      by_cases hke : k = e
      · rw [hke, hset.entry] at huk htext
        exact absurd htext (hnew huk j hjs hje huj)
      · obtain ⟨hks, hkd⟩ := hold hk hke
        rw [hkd] at huk htext
        exact h.distinct j hjs k hks huj huk htext

theorem Looked.entrySet {name : Name} (hset : EntrySet e de s t)
    (hold : e < entries s.ip → (dirent s.disk s.ip e).inum = 0 ∨
      (dirent s.disk s.ip e).name.text ≠ name.text)
    (hnew : de.inum = 0 ∨ de.name.text ≠ name.text) (h : Looked s.disk s.ip name r) :
    Looked t.disk t.ip name r := by
  cases r with
  | none =>
    intro k hk
    rcases hset.cases hk with hk | ⟨hks, hkd⟩
    · rw [hk]
      exact hnew
    · rw [hkd]
      exact h k hks
  | some q =>
    obtain ⟨k, hk, hoff, hinum, hne, htext⟩ := h
    have hke : k ≠ e := by
      rintro rfl
      refine (hold hk).elim (fun h0 => hne ?_) fun hn => hn htext
      rw [hinum, h0]
      rfl
    have hkt : k < entries t.ip := by
      rw [hset.entries]
      omega
    refine ⟨k, hkt, hoff, ?_, hne, ?_⟩
    · rw [hset.others k hk hke]
      exact hinum
    · rw [hset.others k hk hke]
      exact htext

/-! ## Adding and clearing entries -/

def Packed (s : InodeSt) : Prop := ∀ k < entries s.ip, (dirent s.disk s.ip k).inum ≠ 0

/-- Why an entry cannot be added: all places are taken, and the file cannot grow, or there are too
few free blocks. -/
def NoRoom (sb : Superblock) (s : InodeSt) (msg : String) : Prop :=
  Packed s ∧ (MAXFILE * BSIZE < s.ip.size.toNat + 16 ∧ msg = "dirlink" ∨
    s.ip.size.toNat + 16 ≤ MAXFILE * BSIZE ∧
      OutOf sb s.disk (lacks (blocksFor (s.ip.size.toNat + 16)) (dataBlocks s.ip) s.ip) msg)

theorem Whole.overwrite (hsb : sb.Ok) (hi : i < sb.ninodes.toNat) (h : Whole sb i s)
    {src : List UInt8} (hlen : src.length = 16) (he : e < entries s.ip) :
    Sat (writei sb i (16 * e) src) s (fun r _ => r = some 16) fun _ => False := by
  have hsize := h.size_le hi
  unfold entries at he
  have W := h.own.work h.inode h.allocated
  have hzero : lacks (blocksFor (16 * e + src.length)) (dataBlocks s.ip) s.ip = 0 :=
    W.lacks_zero hi (Nat.div_le_div_right (by omega))
  refine ((writei_room hsb hi h.own h.inode h.allocated (by omega) (by omega)).monoError
    fun msg hout => ?_).mono fun r _ hr => by rw [hr.1, hlen]
  rw [hzero] at hout
  exact absurd hout.2 (Nat.not_lt_zero _)

theorem Whole.addEntry (hsb : sb.Ok) (hi : i < sb.ninodes.toNat) (h : Whole sb i s) (name : Name)
    (inum : Nat) : Sat (addEntry sb i name inum) s
      (fun _ _ => ¬ (Packed s ∧ MAXFILE * BSIZE < s.ip.size.toNat + 16)) (NoRoom sb s) := by
  have hsize := h.size_le hi
  have hwhole := h.whole
  have hmf : MAXFILE * BSIZE = 71680 := rfl
  have hlen := Dirent.codec.length_enc ⟨BitVec.ofNat 16 inum, name⟩
  rw [Dirent.size_codec] at hlen
  unfold Fs.addEntry
  apply sat_get
  refine (((scan_spec hsb hi h.own h.inode h.allocated (by simp [Fine]) _).and
    (h.scan hsb hi _)).monoError fun _ he => he.2.elim).bind fun r s' ⟨⟨hs, hf, _⟩, _⟩ => ?_
  subst hs
  cases r with
  | some q =>
    obtain ⟨e, -, he, hoff, hde, hw, -⟩ := hf
    rw [freePlace, hoff]
    refine ((h.overwrite hsb hi hlen he).monoError fun _ => False.elim).bind fun r _ hr => ?_
    rw [hr]
    refine sat_pure fun hfull => hfull.1 e he ?_
    rw [← hde]
    simpa using hw
  | none =>
    have hpacked : Packed s' := fun k hk => by simpa using hf k (Nat.zero_le _) hk
    have hoff : freePlace s'.ip none = s'.ip.size.toNat := by
      dsimp only [freePlace]
      omega
    rw [hoff]
    by_cases hmax : s'.ip.size.toNat + 16 ≤ MAXFILE * BSIZE
    · have hroom := writei_room hsb hi h.own h.inode h.allocated le_rfl
        (show s'.ip.size.toNat + _ ≤ _ by rw [hlen]; exact hmax)
      rw [hlen] at hroom
      refine (hroom.monoError fun msg hout => ⟨hpacked, .inr ⟨hmax, hout⟩⟩).bind fun r _ hr => ?_
      rw [hr.1]
      exact sat_pure fun hfull => absurd hfull.2 (by omega)
    · have hno : writei sb i s'.ip.size.toNat (Dirent.codec.enc ⟨BitVec.ofNat 16 inum, name⟩) s' =
          .ok (none, s') := writei_refuses (fun hc => hmax (by rw [← hlen]; exact hc.2))
      refine (Sat.of_ok (Q := fun r _ => r = none) hno rfl).bind fun r _ hr => ?_
      rw [hr]
      exact ⟨hpacked, .inl ⟨by omega, rfl⟩⟩

/-- `dirlink` under the lock of directory `i`, the reference that `dirlookup` takes apart; `false`
is the answer -1. -/
def link (sb : Superblock) (i : Nat) (name : List UInt8) (inum : Nat) : FsM Bool := do
  match ← lookup sb (Name.ofList name) with
  | some _ => return false
  | none =>
    addEntry sb i (Name.ofList name) inum
    return true

/-- `sys_unlink` clears the entry at the offset that `dirlookup` reports, if there is one. -/
def clear (sb : Superblock) (i : Nat) (name : List UInt8) : FsM Bool := do
  match ← lookup sb (Name.ofList name) with
  | some (_, off) =>
    eraseEntry sb i off
    return true
  | none => return false

/-- Every name with another key than `name` is looked up in `t` as in `s`. -/
def SameOthers (sb : Superblock) (name : List UInt8) (s t : InodeSt) : Prop :=
  ∀ other, key other ≠ key name → ∀ r, lookup sb (Name.ofList other) s = .ok (r, s) →
    lookup sb (Name.ofList other) t = .ok (r, t)

/-- At most one entry of the directory has changed, and none is lost. -/
def OneSlot (s t : InodeSt) : Prop :=
  ∃ e, entries s.ip ≤ entries t.ip ∧ entries t.ip ≤ max (entries s.ip) (e + 1) ∧
    ∀ k < entries s.ip, k ≠ e → dirent t.disk t.ip k = dirent s.disk s.ip k

/-- Some entry has the name, as far as `strncmp` with `DIRSIZ` compares. -/
def Has (s : InodeSt) (name : List UInt8) : Prop :=
  ∃ e < entries s.ip, (dirent s.disk s.ip e).inum ≠ 0 ∧
    strncmp DIRSIZ name (dirent s.disk s.ip e).name.1 = 0

theorem strncmp_text {m : Name} : strncmp DIRSIZ name m.1 = 0 ↔ m.text = key name := by
  rw [← namecmp_iff, namecmp, decide_eq_true_iff, text_ofList, eq_comm]

theorem Looked.has {q : Nat × Nat} (h : Looked s.disk s.ip (Name.ofList name) (some q)) :
    Has s name := by
  obtain ⟨e, he, -, hinum, hne, htext⟩ := h
  refine ⟨e, he, fun h0 => hne ?_, strncmp_text.2 (htext.trans (text_ofList name))⟩
  rw [hinum, h0]
  rfl

theorem Looked.not_has (h : Looked s.disk s.ip (Name.ofList name) none) : ¬ Has s name := by
  rintro ⟨e, he, hne, hcmp⟩
  refine (h e he).elim hne fun hn => hn ?_
  rw [text_ofList]
  exact strncmp_text.1 hcmp

/-- What `dirlink` does. -/
structure LinkRes (sb : Superblock) (i : Nat) (name : List UInt8) (inum : Nat) (s : InodeSt)
    (r : Bool)
    (t : InodeSt) : Prop where
  dir : IsDir sb i t
  refused : r = false ↔ Has s name
  kept : r = false → t = s
  found : r = true → ∃ off, lookup sb (Name.ofList name) t = .ok (some (inum, off), t)
  stored : r = true → 0 ∉ name → ∃ e < entries t.ip,
    (dirent t.disk t.ip e).name.1 = strncpy DIRSIZ name
  others : SameOthers sb name s t
  slot : OneSlot s t
  grown : s.ip.size.toNat < t.ip.size.toNat → Packed s

structure ClearRes (sb : Superblock) (i : Nat) (name : List UInt8) (s : InodeSt) (r : Bool)
    (t : InodeSt) : Prop where
  dir : IsDir sb i t
  found : r = true ↔ Has s name
  kept : r = false → t = s
  gone : lookup sb (Name.ofList name) t = .ok (none, t)
  others : SameOthers sb name s t
  slot : OneSlot s t
  size : t.ip.size = s.ip.size

theorem OneSlot.refl (s : InodeSt) : OneSlot s s := ⟨0, le_rfl, le_max_left _ _, fun _ _ _ => rfl⟩

theorem EntrySet.oneSlot (h : EntrySet e de s t) : OneSlot s t := by
  refine ⟨e, ?_, h.entries.le, h.others⟩
  rw [h.entries]
  exact le_max_left _ _

theorem ofNat_inum (h : inum < 2 ^ 16) : (BitVec.ofNat 16 inum).toNat = inum := by
  rw [BitVec.toNat_ofNat]
  exact Nat.mod_eq_of_lt h

section

variable (hsb : sb.Ok) (hi : i < sb.ninodes.toNat) (h : IsDir sb i s)

include hsb hi h

theorem IsDir.sameOthers
    (ht : IsDir sb i t) (hset : EntrySet e de s t)
    (hold : e < entries s.ip → (dirent s.disk s.ip e).inum = 0 ∨
      (dirent s.disk s.ip e).name.text = key name)
    (hnew : de.inum = 0 ∨ de.name.text = key name) : SameOthers sb name s t := by
  intro other hne r hr
  rw [h.lookup_iff hsb hi] at hr
  rw [ht.lookup_iff hsb hi]
  refine hr.entrySet hset (fun he => (hold he).imp id fun hk hc => hne ?_)
    (hnew.imp id fun hk hc => hne ?_)
  · rw [← text_ofList other, ← hc, hk]
  · rw [← text_ofList other, ← hc, hk]

theorem link_spec (name : List UInt8) (hpos : 0 < inum) (hlt : inum < 2 ^ 16) :
    Sat (link sb i name inum) s (fun r t => LinkRes sb i name inum s r t)
      (fun msg => ¬ Has s name ∧ NoRoom sb s msg) := by
  obtain ⟨q, hrun, hq⟩ := h.lookup hsb hi (Name.ofList name)
  unfold link
  refine (Sat.of_ok (Q := fun r t => r = q ∧ t = s) hrun ⟨rfl, rfl⟩).bind fun r t hrt => ?_
  rw [hrt.1, hrt.2]
  cases q with
  | some q =>
    have hhas := hq.has
    exact sat_pure ⟨h, ⟨fun _ => hhas, fun _ => rfl⟩, fun _ => rfl, nofun, nofun,
      fun _ _ _ hr => hr, .refl _, fun hc => absurd hc (lt_irrefl _)⟩
  | none =>
    have hno := hq.not_has
    refine Sat.bind (((addEntry_spec hsb hi h.own h.inode h.allocated (Name.ofList name) inum).and
      (h.addEntry hsb hi (Name.ofList name) inum)).monoError fun msg he => ⟨hno, he.2⟩) ?_
    rintro _ t ⟨⟨hsec, e, he, hfree, hfull, hset⟩, -⟩
    have hne : (BitVec.ofNat 16 inum) ≠ 0 := fun h0 => by
      have := ofNat_inum hlt
      rw [h0] at this
      exact absurd this (by simp; omega)
    have ht : IsDir sb i t := h.entrySet hsec hset fun _ k hk _ hu htext =>
      (hq k hk).elim hu fun hn => hn htext
    refine sat_pure ⟨ht, ⟨nofun, fun hc => absurd hc hno⟩, nofun, fun _ => ⟨16 * e, ?_⟩,
      fun _ hz => ⟨e, by rw [hset.entries]; omega, by rw [hset.entry]; exact ofList_eq hz⟩,
      h.sameOthers hsb hi ht hset (fun he => .inl (hfree he)) (.inr (text_ofList name)),
      hset.oneSlot, fun hgrow => hfull ?_⟩
    · rw [ht.lookup_iff hsb hi]
      refine ⟨e, by rw [hset.entries]; omega, rfl, ?_, hpos.ne', by rw [hset.entry]⟩
      rw [hset.entry]
      exact (ofNat_inum hlt).symm
    · have := hset.size
      unfold entries at he ⊢
      omega

theorem clear_spec (name : List UInt8) :
    Sat (clear sb i name) s (fun r t => ClearRes sb i name s r t) (fun _ => False) := by
  obtain ⟨q, hrun, hq⟩ := h.lookup hsb hi (Name.ofList name)
  unfold clear
  refine (Sat.of_ok (Q := fun r t => r = q ∧ t = s) hrun ⟨rfl, rfl⟩).bind fun r t hrt => ?_
  rw [hrt.1, hrt.2]
  cases q with
  | none =>
    have hno := hq.not_has
    exact sat_pure ⟨h, ⟨nofun, fun hc => absurd hc hno⟩, fun _ => rfl, hrun, fun _ _ _ hr => hr,
      .refl _, rfl⟩
  | some q =>
    have hhas := hq.has
    obtain ⟨e, he, hoff, hinum, hne, htext⟩ := hq
    have hused : (dirent s.disk s.ip e).inum ≠ 0 := fun h0 => hne (by rw [hinum, h0]; rfl)
    have hsat : Sat (eraseEntry sb i (16 * e)) s (fun _ _ => True) fun _ => False := by
      unfold eraseEntry
      refine (h.overwrite hsb hi (List.length_replicate ..) he).bind fun r _ hr => ?_
      rw [hr]
      exact sat_pure trivial
    dsimp only
    rw [hoff]
    refine Sat.bind (((eraseEntry_spec hsb hi h.own h.inode h.allocated e).and hsat).monoError
      fun _ => And.right) ?_
    rintro _ t ⟨⟨hsec, hset⟩, -⟩
    have ht : IsDir sb i t := h.entrySet hsec hset fun hc => absurd rfl hc
    refine sat_pure ⟨ht, ⟨fun _ => hhas, fun _ => rfl⟩, nofun, ?_,
      h.sameOthers hsb hi ht hset (fun _ => .inr (htext.trans (text_ofList name))) (.inl rfl),
      hset.oneSlot, ?_⟩
    · rw [ht.lookup_iff hsb hi]
      intro k hk
      by_cases hke : k = e
      · rw [hke, hset.entry]
        exact .inl rfl
      · rw [hset.entries] at hk
        have hks : k < entries s.ip := by omega
        rw [hset.others k hks hke]
        by_contra hc
        rw [not_or, not_not] at hc
        exact hke (h.distinct k hks e he hc.1 hused (hc.2.trans htext.symm))
    · apply BitVec.eq_of_toNat_eq
      have := hset.size
      unfold entries at he
      omega

/-! ## Sequences -/

inductive DirOp where
  | link (name : List UInt8) (inum : Nat)
  | clear (name : List UInt8)

def DirOp.Ok : DirOp → Prop
  | .link _ inum => 0 < inum ∧ inum < 2 ^ 16
  | .clear _ => True

def DirOp.run (sb : Superblock) (i : Nat) : DirOp → FsM Bool
  | .link name inum => Fs.link sb i name inum
  | .clear name => Fs.clear sb i name

def runDirOps (sb : Superblock) (i : Nat) : List DirOp → FsM Unit
  | [] => return ()
  | o :: os => do
    let _ ← o.run sb i
    runDirOps sb i os

theorem DirOp.isDir {o : DirOp} (ho : o.Ok) :
    Sat (o.run sb i) s (fun _ t => IsDir sb i t) (fun _ => True) := by
  cases o with
  | link name inum =>
    exact ((link_spec hsb hi h name ho.1 ho.2).monoError fun _ _ => trivial).mono fun _ _ hr =>
      hr.dir
  | clear name =>
    exact ((clear_spec hsb hi h name).monoError fun _ _ => trivial).mono fun _ _ hr => hr.dir

theorem runDirOps_isDir {ops : List DirOp} (hops : ∀ o ∈ ops, o.Ok) :
    Sat (runDirOps sb i ops) s (fun _ t => IsDir sb i t) (fun _ => True) := by
  induction ops generalizing s with
  | nil => exact sat_pure h
  | cons o os ih =>
    refine (DirOp.isDir hsb hi h (hops o (by simp))).bind fun _ t ht => ?_
    exact ih ht fun o ho => hops o (List.mem_cons_of_mem _ ho)

end

/-- After any sequence of operations the names of the entries in use are distinct, every name can be
looked up, and `dirlink` and clearing behave as on a finite map. `dirlink` panics only if all places
are taken and the file cannot grow, or there are too few free blocks. -/
theorem directory_map (hsb : sb.Ok) (hi : i < sb.ninodes.toNat) (h : IsDir sb i s)
    {ops : List DirOp} (hops : ∀ o ∈ ops, o.Ok) (hrun : runDirOps sb i ops s = .ok ((), s')) :
    IsDir sb i s' ∧
    (∀ name, ∃ r, lookup sb (Name.ofList name) s' = .ok (r, s')) ∧
    (∀ name inum, 0 < inum → inum < 2 ^ 16 →
      Sat (link sb i name inum) s' (fun r t => LinkRes sb i name inum s' r t)
        (fun msg => ¬ Has s' name ∧ NoRoom sb s' msg)) ∧
    ∀ name, Sat (clear sb i name) s' (fun r t => ClearRes sb i name s' r t) (fun _ => False) := by
  have h' := (runDirOps_isDir hsb hi h hops).ok hrun
  refine ⟨h', fun name => ?_, fun name inum hpos hlt => link_spec hsb hi h' name hpos hlt,
    clear_spec hsb hi h'⟩
  obtain ⟨r, hr, -⟩ := h'.lookup hsb hi (Name.ofList name)
  exact ⟨r, hr⟩

def emptyDir : Dinode := { emptyFile with type := T_DIR }

def dirDisk : Disk := putDinode smallSb smallDisk 1 emptyDir

theorem isDir_dirDisk : IsDir smallSb 1 ⟨dirDisk, emptyDir, [], []⟩ := by
  have hsec : Section smallSb 1 ⟨smallDisk, emptyFile, [], []⟩ ⟨dirDisk, emptyDir, [], []⟩ :=
    Owner.fields [] ok_smallSb owner_smallDisk (by decide : 1 < smallSb.ninodes.toNat)
      dinode_smallDisk (by decide) rfl rfl
    (by decide)
  exact ⟨⟨hsec.own, hsec.inode, rfl, rfl⟩, fun j hj => absurd hj (Nat.not_lt_zero j)⟩

theorem room_dirDisk : room smallSb dirDisk = 1 := by
  rw [← room_smallDisk]
  refine room_congr fun c hc => bit_congr ?_
  have hc : c < 5 := hc
  have hmap : BBLOCK c smallSb ≠ IBLOCK 1 smallSb := by
    interval_cases c <;> decide
  exact putDinode_of_ne hmap

theorem link_dirDisk : ∃ s', runDirOps smallSb 1 [.link [97] 1] ⟨dirDisk, emptyDir, [], []⟩ =
    .ok ((), s') := by
  have hsat : Sat (runDirOps smallSb 1 [.link [97] 1]) ⟨dirDisk, emptyDir, [], []⟩
      (fun _ _ => True) fun _ => False := by
    refine Sat.bind ((link_spec ok_smallSb (by decide) isDir_dirDisk [97] Nat.one_pos
      (by decide)).monoError ?_) fun _ _ _ => sat_pure trivial
    rintro msg ⟨-, -, ⟨hfull, -⟩ | ⟨-, -, hroom⟩⟩
    · exact absurd hfull (by decide)
    · rw [room_dirDisk] at hroom
      exact absurd hroom (by decide)
  obtain ⟨_, s', hrun, -⟩ := hsat.returns
  exact ⟨s', hrun⟩

theorem directory_map_small : ∃ s', runDirOps smallSb 1 [.link [97] 1] ⟨dirDisk, emptyDir, [], []⟩ =
      .ok ((), s') ∧ IsDir smallSb 1 s' ∧ ∃ r, lookup smallSb (Name.ofList [97]) s' =
        .ok (r, s') := by
  obtain ⟨s', hrun⟩ := link_dirDisk
  obtain ⟨h, hlook, -⟩ := directory_map (i := 1) ok_smallSb (by decide) isDir_dirDisk
    (by simp [DirOp.Ok]) hrun
  exact ⟨s', hrun, h, hlook _⟩

end Xv6.Fs
