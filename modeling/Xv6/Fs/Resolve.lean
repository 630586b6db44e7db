import Xv6.Fs.Blank
import Xv6.Fs.DirMap
import Xv6.Fs.Parts

/-!
# Path resolution

`namei` and `nameiparent` of a process that runs alone. What they answer is told by `resolve`: the
elements of the path looked up one after the other on the disk. The walk holds a reference to one
or two inodes at a time and locks one of them; at its end the reference counts of the inode cache
are those of the beginning, but for one on the inode that it answers, and no inode is locked. It
stops only if the inode cache is full.
-/

namespace Xv6.Fs

open Lib
open Prog (ends_bind ends_ret ends_step)
open Function (update_of_ne)

variable {π : Type} {sb : Superblock} {s s0 s' s1 : FsSt π} {p : π} {i j dp : Slot} {e : Nat}
  {held held' : List Slot} {l l' : Option Slot} {name : Name} {names : List Name}

/-! ## What a path refers to -/

/-- The number and the offset of the first entry of a directory with a name. -/
def find (d : Disk) (ip : Dinode) (name : Name) : Option (Nat × Nat) :=
  ((List.range (entries ip)).find? fun k =>
    (dirent d ip k).inum ≠ 0 && namecmp name (dirent d ip k).name).map
    fun k => ((dirent d ip k).inum.toNat, 16 * k)

theorem Whole.lookup_eq {i : Nat} {t : InodeSt} (hsb : sb.Ok) (hi : i < sb.ninodes.toNat)
    (h : Whole sb i t) : Fs.lookup sb name t = .ok (find t.disk t.ip name, t) := by
  suffices hsat : Sat (Fs.lookup sb name) t
      (fun r t' => t' = t ∧ r = find t.disk t.ip name) fun _ => False by
    obtain ⟨r, t', hrun, rfl, rfl⟩ := hsat.returns
    exact hrun
  unfold Fs.lookup
  apply sat_get
  rw [if_neg (not_not.2 h.type)]
  refine (((scan_spec hsb hi h.own h.inode h.allocated (by simp [Fine]) _).and
    (h.scan hsb hi _)).monoError fun _ he => he.2.elim).bind fun r t' ⟨⟨hs, hf, _⟩, _⟩ => ?_
  refine sat_pure ⟨hs, ?_⟩
  subst hs
  unfold find
  cases r with
  | none =>
    have hnone : (List.range (entries t'.ip)).find? (fun k => (dirent t'.disk t'.ip k).inum ≠ 0 &&
        namecmp name (dirent t'.disk t'.ip k).name) = none := by
      rw [List.find?_eq_none]
      intro k hk
      exact Bool.eq_false_iff.1 (hf k (Nat.zero_le _) (List.mem_range.1 hk))
    rw [hnone]
    rfl
  | some q =>
    obtain ⟨e, -, he, hoff, hde, hw, hfirst⟩ := hf
    have hsome : (List.range (entries t'.ip)).find? (fun k => (dirent t'.disk t'.ip k).inum ≠ 0 &&
        namecmp name (dirent t'.disk t'.ip k).name) = some e := by
      rw [List.find?_range_eq_some]
      refine ⟨?_, List.mem_range.2 he, fun j hj => ?_⟩
      · rw [← hde]
        exact hw
      · have hno := hfirst j (Nat.zero_le _) hj
        dsimp only at hno
        rw [hno]
        rfl
    rw [hsome]
    simp only [Option.map_some]
    rw [← hde, hoff]

/-- The inode that a list of names leads to from the inode `e` on. -/
def resolve (sb : Superblock) (d : Disk) : (e : Nat) → List Name → Option Nat
  | e, [] => some e
  | e, name :: rest =>
    if (dinode sb d e).type ≠ T_DIR then none
    else
      match find d (dinode sb d e) name with
      | none => none
      | some (e', _) => resolve sb d e' rest

/-- The directory that all names but the last lead to, and the last name. -/
def resolveParent (sb : Superblock) (d : Disk) (e : Nat) (names : List Name) :
    Option (Nat × Name) :=
  match names.getLast? with
  | none => none
  | some name =>
    match resolve sb d e names.dropLast with
    | none => none
    | some e' => if (dinode sb d e').type = T_DIR then some (e', name) else none

/-- The elements of a path: what stands between runs of slashes, cut to `DIRSIZ` bytes. -/
def splitPath (path : Path) : List Name :=
  ((path.splitOn slash).filter fun elem => elem ≠ []).map Name.ofList

theorem splitPath_slash {path : Path} : splitPath (slash :: path) = splitPath path := by
  simp [splitPath, List.splitOn, List.splitOnP_cons_eq_if_modifyHead]

theorem splitPath_dropWhile (path : Path) : splitPath (path.dropWhile (· = slash)) =
    splitPath path := by
  induction path with
  | nil => rfl
  | cons c path ih =>
    by_cases hc : c = slash
    · rw [List.dropWhile_cons_of_pos (by simpa using hc), ih, hc, splitPath_slash]
    · rw [List.dropWhile_cons_of_neg (by simpa using hc)]

theorem splitPath_elem {path : Path} (h : path.takeWhile (· ≠ slash) ≠ []) :
    splitPath path = Name.ofList (path.takeWhile (· ≠ slash)) ::
      splitPath (path.dropWhile (· ≠ slash)) := by
  have hno : ∀ x ∈ path.takeWhile (· ≠ slash), (x == slash) = false := fun x hx => by
    simpa using List.all_eq_true.1 List.all_takeWhile x hx
  have hpath := List.takeWhile_append_dropWhile (p := (· ≠ slash)) (l := path)
  cases hrest : path.dropWhile (· ≠ slash) with
  | nil =>
    rw [hrest, List.append_nil] at hpath
    have hone : path.splitOn slash = [path.takeWhile (· ≠ slash)] := by
      conv_lhs => rw [← hpath]
      exact List.splitOnP_eq_singleton hno
    rw [splitPath, hone, List.filter_cons_of_pos (by simpa using h)]
    rfl
  | cons c rest =>
    have hc : c = slash := by
      have := List.head?_dropWhile_not (· ≠ slash) path
      rw [hrest] at this
      simpa using this
    rw [hrest, hc] at hpath
    have hfirst : path.splitOn slash = path.takeWhile (· ≠ slash) :: rest.splitOn slash := by
      conv_lhs => rw [← hpath]
      exact List.splitOnP_append_cons_of_forall_mem hno slash (by simp) rest
    rw [hc, splitPath_slash]
    rw [splitPath, hfirst, List.filter_cons_of_pos (by simpa using h)]
    rfl

theorem elems_eq {n : Nat} {path : Path} (h : path.length ≤ n) : elems n path = splitPath path := by
  induction n generalizing path with
  | zero =>
    obtain rfl : path = [] := List.length_eq_zero_iff.1 (by omega)
    rfl
  | succ n ih =>
    have hle := (List.dropWhile_suffix (l := path) (· = slash)).length_le
    unfold elems skipelem
    rw [← splitPath_dropWhile path]
    cases hd : path.dropWhile (· = slash) with
    | nil => rfl
    | cons c cs =>
      have hc : c ≠ slash := by
        have := List.head?_dropWhile_not (· = slash) path
        rw [hd] at this
        simpa using this
      have hne : (c :: cs).takeWhile (· ≠ slash) ≠ [] := by
        rw [List.takeWhile_cons_of_pos (by simpa using hc)]
        exact List.cons_ne_nil _ _
      rw [splitPath_elem hne, ← splitPath_dropWhile ((c :: cs).dropWhile (· ≠ slash))]
      dsimp only
      rw [ih]
      have h1 :=
        (List.dropWhile_suffix (l := (c :: cs).dropWhile (· ≠ slash)) (· = slash)).length_le
      have h2 := (List.dropWhile_suffix (l := cs) (· ≠ slash)).length_le
      rw [List.dropWhile_cons_of_pos (by simpa using hc)] at h1 ⊢
      rw [hd, List.length_cons] at hle
      omega

/-! ## The state during a walk -/

/-- The inode `e` has a link, or somebody refers to it. -/
def Safe (sb : Superblock) (s : FsSt π) (e : Nat) : Prop :=
  (dinode sb s.disk e).nlink ≠ 0 ∨ ∃ j, 0 < (s.inode j).ref ∧ (s.inode j).inum = e

/-- The inode `e` is in use, and dropping a reference that was taken in between does not free it. -/
structure Target (sb : Superblock) (s : FsSt π) (e : Nat) : Prop where
  pos : 0 < e
  lt : e < sb.ninodes.toNat
  type : (dinode sb s.disk e).type ≠ 0
  safe : Safe sb s e

/-- A well-formed tree, and an inode cache that agrees with the disk: the directories consist of
entries, and what they name is in use, as are the root and the inodes that somebody refers to. -/
structure Tree (sb : Superblock) (s : FsSt π) : Prop where
  own : Owner sb s.disk
  cache : Cache sb s.disk s.inode
  unlocked : ∀ j, (s.inode j).lock = none
  root : Target sb s ROOTINO
  cached : ∀ j, 0 < (s.inode j).ref → (dinode sb s.disk (s.inode j).inum).type ≠ 0
  whole : ∀ e < sb.ninodes.toNat, (dinode sb s.disk e).type = T_DIR →
    (dinode sb s.disk e).size.toNat % 16 = 0
  entry : ∀ e < sb.ninodes.toNat, (dinode sb s.disk e).type = T_DIR →
    ∀ k < entries (dinode sb s.disk e), (dirent s.disk (dinode sb s.disk e) k).inum ≠ 0 →
      Target sb s (dirent s.disk (dinode sb s.disk e) k).inum.toNat

theorem Tree.congr (h : Tree sb s) (hd : s'.disk = s.disk) (hi : s'.inode = s.inode) :
    Tree sb s' := by
  have htarget : ∀ {e}, Target sb s e → Target sb s' e := fun ht => by
    refine ⟨ht.pos, ht.lt, by rw [hd]; exact ht.type, ?_⟩
    rw [Safe, hd, hi]
    exact ht.safe
  refine ⟨?_, ?_, ?_, htarget h.root, ?_, ?_, ?_⟩ <;> simp only [hd, hi]
  · exact h.own
  · exact h.cache
  · exact h.unlocked
  · exact h.cached
  · exact h.whole
  · exact fun e he hdir k hk hne => htarget (h.entry e he hdir k hk hne)

/-- From `s0` to `s` references to the slots `held` have been taken, and slot `l` has been
locked. -/
structure Walk (sb : Superblock) (s0 s : FsSt π) (held : List Slot) (l : Option Slot) : Prop where
  disk : s.disk = s0.disk
  file : s.file = s0.file
  proc : s.proc = s0.proc
  cache : Cache sb s.disk s.inode
  refs : ∀ j, (s.inode j).ref = (s0.inode j).ref + held.count j
  same : ∀ j, 0 < (s0.inode j).ref → (s.inode j).inum = (s0.inode j).inum
  locks : ∀ j, (s.inode j).lock = none ↔ l ≠ some j

theorem Walk.refl (h : Tree sb s) : Walk sb s s [] none :=
  ⟨rfl, rfl, rfl, h.cache, fun _ => rfl, fun _ _ => rfl,
    fun j => ⟨fun _ => nofun, fun _ => h.unlocked j⟩⟩

theorem Walk.congr (h : Walk sb s0 s held l) (hd : s'.disk = s.disk) (hi : s'.inode = s.inode)
    (hf : s'.file = s.file) (hp : s'.proc = s.proc) : Walk sb s0 s' held l := by
  refine ⟨hd.trans h.disk, hf.trans h.file, hp.trans h.proc, ?_, ?_, ?_, ?_⟩
  · rw [hd, hi]
    exact h.cache
  · rw [hi]
    exact h.refs
  · rw [hi]
    exact h.same
  · rw [hi]
    exact h.locks

theorem Walk.held_pos (h : Walk sb s0 s held l) (hi : i ∈ held) : 0 < (s.inode i).ref := by
  have := List.count_pos_iff.2 hi
  rw [h.refs i]
  omega

theorem Walk.perm (h : Walk sb s0 s held l) (hp : held.Perm held') : Walk sb s0 s held' l :=
  ⟨h.disk, h.file, h.proc, h.cache, fun j => by rw [h.refs j, hp.count_eq], h.same, h.locks⟩

theorem Walk.set {x : Inode π} (h : Walk sb s0 s held l) (hdev : x.dev = (s.inode i).dev)
    (hinum : x.inum = (s.inode i).inum) (hpos : 0 < x.ref → 0 < (s.inode i).ref)
    (hd : 0 < x.ref → x.valid = true → x.d = dinode sb s.disk x.inum ∧ x.d.type ≠ 0)
    (href : x.ref = (s0.inode i).ref + held'.count i)
    (hother : ∀ j ≠ i, held'.count j = held.count j)
    (hlock : x.lock = none ↔ l' ≠ some i) (hl : ∀ j ≠ i, l' = some j ↔ l = some j) :
    Walk sb s0 (s.setInode i x) held' l' := by
  refine ⟨h.disk, h.file, h.proc, h.cache.setSame hdev hinum hpos hd, fun j => ?_, fun j hj => ?_,
    fun j => ?_⟩
  · by_cases hji : j = i
    · subst hji
      simpa [FsSt.setInode] using href
    · simp only [FsSt.setInode, update_of_ne hji]
      rw [h.refs j, hother j hji]
  · by_cases hji : j = i
    · subst hji
      simp only [FsSt.setInode, Function.update_self]
      rw [hinum, h.same j hj]
    · simp only [FsSt.setInode, update_of_ne hji]
      exact h.same j hj
  · by_cases hji : j = i
    · subst hji
      simpa [FsSt.setInode] using hlock
    · simp only [FsSt.setInode, update_of_ne hji]
      rw [h.locks j]
      exact not_congr (hl j hji).symm

def Crowded (s : FsSt π) : Prop := ∀ a b, (s.inode a).ref = 0 → (s.inode b).ref = 0 → a = b

/-! ## The actions of a walk -/

variable [DecidableEq π] {E : Prop}

theorem inum_set {x : Inode π} {n : Note} (h : x.inum = (s.inode i).inum) :
    (((s.setInode i x).setNote p n).inode j).inum = (s.inode j).inum := by
  by_cases hji : j = i
  · subst hji
    simpa [FsSt.setInode, FsSt.setNote] using h
  · simp [FsSt.setInode, FsSt.setNote, hji]

theorem ends_iget (h : Walk sb s0 s held l) (hlen : held.length ≤ 1) (hpos : 0 < e)
    (hlt : e < sb.ninodes.toNat) :
    (iget e).ends p (Crowded s0) (fun i s' => Walk sb s0 s' (i :: held) l ∧ (s'.inode i).inum = e ∧
      ∀ j, 0 < (s.inode j).ref → (s'.inode j).inum = (s.inode j).inum) s := by
  cases hfind : findInode s e with
  | some i =>
    obtain ⟨hi, -, he⟩ := findInode_some hfind
    refine ends_step (by rw [hfind]) ⟨?_, ?_, fun j _ => ?_⟩
    · have hset : Walk sb s0 (s.setInode i { s.inode i with ref := (s.inode i).ref + 1 })
        (i :: held) l := by
        refine h.set rfl rfl (fun _ => hi) (fun _ => h.cache.coherent i hi) ?_ (fun j hj => ?_)
          (h.locks i) fun _ _ => Iff.rfl
        · dsimp only
          rw [h.refs i, List.count_cons_self, Nat.add_assoc]
        · exact List.count_cons_of_ne hj.symm
      exact hset.congr rfl rfl rfl rfl
    · simpa [FsSt.setInode, FsSt.setNote] using he
    · exact inum_set rfl
  | none =>
    have hno := h.cache.not_found hfind
    cases hempty : findEmpty s with
    | some i =>
      have hi := findEmpty_some hempty
      have hi0 : (s0.inode i).ref = 0 ∧ held.count i = 0 := by
        have := h.refs i
        omega
      refine ends_step (by rw [hfind, hempty]) ⟨?_, ?_, fun j hj => ?_⟩
      · refine ⟨h.disk, h.file, h.proc, h.cache.set fun _ => ?_, fun j => ?_, fun j hj => ?_,
          fun j => ?_⟩
        · exact ⟨rfl, hpos, hlt, fun j _ hj => hno j hj, fun hv => absurd hv Bool.false_ne_true⟩
        · by_cases hji : j = i
          · subst hji
            simp [FsSt.setInode, FsSt.setNote, hi0.1, hi0.2]
          · simp only [FsSt.setInode, FsSt.setNote, update_of_ne hji]
            rw [h.refs j, List.count_cons_of_ne (fun hc => hji hc.symm)]
        · have hji : j ≠ i := fun hc => by
            rw [hc, hi0.1] at hj
            omega
          simp only [FsSt.setInode, FsSt.setNote, update_of_ne hji]
          exact h.same j hj
        · by_cases hji : j = i
          · subst hji
            simpa [FsSt.setInode, FsSt.setNote] using h.locks j
          · simp only [FsSt.setInode, FsSt.setNote, update_of_ne hji]
            exact h.locks j
      · simp [FsSt.setInode, FsSt.setNote]
      · have hji : j ≠ i := fun hc => by
          rw [hc, hi] at hj
          omega
        simp [FsSt.setInode, FsSt.setNote, hji]
    | none =>
      refine Prog.ends_excuse ?_ ?_
      · simp only [iget, Prog.step, Prog.run, hfind, hempty]
      · -- every slot that was free is held
        intro a b ha hb
        have hused : ∀ c, (s0.inode c).ref = 0 → c ∈ held := by
          intro c hc
          have hz := List.find?_eq_none.1 hempty c (List.mem_finRange c)
          have := h.refs c
          rw [hc] at this
          refine List.count_pos_iff.1 (Nat.pos_of_ne_zero fun h0 => hz ?_)
          rw [this, h0]
          rfl
        have hone := hused a ha
        have htwo := hused b hb
        rcases held with _ | ⟨c, _ | ⟨d, t⟩⟩
        · cases hone
        · rw [List.mem_singleton.1 hone, List.mem_singleton.1 htwo]
        · simp at hlen

theorem ends_idupCwd {c : Slot} (h : Walk sb s0 s held l) (hcwd : (s.proc p).cwd = some c)
    (hc : 0 < (s0.inode c).ref) :
    (idupCwd).ends p E (fun i s' => Walk sb s0 s' (i :: held) l ∧
      (s'.inode i).inum = (s0.inode c).inum) s := by
  have hpos : 0 < (s.inode c).ref := by
    rw [h.refs c]
    omega
  refine ends_step (by rw [hcwd]) ⟨?_, ?_⟩
  · have hset : Walk sb s0 (s.setInode c { s.inode c with ref := (s.inode c).ref + 1 })
      (c :: held) l := by
      refine h.set rfl rfl (fun _ => hpos) (fun _ => h.cache.coherent c hpos) ?_ (fun j hj => ?_)
        (h.locks c) fun _ _ => Iff.rfl
      · dsimp only
        rw [h.refs c, List.count_cons_self, Nat.add_assoc]
      · exact List.count_cons_of_ne hj.symm
    exact hset.congr rfl rfl rfl rfl
  · simpa [FsSt.setInode, FsSt.setNote] using h.same c hc

/-- The inode in slot `i`, as `ilock` leaves it. -/
def Loaded (sb : Superblock) (i : Slot) (s : FsSt π) : Prop :=
  (s.inode i).d = dinode sb s.disk (s.inode i).inum

theorem ends_ilock (h : Walk sb s0 s held none) (hi : i ∈ held)
    (ht : (dinode sb s0.disk (s.inode i).inum).type ≠ 0) :
    (ilock sb i).ends p E (fun _ s' => Walk sb s0 s' held (some i) ∧ Loaded sb i s' ∧
      ∀ j, (s'.inode j).inum = (s.inode j).inum) s := by
  have hpos := h.held_pos hi
  have hlock : (s.inode i).lock = none := (h.locks i).2 nofun
  have hset : ∀ v d, (v = true → d = dinode sb s.disk (s.inode i).inum ∧ d.type ≠ 0) →
      Walk sb s0 (s.setInode i { s.inode i with lock := some p, valid := v, d := d }) held
        (some i) := by
    intro v d hd
    refine h.set rfl rfl (fun _ => hpos) (fun _ => hd) (h.refs i) (fun _ _ => rfl) ?_ fun j hj => ?_
    · exact ⟨nofun, fun hc => absurd rfl hc⟩
    · simp [hj.symm]
  rw [← h.disk] at ht
  by_cases hv : (s.inode i).valid = true
  · have hd := h.cache.coherent i hpos hv
    refine ends_step (by rw [if_neg (by omega), hlock]; dsimp only; rw [if_pos hv]) ⟨?_, ?_, ?_⟩
    · exact (hset _ _ fun _ => hd).congr rfl rfl rfl rfl
    · simpa [Loaded, FsSt.setInode, FsSt.setNote] using hd.1
    · exact fun j => inum_set rfl
  · refine ends_step (by rw [if_neg (by omega), hlock]; dsimp only; rw [if_neg hv, if_neg ht])
      ⟨?_, ?_, ?_⟩
    · exact (hset _ _ fun _ => ⟨rfl, ht⟩).congr rfl rfl rfl rfl
    · simp [Loaded, FsSt.setInode, FsSt.setNote]
    · exact fun j => inum_set rfl

theorem ends_iunlock (h : Walk sb s0 s held (some i)) (hi : i ∈ held) :
    (iunlock i).ends p E (fun _ s' => Walk sb s0 s' held none ∧
      ∀ j, (s'.inode j).inum = (s.inode j).inum) s := by
  have hpos := h.held_pos hi
  have hlock : (s.inode i).lock ≠ none := fun hc => (h.locks i).1 hc rfl
  refine ends_step (if_neg (by rw [not_or]; exact ⟨hlock, by omega⟩)) ⟨?_, fun j => ?_⟩
  · have hset : Walk sb s0 (s.setInode i { s.inode i with lock := none }) held none := by
      refine h.set rfl rfl (fun _ => hpos) (fun _ => h.cache.coherent i hpos) (h.refs i)
        (fun _ _ => rfl) ⟨fun _ => nofun, fun _ => rfl⟩ fun j hj => ?_
      simp [hj.symm]
    exact hset.congr rfl rfl rfl rfl
  · exact inum_set rfl

omit [DecidableEq π] in
theorem Walk.not_last (h : Walk sb s0 s held l) (hi : i ∈ held)
    (hsafe : Safe sb s0 (s.inode i).inum)
    (hv : (s.inode i).valid = true) (hn : (s.inode i).d.nlink = 0) : (s.inode i).ref ≠ 1 := by
  have hpos := h.held_pos hi
  rcases hsafe with hlink | ⟨j, hj, hje⟩
  · rw [(h.cache.coherent i hpos hv).1, h.disk] at hn
    exact absurd hn hlink
  · have hjs : 0 < (s.inode j).ref := by
      rw [h.refs j]
      omega
    obtain rfl := h.cache.uniq i j hpos hjs (by rw [h.same j hj, hje])
    have := List.count_pos_iff.2 hi
    rw [h.refs i]
    omega

theorem ends_iput (h : Walk sb s0 s (i :: held) none) (hsafe : Safe sb s0 (s.inode i).inum) :
    (iput sb i).ends p E (fun _ s' => Walk sb s0 s' held none ∧
      ∀ j, (s'.inode j).inum = (s.inode j).inum) s := by
  have hi : i ∈ i :: held := List.mem_cons_self
  have hpos := h.held_pos hi
  have hlock : (s.inode i).lock = none := (h.locks i).2 nofun
  unfold iput
  -- the lock
  refine ends_bind (Q := fun u s1 => Walk sb s0 s1 (i :: held) (some i) ∧
    (∀ j, (s1.inode j).inum = (s.inode j).inum) ∧ (u = true → (s1.inode i).ref ≠ 1)) ?_ ?_
  · refine ends_step (by rw [hlock]) ⟨?_, fun j => ?_, fun hu => ?_⟩
    · have hset : Walk sb s0 (s.setInode i { s.inode i with lock := some p }) (i :: held)
        (some i) := by
        refine h.set rfl rfl (fun _ => hpos) (fun _ => h.cache.coherent i hpos) (h.refs i)
          (fun _ _ => rfl) ⟨nofun, fun hc => absurd rfl hc⟩ fun j hj => ?_
        simp [hj.symm]
      exact hset.congr rfl rfl rfl rfl
    · exact inum_set rfl
    · simp only [Bool.and_eq_true, beq_iff_eq] at hu
      simpa [FsSt.setInode, FsSt.setNote] using h.not_last hi hsafe hu.1 hu.2
  rintro u s1 ⟨h1, hinum1, href1⟩
  -- the inode is not freed
  refine ends_bind (Q := fun _ s2 => Walk sb s0 s2 (i :: held) (some i) ∧
    ∀ j, (s2.inode j).inum = (s.inode j).inum) ?_ ?_
  · unfold iputDecide
    cases u with
    | false => exact ends_ret ⟨h1, hinum1⟩
    | true =>
      refine ends_bind (Q := fun r s2 => (Walk sb s0 s2 (i :: held) (some i) ∧
        ∀ j, (s2.inode j).inum = (s.inode j).inum) ∧ r ≠ 1)
        (ends_step rfl ⟨⟨h1.congr rfl rfl rfl rfl, hinum1⟩, href1 rfl⟩) ?_
      rintro r s2 ⟨h2, hr⟩
      rw [if_neg hr]
      exact ends_ret h2
  rintro _ s2 ⟨h2, hinum2⟩
  refine ends_bind (Q := fun _ s3 => Walk sb s0 s3 (i :: held) none ∧
    ∀ j, (s3.inode j).inum = (s.inode j).inum) ?_ ?_
  · refine ends_step rfl ⟨?_, fun j => ?_⟩
    · have hpos2 := h2.held_pos hi
      have hset : Walk sb s0 (s2.setInode i { s2.inode i with lock := none }) (i :: held) none := by
        refine h2.set rfl rfl (fun _ => hpos2) (fun _ => h2.cache.coherent i hpos2) (h2.refs i)
          (fun _ _ => rfl) ⟨fun _ => nofun, fun _ => rfl⟩ fun j hj => ?_
        simp [hj.symm]
      exact hset.congr rfl rfl rfl rfl
    · rw [← hinum2 j]
      exact inum_set rfl
  rintro _ s3 ⟨h3, hinum3⟩
  refine ends_step rfl ⟨?_, fun j => ?_⟩
  · have hpos3 := h3.held_pos hi
    have hset : Walk sb s0 (s3.setInode i { s3.inode i with ref := (s3.inode i).ref - 1 })
      held none := by
      refine h3.set rfl rfl (fun _ => hpos3) (fun _ => h3.cache.coherent i hpos3) ?_
        (fun j hj => ?_)
        (h3.locks i) fun _ _ => Iff.rfl
      · dsimp only
        rw [h3.refs i, List.count_cons_self]
        omega
      · exact (List.count_cons_of_ne hj.symm).symm
    exact hset.congr rfl rfl rfl rfl
  · rw [← hinum3 j]
    exact inum_set rfl

theorem ends_iunlockput (h : Walk sb s0 s (i :: held) (some i))
    (hsafe : Safe sb s0 (s.inode i).inum) :
    (iunlockput sb i).ends p E (fun _ s' => Walk sb s0 s' held none ∧
      ∀ j, (s'.inode j).inum = (s.inode j).inum) s := by
  unfold iunlockput
  refine ends_bind (ends_iunlock h List.mem_cons_self) fun _ s1 ⟨h1, hinum⟩ => ?_
  refine Prog.ends_mono (ends_iput h1 (by rw [hinum]; exact hsafe)) fun _ s2 ⟨h2, hinum2⟩ => ?_
  exact ⟨h2, fun j => (hinum2 j).trans (hinum j)⟩

theorem ends_dirscan (hsb : sb.Ok) (ht : Tree sb s0) (h : Walk sb s0 s held (some dp))
    (hdp : dp ∈ held)
    (hd : Loaded sb dp s) (hdir : (s.inode dp).d.type = T_DIR) :
    (dirscan sb dp name).ends p E (fun r s' => (Walk sb s0 s' held (some dp) ∧
      ∀ j, (s'.inode j).inum = (s.inode j).inum) ∧
      r = find s0.disk (dinode sb s0.disk (s.inode dp).inum) name) s := by
  have hpos := h.held_pos hdp
  have hlt := (h.cache.slots dp hpos).2.2
  have hd0 : (s.inode dp).d = dinode sb s0.disk (s.inode dp).inum := by
    rw [hd, h.disk]
  have hwhole : Whole sb (s.inode dp).inum (s.before dp) := by
    refine ⟨?_, hd.symm, hdir, ?_⟩
    · rw [show (s.before dp).disk = s0.disk from h.disk]
      exact ht.own
    · rw [show (s.before dp).ip = _ from hd0]
      exact ht.whole _ hlt (by rw [← hd0]; exact hdir)
  have hlook : lookup sb name ⟨s.disk, (s.inode dp).d, [], []⟩ =
      .ok (find s.disk (s.inode dp).d name, ⟨s.disk, (s.inode dp).d, [], []⟩) :=
        hwhole.lookup_eq hsb hlt
  rw [← h.disk, ← hd]
  unfold Prog.ends
  cases hf : find s.disk (s.inode dp).d name with
  | none =>
    simp only [dirscan, Prog.step, Prog.run, hlook, hf]
    exact ⟨⟨h.congr rfl rfl rfl rfl, fun _ => trivial⟩, trivial⟩
  | some q =>
    simp only [dirscan, Prog.step, Prog.run, hlook, hf]
    exact ⟨⟨h.congr rfl rfl rfl rfl, fun _ => rfl⟩, trivial⟩

/-! ## The walk -/

/-- What the loop of `namex` comes to from the inode `e` on. -/
def walkTo (sb : Superblock) (d : Disk) (parent : Bool) :
    (e : Nat) → List Name → Option (Nat × Name)
  | e, [] => if parent then none else some (e, dot)
  | e, name :: rest =>
    if (dinode sb d e).type ≠ T_DIR then none
    else if parent ∧ rest = [] then some (e, name)
    else
      match find d (dinode sb d e) name with
      | none => none
      | some (e', _) => walkTo sb d parent e' rest

omit [DecidableEq π] in
theorem Tree.target {q : Nat × Nat} (ht : Tree sb s) (he : e < sb.ninodes.toNat)
    (hdir : (dinode sb s.disk e).type = T_DIR)
    (hf : find s.disk (dinode sb s.disk e) name = some q) : Target sb s q.1 := by
  obtain ⟨k, hk, rfl⟩ := Option.map_eq_some_iff.1 hf
  have hmem := List.mem_range.1 (List.mem_of_find?_eq_some hk)
  have hne := List.find?_some hk
  simp only [Bool.and_eq_true, decide_eq_true_eq] at hne
  exact ht.entry e he hdir k hmem hne.1

/-- What `dirlookup` in the locked directory `dp` has come to. -/
def LookedUp (sb : Superblock) (s0 : FsSt π) (dp : Slot) (name : Name) (s : FsSt π)
    (r : Option (Slot × Nat)) (s' : FsSt π) : Prop :=
  (s'.inode dp).inum = (s.inode dp).inum ∧
  match r with
  | none => Walk sb s0 s' [dp] (some dp) ∧
      find s0.disk (dinode sb s0.disk (s.inode dp).inum) name = none
  | some (i, off) => Walk sb s0 s' [i, dp] (some dp) ∧
      find s0.disk (dinode sb s0.disk (s.inode dp).inum) name = some ((s'.inode i).inum, off)

theorem ends_dirlookup (hsb : sb.Ok) (ht : Tree sb s0) (h : Walk sb s0 s [dp] (some dp))
    (hd : Loaded sb dp s) (hdir : (s.inode dp).d.type = T_DIR) :
    (dirlookup sb dp name).ends p (Crowded s0) (LookedUp sb s0 dp name s) s := by
  have hpos := h.held_pos (List.mem_singleton_self dp)
  have hlt := (h.cache.slots dp hpos).2.2
  unfold dirlookup
  refine ends_bind (ends_dirscan hsb ht h (List.mem_singleton_self dp) hd hdir) ?_
  rintro r s1 ⟨⟨h1, hinum1⟩, hr⟩
  cases r with
  | none => exact ends_ret ⟨hinum1 dp, h1, hr.symm⟩
  | some q =>
    have hdir0 : (dinode sb s0.disk (s.inode dp).inum).type = T_DIR := by
      rw [← h.disk, ← hd]
      exact hdir
    have htarget := ht.target hlt hdir0 hr.symm
    refine ends_bind (ends_iget h1 le_rfl htarget.pos htarget.lt) ?_
    rintro i s2 ⟨h2, hi, hsame⟩
    refine ends_ret ⟨?_, h2, ?_⟩
    · rw [hsame dp (h1.held_pos (List.mem_singleton_self dp)), hinum1]
    · rw [hi]
      exact hr.symm

/-- The outcome of a walk from `s0`: a reference to the inode that is answered, and nothing else. -/
def Arrived (sb : Superblock) (s0 : FsSt π) (spec : Option (Nat × Name)) (r : Option (Slot × Name))
    (s : FsSt π) : Prop :=
  match r with
  | none => Walk sb s0 s [] none ∧ spec = none
  | some (i, name) => Walk sb s0 s [i] none ∧ spec = some ((s.inode i).inum, name)

theorem ends_walkFrom (hsb : sb.Ok) (ht : Tree sb s0) (parent : Bool) (h : Walk sb s0 s [i] none)
    (htarget : Target sb s0 (s.inode i).inum) :
    (walkFrom sb parent i names).ends p (Crowded s0)
      (Arrived sb s0 (walkTo sb s0.disk parent (s.inode i).inum names)) s := by
  induction names generalizing i s with
  | nil =>
    unfold walkFrom walkTo
    cases parent with
    | true =>
      refine ends_bind (ends_iput h htarget.safe) fun _ s1 h1 => ?_
      exact ends_ret ⟨h1.1, rfl⟩
    | false => exact ends_ret ⟨h, rfl⟩
  | cons name rest ih =>
    unfold walkFrom walkTo
    refine ends_bind (ends_ilock h List.mem_cons_self htarget.type) ?_
    rintro _ s1 ⟨h1, hd, hinum⟩
    have hsafe : Safe sb s0 (s1.inode i).inum := by
      rw [hinum]
      exact htarget.safe
    have htype : (s1.inode i).d.type = (dinode sb s0.disk (s.inode i).inum).type := by
      rw [hd, hinum, h1.disk]
    refine ends_bind (Q := fun t s2 => t = (s1.inode i).d.type ∧ Walk sb s0 s2 [i] (some i) ∧
      s2.inode = s1.inode ∧ s2.disk = s1.disk)
      (ends_step rfl ⟨rfl, h1.congr rfl rfl rfl rfl, rfl, rfl⟩) ?_
    rintro t s2 ⟨rfl, h2, hinode, hdisk⟩
    rw [htype]
    by_cases hdir : (dinode sb s0.disk (s.inode i).inum).type = T_DIR
    · rw [if_neg (not_not.2 hdir), if_neg (not_not.2 hdir)]
      by_cases hlast : parent = true ∧ rest = []
      · rw [if_pos hlast, if_pos hlast]
        refine ends_bind (ends_iunlock h2 List.mem_cons_self) fun _ s3 ⟨h3, hinum3⟩ => ?_
        refine ends_ret ⟨h3, ?_⟩
        rw [hinum3, hinode, hinum]
      · rw [if_neg hlast, if_neg hlast]
        have hd2 : Loaded sb i s2 := by
          unfold Loaded
          rw [hinode, hdisk]
          exact hd
        have hdir2 : (s2.inode i).d.type = T_DIR := by
          rw [hinode, htype, hdir]
        refine ends_bind (ends_dirlookup hsb ht h2 hd2 hdir2) ?_
        rintro r s3 ⟨hinum3, hr⟩
        rw [hinode, hinum] at hinum3 hr
        have hsafe3 : Safe sb s0 (s3.inode i).inum := by
          rw [hinum3]
          exact htarget.safe
        cases r with
        | none =>
          dsimp only at hr ⊢
          rw [hr.2]
          refine ends_bind (ends_iunlockput hr.1 hsafe3) fun _ s4 h4 => ?_
          exact ends_ret ⟨h4.1, rfl⟩
        | some q =>
          obtain ⟨h3, hfind⟩ := hr
          have hnext := ht.target htarget.lt hdir hfind
          rw [hfind]
          dsimp only
          refine ends_bind (ends_iunlockput (h3.perm (List.Perm.swap i q.1 [])) hsafe3) ?_
          rintro _ s4 ⟨h4, hinum4⟩
          have hnum : (s4.inode q.1).inum = (s3.inode q.1).inum := hinum4 q.1
          rw [← hnum] at hnext ⊢
          exact ih h4 hnext
    · rw [if_pos hdir, if_pos hdir]
      refine ends_bind (ends_iunlockput h2 (by rw [hinode]; exact hsafe)) fun _ s3 h3 => ?_
      exact ends_ret ⟨h3.1, rfl⟩

theorem ends_namex {c : Slot} {path : Path} (hsb : sb.Ok) (ht : Tree sb s) (parent : Bool)
    (hcwd : (s.proc p).cwd = some c) (hc : 0 < (s.inode c).ref) :
    (namex sb parent path).ends p (Crowded s) (Arrived sb s (walkTo sb s.disk parent
      (if path.head? = some slash then ROOTINO else (s.inode c).inum) (splitPath path))) s := by
  have h := Walk.refl ht
  have hcwdTarget : Target sb s (s.inode c).inum := by
    obtain ⟨-, hpos, hlt⟩ := h.cache.slots c hc
    exact ⟨hpos, hlt, ht.cached c hc, .inr ⟨c, hc, rfl⟩⟩
  unfold namex startOf
  rw [elems_eq le_rfl]
  by_cases habs : path.head? = some slash
  · rw [if_pos habs, if_pos habs]
    refine ends_bind (ends_iget h (Nat.zero_le _) ht.root.pos ht.root.lt) ?_
    rintro i s1 ⟨h1, hi, -⟩
    have hroot := ht.root
    rw [← hi] at hroot ⊢
    exact ends_walkFrom hsb ht parent h1 hroot
  · rw [if_neg habs, if_neg habs]
    refine ends_bind (ends_idupCwd h hcwd hc) ?_
    rintro i s1 ⟨h1, hi⟩
    rw [← hi] at hcwdTarget ⊢
    exact ends_walkFrom hsb ht parent h1 hcwdTarget

/-! ## The answer -/

theorem walkTo_false {d : Disk} :
    walkTo sb d false e names = (resolve sb d e names).map (·, dot) := by
  induction names generalizing e with
  | nil => rfl
  | cons name rest ih =>
    unfold walkTo resolve
    split
    · rfl
    · rw [if_neg (by simp)]
      cases find d (dinode sb d e) name with
      | none => rfl
      | some q => exact ih

theorem walkTo_true {d : Disk} : walkTo sb d true e names = resolveParent sb d e names := by
  induction names generalizing e with
  | nil => rfl
  | cons name rest ih =>
    unfold walkTo
    cases rest with
    | nil =>
      by_cases hdir : (dinode sb d e).type = T_DIR
      · simp [resolveParent, resolve, hdir]
      · simp [resolveParent, resolve, hdir]
    | cons name' rest =>
      rw [if_neg (fun hc : true = true ∧ name' :: rest = [] => List.cons_ne_nil _ _ hc.2)]
      have hlast : (name :: name' :: rest).getLast? = (name' :: rest).getLast? :=
        List.getLast?_cons_cons
      unfold resolveParent at ih ⊢
      rw [hlast, List.dropLast_cons_cons]
      cases hx : (name' :: rest).getLast? with
      | none => exact absurd (List.getLast?_eq_none_iff.1 hx) (List.cons_ne_nil _ _)
      | some x =>
        rw [hx] at ih
        dsimp only at ih ⊢
        rw [resolve]
        by_cases hdir : (dinode sb d e).type = T_DIR
        · rw [if_neg (not_not.2 hdir), if_neg (not_not.2 hdir)]
          cases find d (dinode sb d e) name with
          | none => rfl
          | some q => exact ih
        · rw [if_pos hdir, if_pos hdir]

/-- Nothing has changed but for a reference to the inode that is answered. -/
structure OneRef (s : FsSt π) (r : Option Slot) (s' : FsSt π) : Prop where
  disk : s'.disk = s.disk
  refs : ∀ j, (s'.inode j).ref = (s.inode j).ref + if r = some j then 1 else 0
  unlocked : ∀ j, (s'.inode j).lock = none

omit [DecidableEq π] in
theorem Walk.oneRef {r : Option Slot} (h : Walk sb s s' r.toList none) : OneRef s r s' := by
  refine ⟨h.disk, fun j => ?_, fun j => (h.locks j).2 nofun⟩
  rw [h.refs j]
  cases r with
  | none => rfl
  | some i =>
    by_cases hji : j = i
    · simp [hji]
    · rw [if_neg (fun hc => hji (Option.some.inj hc).symm)]
      simp [Ne.symm hji]

/-- `namei` and `nameiparent` run alone, in a well-formed tree and by a process whose current
directory is in slot `c`: what they answer is what the elements of the path lead to, from the root
or the current directory on, and apart from the reference to the inode that is answered the cache is
left as it was. They do not return only if there are not two free slots in the inode cache. -/
theorem path_resolution {c : Slot} (hsb : sb.Ok) (ht : Tree sb s) (hcwd : (s.proc p).cwd = some c)
    (hc : 0 < (s.inode c).ref) (path : Path) :
    (namei sb path).ends p (Crowded s) (fun r s' =>
      r.map (fun i => (s'.inode i).inum) = resolve sb s.disk
        (if path.head? = some slash then ROOTINO else (s.inode c).inum) (splitPath path) ∧
      OneRef s r s') s ∧
    (nameiparent sb path).ends p (Crowded s) (fun r s' =>
      r.map (fun x => ((s'.inode x.1).inum, x.2)) = resolveParent sb s.disk
        (if path.head? = some slash then ROOTINO else (s.inode c).inum) (splitPath path) ∧
      OneRef s (r.map Prod.fst) s') s := by
  constructor
  · refine ends_bind (ends_namex hsb ht false hcwd hc) fun r s' harr => ?_
    rw [walkTo_false] at harr
    cases r with
    | none => exact ends_ret ⟨(Option.map_eq_none_iff.1 harr.2).symm, harr.1.oneRef⟩
    | some q =>
      refine ends_ret ⟨?_, Walk.oneRef (r := some q.1) harr.1⟩
      obtain ⟨e, he, heq⟩ := Option.map_eq_some_iff.1 harr.2
      rw [he]
      exact congrArg some (congrArg Prod.fst heq).symm
  · refine Prog.ends_mono (ends_namex hsb ht true hcwd hc) fun r s' harr => ?_
    rw [walkTo_true] at harr
    cases r with
    | none => exact ⟨harr.2.symm, harr.1.oneRef⟩
    | some q => exact ⟨harr.2.symm, Walk.oneRef (r := some q.1) harr.1⟩

def rootDir : Dinode := ⟨T_DIR, 0, 0, 1, 0, fun _ => 0⟩

/-- A process in the root directory of a disk that is otherwise empty. -/
def rootFs : FsSt Unit where
  disk := freshDisk [(ROOTINO, rootDir)]
  inode := fun i => ⟨ROOTDEV, ROOTINO, if i = 0 then 1 else 0, none, false, rootDir⟩
  file := fun _ => ⟨.none, 0, false, false, 0, 0⟩
  proc := fun _ => ⟨true, some 0, fun _ => none⟩
  note := fun _ => Note.none
  stamp := fun _ => 0
  clock := 0
  given := []
  logged := []

theorem dinode_rootFs : dinode bigSb rootFs.disk ROOTINO = rootDir := by
  rw [show rootFs.disk = freshDisk [(ROOTINO, rootDir)] from rfl, freshDisk, dinode_putDinode,
    if_pos rfl]

/-- The process of `rootFs` on a disk whose directories have at most entries for inode 2. -/
theorem tree_of_owner {d : Disk} (hown : Owner bigSb d)
    (hroot : (dinode bigSb d ROOTINO).type ≠ 0 ∧ (dinode bigSb d ROOTINO).nlink ≠ 0)
    (hdir : ∀ e < 8, (dinode bigSb d e).size.toNat % 16 = 0 ∧
      ∀ k < entries (dinode bigSb d e), (dirent d (dinode bigSb d e) k).inum.toNat = 2 ∧
        (dinode bigSb d 2).type ≠ 0 ∧ (dinode bigSb d 2).nlink ≠ 0) :
    Tree bigSb { rootFs with disk := d } := by
  have hslot : ∀ i, 0 < (rootFs.inode i).ref → i = 0 := fun i hi => by
    by_contra h0
    simp [rootFs, h0] at hi
  refine ⟨hown, ⟨fun i _ => ⟨rfl, (by decide : 0 < 1), (by decide : 1 < 8)⟩,
    fun i j hi hj _ => by rw [hslot i hi, hslot j hj], fun i _ hv => absurd hv (by simp [rootFs])⟩,
    fun _ => rfl, ⟨by decide, by decide, hroot.1, .inl hroot.2⟩, fun j _ => hroot.1,
    fun e he _ => (hdir e he).1, fun e he _ k hk _ => ?_⟩
  obtain ⟨h2, htype, hlink⟩ := (hdir e he).2 k hk
  exact h2 ▸ ⟨by decide, by decide, htype, .inl hlink⟩

theorem tree_rootFs : Tree bigSb rootFs := by
  have hempty : ∀ x ∈ [(ROOTINO, rootDir)], x.2.Empty := by
    rintro x hx
    obtain rfl := List.mem_singleton.1 hx
    exact ⟨rfl, rfl⟩
  refine tree_of_owner (d := rootFs.disk) (owner_freshDisk (by decide) hempty) ?_
    fun e he => ?_
  · rw [dinode_rootFs]
    decide
  · unfold entries
    rw [show (dinode bigSb rootFs.disk e).size = 0 from (empty_freshDisk hempty he).1]
    exact ⟨rfl, fun k hk => absurd hk (Nat.not_lt_zero k)⟩

theorem addEntry_first {i : Nat} {t : InodeSt} (hi : i < 8) (h : Whole bigSb i t)
    (hsize : t.ip.size = 0) (hroom : 0 < room bigSb t.disk) (name : Name) (inum : Nat) :
    ∃ t', addEntry bigSb i name inum t = .ok ((), t') ∧ Section bigSb i t t' ∧
      EntrySet 0 ⟨BitVec.ofNat 16 inum, name⟩ t t' := by
  cases hadd : addEntry bigSb i name inum t with
  | error msg =>
    obtain ⟨-, ⟨hmax, -⟩ | ⟨-, -, hout⟩⟩ := (h.addEntry ok_bigSb hi name inum).error hadd
    · rw [hsize] at hmax
      exact absurd hmax (by decide)
    · rw [hsize, lacks, dataBlocks, hsize, if_neg fun hc => absurd hc.1 (by decide)] at hout
      exact absurd (lt_of_lt_of_le hroom (Nat.le_of_lt_succ hout)) (lt_irrefl 0)
  | ok r =>
    obtain ⟨hsec, e, he, -, -, hset⟩ :=
      (addEntry_spec ok_bigSb hi h.own h.inode h.allocated name inum).ok hadd
    rw [entries, hsize] at he
    obtain rfl : e = 0 := Nat.le_zero.1 he
    exact ⟨r.2, rfl, hsec, hset⟩

/-- The paths `/a` and `/a/b`, in a root directory with the entry `a` for another directory. -/
theorem path_resolution_root : ∃ t : InodeSt, ∃ i j s1 s2,
    dinode bigSb t.disk ROOTINO = t.ip ∧ dirent t.disk t.ip 0 = ⟨2, Name.ofList [97]⟩ ∧
    (namei bigSb [slash, 97]).run () { rootFs with disk := t.disk } = some (some i, s1) ∧
    (s1.inode i).inum = 2 ∧
    (nameiparent bigSb [slash, 97, slash, 98]).run () { rootFs with disk := t.disk } =
      some (some (j, Name.ofList [98]), s2) ∧ (s2.inode j).inum = 2 := by
  have hlt : ∀ x ∈ [(ROOTINO, rootDir), (2, rootDir)], x.1 < 8 := by decide
  have hempty : ∀ x ∈ [(ROOTINO, rootDir), (2, rootDir)], x.2.Empty := by
    simp [Dinode.Empty, rootDir]
  have hdir {e : Nat} (h : e = ROOTINO ∨ e = 2) :
      dinode bigSb (freshDisk [(ROOTINO, rootDir), (2, rootDir)]) e = rootDir := by
    obtain rfl | rfl := h <;> simp [freshDisk, dinode_putDinode]
  have hwhole : Whole bigSb ROOTINO
      ⟨freshDisk [(ROOTINO, rootDir), (2, rootDir)], rootDir, [], []⟩ :=
    ⟨owner_freshDisk hlt hempty, hdir (.inl rfl), rfl, rfl⟩
  obtain ⟨t, -, hsec, hset⟩ := addEntry_first (by decide) hwhole rfl
    (by rw [room_freshDisk hlt]; decide) (Name.ofList [97]) 2
  have hin : entries t.ip = 1 := by
    rw [hset.entries]
    decide
  have h2 : dinode bigSb t.disk 2 = rootDir :=
    (hsec.dinodes 2 (by decide) (by decide)).trans (hdir (.inr rfl))
  have hip : t.ip.type = T_DIR ∧ t.ip.nlink = 1 := by
    rw [hset.fields]
    exact ⟨rfl, rfl⟩
  have htree := tree_of_owner hsec.own (by rw [hsec.inode, hip.1, hip.2]; decide) fun e he => by
    by_cases her : e = ROOTINO
    · rw [her, hsec.inode, hset.size, hin]
      refine ⟨rfl, fun k hk => ?_⟩
      rw [Nat.lt_one_iff.1 hk, hset.entry, h2]
      decide
    · rw [hsec.dinodes e he her, entries, (empty_freshDisk hempty he).1]
      exact ⟨rfl, fun k hk => absurd hk (Nat.not_lt_zero k)⟩
  have ha : find t.disk t.ip (Name.ofList [97]) = some (2, 0) := by
    rw [find, hin, List.range_one, List.find?_cons_of_pos (by rw [hset.entry]; decide),
      Option.map_some, hset.entry]
    rfl
  have hres : resolve bigSb t.disk ROOTINO [Name.ofList [97]] = some 2 := by
    simp only [resolve, hsec.inode, hip.1, ha, ne_eq, not_true, if_false]
  have hpar : resolveParent bigSb t.disk ROOTINO [Name.ofList [97], Name.ofList [98]] =
      some (2, Name.ofList [98]) := by
    simp [resolveParent, hres, h2, rootDir]
  have hfree : ¬ Crowded { rootFs with disk := t.disk } := fun hc =>
    absurd (hc 1 2 rfl rfl) (by decide)
  obtain ⟨r, s1, hrun, hr, -⟩ := Prog.ends_run
    (path_resolution (p := ()) (c := 0) ok_bigSb htree rfl Nat.one_pos [slash, 97]).1 hfree
  obtain ⟨i, rfl, hi⟩ := Option.map_eq_some_iff.1 (hr.trans hres)
  obtain ⟨r, s2, hrun', hr', -⟩ := Prog.ends_run
    (path_resolution (p := ()) (c := 0) ok_bigSb htree rfl Nat.one_pos [slash, 97, slash, 98]).2
    hfree
  obtain ⟨⟨j, name⟩, rfl, hj⟩ := Option.map_eq_some_iff.1 (hr'.trans hpar)
  obtain ⟨hj, rfl⟩ := Prod.mk.inj hj
  exact ⟨t, i, j, s1, s2, hsec.inode, hset.entry, hrun, hi, hrun', hj⟩

end Xv6.Fs
