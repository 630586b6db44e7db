import Mathlib.Algebra.BigOperators.Group.Finset.Piecewise
import Xv6.Fs.Refs

/-!
# The references to cached inodes, under any interleaving

A slot of the inode cache is in use while somebody refers to it: an open file, a process that has
the inode as its current directory, or a variable of a system call that is under way. Here only
these references are counted. Nothing is assumed of the disk, so that what the actions do to inodes
and blocks does not matter. Of the panics only that of `iget` is looked at: it means that every slot
is in use.

No system call has more than three references in its variables.
-/

namespace Xv6.Fs.Demand

open Lib
open Function (update update_eq_self update_eq_self_iff update_idem update_of_ne update_self)
open Option (elim_some map_some)
open Multiset (card_cons count_cons mem_cons_self)

variable {π : Type} [DecidableEq π] [Fintype π] {p : π} {s s' : FsSt π} {i j : Slot} {f : FileId}
  {fd : Fd} {n : Note} {e : Nat}

/-! ## The invariant -/

def held (n : Note) : Multiset Slot := n.slots

def callRefs : Nat := 3

def Gone (x : Proc) (n : Note) : Prop :=
  x.live = false → held n = 0 ∧ x.cwd = none ∧ ∀ fd, x.ofile fd = none

theorem gone_of_live {x : Proc} (h : x.live = true) (n : Note) : Gone x n := fun hd =>
  absurd (h.symm.trans hd) (by decide)

/-- `ref` counts the references, a slot that is referred to keeps its inode, and `ref` of a file
counts its descriptors. -/
structure Inv (s : FsSt π) : Prop where
  refs : ∀ i, (s.inode i).ref = refsTo s.file s.proc s.note i
  toks : ∀ p, ∀ t ∈ (s.note p).toks, (s.inode t.1).inum = t.2
  opens : Opens s.file s.proc
  gone : ∀ p, Gone (s.proc p) (s.note p)
  few : ∀ p, (held (s.note p)).card ≤ callRefs

structure View where
  proc : Proc
  refs : Multiset Slot
  types : Fd → Option FdType

def view (p : π) (s : FsSt π) : View :=
  ⟨s.proc p, held (s.note p), fun fd => ((s.proc p).ofile fd).map fun f => (s.file f).type⟩

/-- Between two system calls a process has no reference in a variable, and the files it has open
have a type. -/
def Idle (v : View) : Prop := v.refs = 0 ∧ ∀ fd, v.types fd ≠ some .none

/-- The panic of `iget`. -/
def noInodes : String := "iget: no inodes"

def refProto : Proto π (FsSt π) Lab View where
  inv := Inv
  guar _ _ := True
  view := view
  lab _ _ v := v.proc.live = true
  cond _ _ _ := True
  panics s m := m = noInodes → findEmpty s = none
  faults := True
  idle _ := Idle
  unborn _ v := v.proc.live = false
  born p l v h := by
    rw [h]
    decide

/-! ## Counting -/

omit [DecidableEq π] [Fintype π] in
theorem ownRefs_eq (x : Proc) (n : Note) (i : Slot) :
    ownRefs x n i = (held n).count i + if x.cwd = some i then 1 else 0 := by
  rw [held, Multiset.coe_count, ownRefs]

theorem held_take (n : Note) (i : Slot) (e : Nat) : held (n.take i e) = i ::ₘ held n := rfl

theorem held_erase {t : Slot × Nat} (h : t ∈ n.toks) :
    held n = t.1 ::ₘ ((n.toks.erase t).map Prod.fst : List Slot) := by
  rw [held, Multiset.cons_coe, Multiset.coe_eq_coe]
  exact (List.perm_cons_erase h).map Prod.fst

/-- Does the descriptor refer to file `f`? -/
def pointsTo (o : Option FileId) (f : FileId) : Nat := if o = some f then 1 else 0

theorem opens_eq_sum (x : Proc) (f : FileId) : x.opens f = ∑ fd, pointsTo (x.ofile fd) f := by
  unfold Proc.opens pointsTo
  rw [← Finset.card_filter, Fin.univ_def]
  rfl

theorem opens_update (x : Proc) (fd : Fd) (o : Option FileId) (g : FileId) :
    Proc.opens { x with ofile := update x.ofile fd o } g + pointsTo (x.ofile fd) g =
      x.opens g + pointsTo o g := by
  have := sum_eq_off (f := fun k => pointsTo (update x.ofile fd o k) g)
    (g := fun k => pointsTo (x.ofile k) g) fd fun k hk => by rw [update_of_ne hk]
  simp only [update_self] at this
  rw [opens_eq_sum, opens_eq_sum]
  exact this

variable {fd' : Fd}

theorem opens_two {x : Proc} (hne : fd' ≠ fd) (h : x.ofile fd = some f)
    (h' : x.ofile fd' = some f) :
    2 ≤ x.opens f := by
  have := add_le_sum (fun k => pointsTo (x.ofile k) f) hne
  rw [opens_eq_sum]
  simpa [pointsTo, h, h'] using this

variable {q : π} {o : Option FileId}

section Files

variable {file file' : FileId → File} {proc : π → Proc}

theorem two_le_ref (h : Opens file proc) (hne : (q, fd') ≠ (p, fd))
    (hf : (proc p).ofile fd = some f)
    (hf' : (proc q).ofile fd' = some f) : 2 ≤ (file f).ref := by
  rw [h.count f]
  by_cases hq : q = p
  · subst hq
    have hfd : fd' ≠ fd := fun hc => hne (by rw [hc])
    exact (opens_two hfd hf hf').trans (le_sum (fun q => (proc q).opens f) q)
  · have h1 := add_le_sum (fun q => (proc q).opens f) hq
    have h2 := opens_pos hf
    have h3 := opens_pos hf'
    omega

theorem opens_set (h : Opens file proc)
    (href : ∀ g, (file' g).ref + pointsTo ((proc p).ofile fd) g = (file g).ref + pointsTo o g)
    (htyped : ∀ g, (file' g).type = .none → (file' g).ref ≤ 1)
    (hunused : ∀ g, (file' g).ref = 0 → (file' g).type = .none) : Opens file' (update proc p
      { proc p with ofile := update (proc p).ofile fd o }) := by
  refine ⟨fun g => ?_, htyped, hunused⟩
  have h1 := sum_eq_off (f := fun q => (update proc p
    { proc p with ofile := update (proc p).ofile fd o } q).opens g)
    (g := fun q => (proc q).opens g) p fun q hq => by rw [update_of_ne hq]
  simp only [update_self] at h1 ⊢
  have h2 := opens_update (proc p) fd o g
  have h3 := href g
  have h4 := h.count g
  omega

theorem opens_same {y : Proc} (h : Opens file proc) (hy : y.ofile = (proc p).ofile) :
    Opens file (update proc p y) := by
  refine ⟨fun f => (h.count f).trans (Finset.sum_congr rfl fun q _ => ?_), h.untyped, h.unused⟩
  by_cases hq : q = p
  · rw [hq, update_self, Proc.opens, Proc.opens, hy]
  · rw [update_of_ne hq]

/-- One open file of slot `j`, or none. -/
def opensSlot (x : File) (j : Slot) : Nat := if x.refersTo j then 1 else 0

theorem openRefs_set (hfile : ∀ g, g ≠ f → file' g = file g) (j : Slot) :
    openRefs file' j + opensSlot (file f) j = openRefs file j + opensSlot (file' f) j :=
  sum_eq_off (f := fun g => opensSlot (file' g) j) (g := fun g => opensSlot (file g) j) f
    fun g hg => by rw [hfile g hg]

theorem openRefs_congr (h : ∀ g, (file' g).type = (file g).type ∧ (file' g).ref = (file g).ref ∧
    (file' g).ip = (file g).ip) : openRefs file' = openRefs file := by
  funext j
  refine Finset.sum_congr rfl fun g _ => ?_
  obtain ⟨h1, h2, h3⟩ := h g
  simp only [File.refersTo, h1, h2, h3]

end Files

section
omit [DecidableEq π]

theorem Inv.pos (hs : Inv s) (h : 0 < ownRefs (s.proc p) (s.note p) i) : 0 < (s.inode i).ref := by
  have h1 := le_sum (fun q => ownRefs (s.proc q) (s.note q) i) p
  rw [hs.refs i, refsTo]
  omega

theorem Inv.pos_of_tok (hs : Inv s) {t : Slot × Nat} (h : t ∈ (s.note p).toks) :
    0 < (s.inode t.1).ref := by
  refine hs.pos (p := p) ?_
  have := List.count_pos_iff.2 (List.mem_map_of_mem (f := Prod.fst) h)
  unfold ownRefs Note.slots
  omega

theorem Inv.tok (hs : Inv s) (h : i ∈ held (s.note p)) :
    (i, (s.inode i).inum) ∈ (s.note p).toks := by
  obtain ⟨t, ht, rfl⟩ := List.mem_map.1 (Multiset.mem_coe.1 h)
  rw [hs.toks p t ht]
  exact ht

end

/-! ## Actions -/

/-- An action of process `p` that keeps the counts right. -/
structure Moved (p : π) (s s' : FsSt π) : Prop where
  proc : ∀ q, q ≠ p → s'.proc q = s.proc q
  note : ∀ q, q ≠ p → s'.note q = s.note q
  balance : ∀ i, (s'.inode i).ref + (ownRefs (s.proc p) (s.note p) i + openRefs s.file i) =
    (s.inode i).ref + (ownRefs (s'.proc p) (s'.note p) i + openRefs s'.file i)
  inum : ∀ i, 0 < (s.inode i).ref → (s'.inode i).inum = (s.inode i).inum
  toks : ∀ t ∈ (s'.note p).toks, (s'.inode t.1).inum = t.2
  types : ∀ q, q ≠ p → ∀ fd f, (s.proc q).ofile fd = some f → (s'.file f).type = (s.file f).type
  opens : Opens s'.file s'.proc
  gone : Gone (s'.proc p) (s'.note p)
  few : (held (s'.note p)).card ≤ callRefs

omit [DecidableEq π] [Fintype π] in
theorem view_congr (hproc : s'.proc q = s.proc q) (hnote : s'.note q = s.note q)
    (htypes : ∀ fd f, (s.proc q).ofile fd = some f → (s'.file f).type = (s.file f).type) :
    view q s' = view q s := by
  unfold view
  rw [hproc, hnote]
  congr 1
  funext fd
  cases h : (s.proc q).ofile fd with
  | none => rfl
  | some f => exact congrArg some (htypes fd f h)

theorem Moved.keeps (h : Moved p s s') (hs : Inv s) : refProto.Keeps p s s' := by
  have hall : ∀ (P : Proc → Note → Prop), (∀ q, P (s.proc q) (s.note q)) →
      P (s'.proc p) (s'.note p) → ∀ q, P (s'.proc q) (s'.note q) := by
    intro P hP hp q
    by_cases hq : q = p
    · rw [hq]
      exact hp
    · rw [h.proc q hq, h.note q hq]
      exact hP q
  refine ⟨⟨fun i => ?_, fun q t ht => ?_, h.opens, hall _ hs.gone h.gone,
    hall (fun _ n => (held n).card ≤ callRefs) hs.few h.few⟩, fun q hq => .inl ?_, trivial⟩
  · have h1 := h.balance i
    have h2 := refsTo_move s.file s'.file h.proc h.note i
    have h3 := hs.refs i
    omega
  · by_cases hq : q = p
    · subst hq
      exact h.toks t ht
    · rw [h.note q hq] at ht
      rw [h.inum t.1 (hs.pos_of_tok ht), hs.toks q t ht]
  · exact view_congr (h.proc q hq) (h.note q hq) (h.types q hq)

/-- An action of process `p` that has nothing to do with references. -/
structure Quiet (p : π) (s s' : FsSt π) : Prop where
  ref : ∀ i, (s'.inode i).ref = (s.inode i).ref
  inum : ∀ i, (s'.inode i).inum = (s.inode i).inum
  file : ∀ f, (s'.file f).type = (s.file f).type ∧ (s'.file f).ref = (s.file f).ref ∧
    (s'.file f).ip = (s.file f).ip
  proc : s'.proc = s.proc
  note : ∀ q, q ≠ p → s'.note q = s.note q
  toks : (s'.note p).toks = (s.note p).toks

omit [DecidableEq π] [Fintype π] in
theorem Quiet.held (h : Quiet p s s') : held (s'.note p) = held (s.note p) := by
  unfold Demand.held Note.slots
  rw [h.toks]

omit [DecidableEq π] in
theorem Quiet.moved (h : Quiet p s s') (hs : Inv s) : Moved p s s' where
  proc q _ := congrFun h.proc q
  note := h.note
  balance i := by
    rw [ownRefs_eq, ownRefs_eq, h.ref, h.held, h.proc, openRefs_congr h.file]
  inum i _ := h.inum i
  toks t ht := by
    rw [h.inum]
    exact hs.toks p t (h.toks ▸ ht)
  types q _ fd f _ := (h.file f).1
  opens := by
    refine ⟨fun f => ?_, fun f ht => ?_, fun f hr => ?_⟩
    · rw [(h.file f).2.1, h.proc]
      exact hs.opens.count f
    · rw [(h.file f).2.1]
      exact hs.opens.untyped f ((h.file f).1 ▸ ht)
    · rw [(h.file f).1]
      exact hs.opens.unused f ((h.file f).2.1 ▸ hr)
  gone := by
    unfold Gone
    rw [h.held, h.proc]
    exact hs.gone p
  few := by
    rw [h.held]
    exact hs.few p

omit [DecidableEq π] [Fintype π] in
theorem Quiet.view (h : Quiet p s s') : view p s' = view p s := by
  unfold Demand.view
  simp only [h.held, h.proc, (h.file _).1]

section
omit [Fintype π]

theorem Quiet.slot {x : Inode π} (hinode : s'.inode = update s.inode i x)
    (hnote : s'.note = update s.note p n) (hfile : s'.file = s.file)
    (hproc : s'.proc = s.proc) (href : x.ref = (s.inode i).ref) (hinum : x.inum = (s.inode i).inum)
    (htoks : n.toks = (s.note p).toks) : Quiet p s s' where
  ref j := by
    rw [hinode]
    by_cases hj : j = i
    · rw [hj, update_self, href]
    · rw [update_of_ne hj]
  inum j := by
    rw [hinode]
    by_cases hj : j = i
    · rw [hj, update_self, hinum]
    · rw [update_of_ne hj]
  file f := by
    rw [hfile]
    exact ⟨rfl, rfl, rfl⟩
  proc := hproc
  note q hq := by rw [hnote, update_of_ne hq]
  toks := by rw [hnote, update_self, htoks]

theorem Quiet.noted (hinode : s'.inode = s.inode) (hnote : s'.note = update s.note p n)
    (hfile : s'.file = s.file) (hproc : s'.proc = s.proc) (htoks : n.toks = (s.note p).toks) :
    Quiet p s s' :=
  .slot (i := 0) (x := s.inode 0) (by rw [hinode, update_eq_self]) hnote hfile hproc rfl
    rfl htoks

theorem Quiet.refl (p : π) (s : FsSt π) : Quiet p s s :=
  .noted (n := s.note p) rfl (update_eq_self p s.note).symm rfl rfl rfl

end

def Silent {α : Type} (p : π) (s : FsSt π) : Outcome (FsSt π) α → Prop
  | .done _ s' => Quiet p s s'
  | .again _ => False
  | .panic m => m ≠ noInodes
  | _ => True

section Rules

variable {α : Type} {x : Proc} {m : Multiset Slot} {t : Fd → Option FdType} {sb : Superblock}

variable {v : View}

theorem wp_silent {l : Lab} {g : π → FsSt π → Outcome (FsSt π) α} {Q : α → View → Prop}
    (hlive : v.proc.live = true) (hg : ∀ s, Silent p s (g p s)) (h : ∀ a, Q a v) :
    wp refProto p (.step l g) Q v := by
  refine wp_step hlive fun s hs hv _ => ?_
  have hq := hg s
  cases ho : g p s with
  | done a s' =>
    rw [ho] at hq
    have hq' : Quiet p s s' := hq
    refine ⟨(hq'.moved hs).keeps hs, ?_⟩
    have he : refProto.view p s' = v := hq'.view.trans hv
    rw [he]
    exact h a
  | again s' =>
    rw [ho] at hq
    exact hq.elim
  | blocked => trivial
  | panic m =>
    rw [ho] at hq
    exact fun hm => absurd hm hq
  | fault => trivial

omit [DecidableEq π] in
theorem wp_panic {msg : String} {Q : α → View → Prop} (hlive : v.proc.live = true)
    (hm : msg ≠ noInodes) : wp refProto p (panic msg) Q v :=
  wp_step hlive fun _ _ _ _ h => absurd h hm

/-! ## References come and go -/

theorem keeps_take (hs : Inv s) (hlive : (s.proc p).live = true)
    (hfew : (held (s.note p)).card < callRefs) {y : Inode π} (href : y.ref = (s.inode i).ref + 1)
    (hinum : y.inum = e) (hkeep : 0 < (s.inode i).ref → e = (s.inode i).inum) :
    refProto.Keeps p s ((s.setInode i y).setNote p ((s.note p).take i e)) := by
  have hin : ∀ j, 0 < (s.inode j).ref →
      (update s.inode i y j).inum = (s.inode j).inum := by
    intro j hj
    by_cases hji : j = i
    · subst hji
      rw [update_self, hinum, hkeep hj]
    · rw [update_of_ne hji]
  refine Moved.keeps ⟨fun _ _ => rfl,
    fun q hq => update_of_ne hq _ _, fun j => ?_, hin, fun t ht => ?_,
    fun _ _ _ _ _ => rfl, hs.opens, gone_of_live hlive _, ?_⟩ hs
  · have h1 : (((s.setInode i y).setNote p ((s.note p).take i e)).inode j).ref =
        (s.inode j).ref + one i j := ref_setInode_add href j
    simp only [FsSt.setNote, FsSt.setInode, update_self, ownRefs_eq, held_take,
      count_cons] at h1 ⊢
    rw [h1, one]
    omega
  · simp only [FsSt.setNote, FsSt.setInode, update_self, Note.take] at ht ⊢
    rcases List.mem_cons.1 ht with rfl | ht
    · rw [update_self, hinum]
    · rw [hin t.1 (hs.pos_of_tok ht), hs.toks p t ht]
  · simp only [FsSt.setNote, update_self, held_take, card_cons]
    exact hfew

omit [Fintype π] in
theorem view_take {y : Inode π} : view p ((s.setInode i y).setNote p ((s.note p).take i e)) =
    ⟨s.proc p, i ::ₘ held (s.note p), (view p s).types⟩ := by
  simp only [view, FsSt.setNote, FsSt.setInode, update_self, held_take]

theorem wp_iget {Q : Slot → View → Prop} (hlive : x.live = true) (hm : m.card < callRefs)
    (h : ∀ i, Q i ⟨x, i ::ₘ m, t⟩) : wp refProto p (iget e) Q ⟨x, m, t⟩ := by
  refine wp_step hlive fun s hs hv _ => ?_
  obtain ⟨rfl, rfl, rfl⟩ := View.mk.inj hv
  cases hf : findInode s e with
  | some i =>
    obtain ⟨h1, -, h3⟩ := findInode_some hf
    refine ⟨keeps_take hs hlive hm rfl h3 fun _ => h3.symm, ?_⟩
    rw [show refProto.view p _ = _ from view_take]
    exact h i
  | none =>
    dsimp only
    cases hg : findEmpty s with
    | some i =>
      have h0 := findEmpty_some hg
      refine ⟨keeps_take hs hlive hm (by rw [h0]) rfl fun hpos => by omega, ?_⟩
      rw [show refProto.view p _ = _ from view_take]
      exact h i
    | none => exact fun _ => hg

theorem wp_idupCwd {Q : Slot → View → Prop} (hlive : x.live = true) (hm : m.card < callRefs)
    (h : ∀ i, Q i ⟨x, i ::ₘ m, t⟩) : wp refProto p idupCwd Q ⟨x, m, t⟩ := by
  refine wp_step hlive fun s hs hv _ => ?_
  obtain ⟨rfl, rfl, rfl⟩ := View.mk.inj hv
  cases hc : (s.proc p).cwd with
  | some i =>
    refine ⟨keeps_take hs hlive hm rfl rfl fun _ => rfl, ?_⟩
    rw [show refProto.view p _ = _ from view_take]
    exact h i
  | none => trivial

section
omit [DecidableEq π]

theorem held_drop (hs : Inv s) (hm : held (s.note p) = i ::ₘ m) :
    (((s.note p).toks.erase (i, (s.inode i).inum)).map Prod.fst : List Slot) = m := by
  have hi : i ∈ held (s.note p) := by
    rw [hm]
    exact mem_cons_self i m
  have := held_erase (hs.tok hi)
  rw [hm] at this
  exact ((Multiset.cons_inj_right i).1 this).symm

theorem Inv.card_lt (hs : Inv s) (hm : held (s.note p) = i ::ₘ m) : m.card < callRefs := by
  have := hs.few p
  rwa [hm, card_cons] at this

theorem Inv.toks_erase (hs : Inv s) {u t : Slot × Nat} (ht : t ∈ (s.note p).toks.erase u) :
    (s.inode t.1).inum = t.2 := hs.toks p t (List.mem_of_mem_erase ht)

end

variable {Q : Unit → View → Prop}

theorem wp_iputDrop (hlive : x.live = true) (h : Q () ⟨x, m, t⟩) :
    wp refProto p (iputDrop i) Q ⟨x, i ::ₘ m, t⟩ := by
  refine wp_step hlive fun s hs hv _ => ?_
  obtain ⟨rfl, hm, rfl⟩ := View.mk.inj hv
  have hdrop : held ((s.note p).drop i (s.inode i).inum) = m := held_drop hs hm
  have hi : i ∈ held (s.note p) := by
    rw [hm]
    exact mem_cons_self i m
  have hpos : 0 < (s.inode i).ref := hs.pos_of_tok (hs.tok hi)
  have hcard := hs.card_lt hm
  have hsub : (s.inode i).ref - 1 + 1 = (s.inode i).ref := by omega
  refine ⟨Moved.keeps ⟨fun _ _ => rfl, fun q hq => update_of_ne hq _ _, fun j => ?_,
    fun j _ => ?_, fun u hu => ?_, fun _ _ _ _ _ => rfl, hs.opens, gone_of_live hlive _, ?_⟩ hs, ?_⟩
  · have h1 := ref_setInode_sub (x := { s.inode i with ref := (s.inode i).ref - 1 }) hsub j
    simp only [FsSt.setNote, FsSt.setInode, update_self, ownRefs_eq, hdrop, hm,
      count_cons] at h1 ⊢
    rw [← h1, one]
    omega
  · by_cases hj : j = i
    · simp [FsSt.setNote, FsSt.setInode, hj]
    · simp [FsSt.setNote, FsSt.setInode, update_of_ne hj]
  · simp only [FsSt.setNote, FsSt.setInode, update_self, Note.drop] at hu ⊢
    by_cases hj : u.1 = i
    · rw [hj, update_self, ← hj]
      exact hs.toks_erase hu
    · rw [update_of_ne hj]
      exact hs.toks_erase hu
  · simp only [FsSt.setNote, update_self, hdrop]
    omega
  · have he : refProto.view p ((s.setInode i
        { s.inode i with ref := (s.inode i).ref - 1 }).setNote p
        ((s.note p).drop i (s.inode i).inum)) = ⟨s.proc p, m, (view p s).types⟩ := by
      simp only [refProto, view, FsSt.setNote, FsSt.setInode, update_self, hdrop]
    rw [he]
    exact h

theorem wp_leaveCwd {Q : Slot → View → Prop} (hlive : x.live = true) (hm : m.card < callRefs)
    (h : ∀ i, Q i ⟨{ x with cwd := none }, i ::ₘ m, t⟩) : wp refProto p leaveCwd Q ⟨x, m, t⟩ := by
  refine wp_step hlive fun s hs hv _ => ?_
  obtain ⟨rfl, rfl, rfl⟩ := View.mk.inj hv
  cases hc : (s.proc p).cwd with
  | none => trivial
  | some i =>
    refine ⟨Moved.keeps ⟨fun q hq => update_of_ne hq _ _,
      fun q hq => update_of_ne hq _ _, fun j => ?_, fun _ _ => rfl, fun u hu => ?_,
      fun _ _ _ _ _ => rfl, ?_, ?_, ?_⟩ hs, ?_⟩
    · simp only [FsSt.setNote, FsSt.setProc, update_self, ownRefs_eq, held_take,
        count_cons, hc, Option.some.injEq, reduceCtorEq, if_false]
      rw [if_congr (eq_comm (a := i) (b := j)) rfl rfl]
      omega
    · simp only [FsSt.setNote, FsSt.setProc, update_self, Note.take] at hu ⊢
      rcases List.mem_cons.1 hu with rfl | hu
      · rfl
      · exact hs.toks p u hu
    · exact opens_same hs.opens rfl
    · exact gone_of_live (by simpa only [FsSt.setNote, FsSt.setProc, update_self]) _
    · simp only [FsSt.setNote, update_self, held_take, card_cons]
      exact hm
    · have he : refProto.view p ((s.setProc p { s.proc p with cwd := none }).setNote p
          ((s.note p).take i (s.inode i).inum)) =
          ⟨{ s.proc p with cwd := none }, i ::ₘ held (s.note p), (view p s).types⟩ := by
        simp only [refProto, view, FsSt.setNote, FsSt.setProc, update_self, held_take]
      dsimp only
      rw [he]
      exact h i

theorem wp_enterCwd (hlive : x.live = true) (hc : x.cwd = none)
    (h : Q () ⟨{ x with cwd := some i }, m, t⟩) : wp refProto p (enterCwd i) Q ⟨x, i ::ₘ m, t⟩ := by
  refine wp_step hlive fun s hs hv _ => ?_
  obtain ⟨rfl, hm, rfl⟩ := View.mk.inj hv
  have hdrop : held ((s.note p).handOver i (s.inode i).inum) = m := held_drop hs hm
  have hcard := hs.card_lt hm
  refine ⟨Moved.keeps ⟨fun q hq => update_of_ne hq _ _,
    fun q hq => update_of_ne hq _ _, fun j => ?_, fun _ _ => rfl, fun u hu => ?_,
    fun _ _ _ _ _ => rfl, ?_, ?_, ?_⟩ hs, ?_⟩
  · simp only [FsSt.setNote, FsSt.setProc, update_self, ownRefs_eq, hdrop, hm,
      count_cons, hc, Option.some.injEq, reduceCtorEq, if_false]
    rw [if_congr (eq_comm (a := i) (b := j)) rfl rfl]
    omega
  · simp only [FsSt.setNote, FsSt.setProc, update_self, Note.handOver] at hu ⊢
    exact hs.toks_erase hu
  · exact opens_same hs.opens rfl
  · exact gone_of_live (by simpa only [FsSt.setNote, FsSt.setProc, update_self]) _
  · simp only [FsSt.setNote, update_self, hdrop]
    omega
  · have he : refProto.view p ((s.setProc p { s.proc p with cwd := some i }).setNote p
        ((s.note p).handOver i (s.inode i).inum)) =
        ⟨{ s.proc p with cwd := some i }, m, (view p s).types⟩ := by
      simp only [refProto, view, FsSt.setNote, FsSt.setProc, update_self, hdrop]
    rw [he]
    exact h

/-! ## Files come and go -/

variable {y : File}

omit [DecidableEq π] [Fintype π] in
theorem opensSlot_zero (h : y.type ≠ .inode) (j : Slot) : opensSlot y j = 0 :=
  if_neg fun hr => h hr.2.1

theorem opensSlot_closed (h : y.ref = 0) (j : Slot) : opensSlot y j = 0 :=
  if_neg fun hr => absurd hr.1 (by omega)

theorem moved_descriptor (fd : Fd) (hs : Inv s) (hlive : (s.proc p).live = true)
    (hinode : s'.inode = s.inode) (hnote : s'.note = update s.note p n)
    (hfile : s'.file = update s.file f y)
    (hproc : s'.proc = update s.proc p
      { s.proc p with ofile := update (s.proc p).ofile fd o })
    (href : y.ref + pointsTo ((s.proc p).ofile fd) f = (s.file f).ref + pointsTo o f)
    (hother : ∀ g, g ≠ f → pointsTo ((s.proc p).ofile fd) g = pointsTo o g)
    (hbal : ∀ j, (held (s.note p)).count j + opensSlot (s.file f) j =
      (held n).count j + opensSlot y j)
    (htoks : ∀ u ∈ n.toks, (s.inode u.1).inum = u.2)
    (htypes : ∀ q, q ≠ p → ∀ k, (s.proc q).ofile k = some f → y.type = (s.file f).type)
    (htyped : y.type = .none → y.ref ≤ 1) (hunused : y.ref = 0 → y.type = .none)
    (hfew : (held n).card ≤ callRefs) : Moved p s s' where
  proc q hq := by rw [hproc, update_of_ne hq]
  note q hq := by rw [hnote, update_of_ne hq]
  balance j := by
    have h1 : openRefs s'.file j + opensSlot (s.file f) j =
        openRefs s.file j + opensSlot (s'.file f) j :=
      openRefs_set (fun g hg => by rw [hfile, update_of_ne hg]) j
    have h2 := hbal j
    rw [show s'.file f = y by rw [hfile, update_self]] at h1
    rw [hinode, hproc, hnote, update_self, update_self, ownRefs_eq, ownRefs_eq]
    dsimp only
    omega
  inum j _ := by rw [hinode]
  toks u hu := by
    rw [hnote, update_self] at hu
    rw [hinode]
    exact htoks u hu
  types q hq k g hg := by
    rw [hfile]
    by_cases hgf : g = f
    · subst hgf
      rw [update_self, htypes q hq k hg]
    · rw [update_of_ne hgf]
  opens := by
    have hset : ∀ (P : File → Prop), P y → (∀ g, P (s.file g)) → ∀ g, P (s'.file g) := by
      intro P hy hP g
      rw [hfile]
      by_cases hgf : g = f
      · rwa [hgf, update_self]
      · rw [update_of_ne hgf]
        exact hP g
    rw [hproc]
    refine opens_set hs.opens (fun g => ?_)
      (hset (fun y => y.type = .none → y.ref ≤ 1) htyped hs.opens.untyped)
      (hset (fun y => y.ref = 0 → y.type = .none) hunused hs.opens.unused)
    rw [hfile]
    by_cases hgf : g = f
    · rw [hgf, update_self]
      exact href
    · rw [update_of_ne hgf, hother g hgf]
  gone := gone_of_live (by rw [hproc, update_self]; exact hlive) _
  few := by
    rw [hnote, update_self]
    exact hfew

theorem types_set (ofile : Fd → Option FileId) (file : FileId → File) (fd : Fd)
    (h : ∀ k, k ≠ fd → ofile k = some f → y.type = (file f).type) :
    (fun k => (update ofile fd o k).map fun g => (update file f y g).type) =
      update (fun k => (ofile k).map fun g => (file g).type) fd
        (o.map fun g => (update file f y g).type) := by
  funext k
  by_cases hk : k = fd
  · rw [hk, update_self, update_self]
  · rw [update_of_ne hk, update_of_ne hk]
    cases hg : ofile k with
    | none => rfl
    | some g =>
      by_cases hgf : g = f
      · subst hgf
        simp only [map_some, update_self, h k hk hg]
      · simp only [map_some, update_of_ne hgf]

section
omit [DecidableEq π] [Fintype π]

theorem Quiet.setFile (h : y.type = (s.file f).type ∧ y.ref = (s.file f).ref ∧
    y.ip = (s.file f).ip) : Quiet p s (s.setFile f y) where
  ref _ := rfl
  inum _ := rfl
  file g := by
    by_cases hg : g = f
    · rw [hg]
      simpa only [FsSt.setFile, update_self] using h
    · simp only [FsSt.setFile, update_of_ne hg, and_self]
  proc := rfl
  note _ _ := rfl
  toks := rfl

theorem find_unused {s : FsSt π}
    (h : ((List.finRange NFILE).find? fun f => (s.file f).ref == 0) = some f) :
    (s.file f).ref = 0 := by
  simpa using List.find?_some h

end

theorem find_fd {x : Proc}
    (h : ((List.finRange NOFILE).find? fun fd => (x.ofile fd).isNone) = some fd) :
    x.ofile fd = none := by
  simpa using List.find?_some h

omit [DecidableEq π] in
theorem putOf_unused (hs : Inv s) (h : (s.file f).ref = 0) : (s.file f).putOf = none :=
  if_neg (by rw [hs.opens.unused f h]; decide)

theorem wp_openFile {Q : Opened → View → Prop} (hlive : x.live = true)
    (hfail : Q (.failed none) ⟨x, m, t⟩)
    (hok : ∀ f fd, Q (.ok f fd) ⟨{ x with ofile := update x.ofile fd (some f) }, m,
      update t fd (some .none)⟩) : wp refProto p openFile Q ⟨x, m, t⟩ := by
  refine wp_step hlive fun s hs hv _ => ?_
  obtain ⟨rfl, rfl, rfl⟩ := View.mk.inj hv
  have hquiet : ∀ s', Quiet p s s' → refProto.Ok p s Q (.done (.failed none) s') := fun s' hq => by
    refine ⟨(hq.moved hs).keeps hs, ?_⟩
    rw [show refProto.view p s' = view p s from hq.view]
    exact hfail
  cases hf : (List.finRange NFILE).find? fun f => (s.file f).ref == 0 with
  | none => exact hquiet s (.refl p s)
  | some f =>
    have h0 := find_unused hf
    have ht0 := hs.opens.unused f h0
    dsimp only
    cases hg : (List.finRange NOFILE).find? fun fd => ((s.proc p).ofile fd).isNone with
    | none =>
      dsimp only
      rw [putOf_unused hs h0]
      exact hquiet _ (.setFile ⟨ht0.symm, rfl, rfl⟩)
    | some fd =>
      have hfd := find_fd hg
      refine ⟨Moved.keeps (moved_descriptor (n := s.note p) (f := f) (o := some f)
        (y := { s.file f with ref := 1 }) fd hs hlive rfl
        (update_eq_self p s.note).symm rfl rfl ?_ ?_ ?_ (hs.toks p) (fun _ _ _ _ => rfl)
        (fun _ => le_rfl) (fun h => by cases h) (hs.few p)) hs, ?_⟩
      · simp [pointsTo, hfd, h0]
      · intro g hgf
        simp [pointsTo, hfd, Ne.symm hgf]
      · intro j
        rw [opensSlot_zero (by rw [ht0]; decide), opensSlot_zero (by dsimp only; rw [ht0]; decide)]
      · have he := types_set (s.proc p).ofile s.file fd (f := f)
          (o := some f) (y := { s.file f with ref := 1 }) fun _ _ _ => rfl
        simp only [map_some, update_self] at he
        have hdone := hok f fd
        rw [← ht0] at hdone
        simpa only [refProto, view, FsSt.setFile, FsSt.setProc, update_self, he]
          using hdone

theorem wp_fillFile {readable writable : Bool} (hlive : x.live = true) (hfd : x.ofile fd = some f)
    (ht : t fd = some .none) (h : Q () ⟨x, m, update t fd (some .inode)⟩) :
    wp refProto p (fillFile f i readable writable) Q ⟨x, i ::ₘ m, t⟩ := by
  refine wp_step hlive fun s hs hv _ => ?_
  obtain ⟨rfl, hm, rfl⟩ := View.mk.inj hv
  have hdrop : held ((s.note p).handOver i (s.inode i).inum) = m := held_drop hs hm
  have hcard := hs.card_lt hm
  have htype : (s.file f).type = .none := by simpa [hfd] using ht
  have hle := hs.opens.untyped f htype
  have hpos := hs.opens.pos hfd
  -- nobody else has a descriptor of the file yet
  have halone : ∀ q k, (q, k) ≠ (p, fd) → (s.proc q).ofile k ≠ some f := fun q k hne hk => by
    have := two_le_ref hs.opens hne hfd hk
    omega
  have hown : update s.proc p
      { s.proc p with ofile := update (s.proc p).ofile fd (some f) } = s.proc := by
    rw [← hfd, update_eq_self, update_eq_self]
  refine ⟨Moved.keeps (moved_descriptor (n := (s.note p).handOver i (s.inode i).inum) (f := f)
    (o := some f) fd hs hlive rfl rfl rfl hown.symm ?_ ?_ ?_ (fun _ hu => hs.toks_erase hu)
    (fun q hq k hk => absurd hk (halone q k fun hc => hq (congrArg Prod.fst hc)))
    (fun hn => by cases hn) (fun h0 => by dsimp only at h0; omega) (by rw [hdrop]; omega)) hs, ?_⟩
  · rw [hfd]
  · intro g _
    rw [hfd]
  · intro j
    rw [opensSlot_zero (by rw [htype]; decide), hm, hdrop, count_cons]
    simp only [opensSlot, File.refersTo, hpos, true_and]
    rw [if_congr (eq_comm (a := i) (b := j)) rfl rfl]
    omega
  · have he := types_set (s.proc p).ofile s.file fd (f := f) (o := some f)
      (y := { s.file f with
        type := .inode, ip := i, off := 0, readable := readable, writable := writable })
      fun k hk hkf => absurd hkf (halone p k fun hc => hk (congrArg Prod.snd hc))
    rw [← hfd, update_eq_self, hfd] at he
    simp only [map_some, update_self] at he
    simpa only [refProto, view, FsSt.setFile, FsSt.setNote, update_self, hdrop, he] using h

def plus (r : Option Slot) (m : Multiset Slot) : Multiset Slot := r.elim m (· ::ₘ m)

theorem ok_close {Q : Option Slot → View → Prop} (hs : Inv s) (hlive : (s.proc p).live = true)
    (hm : (held (s.note p)).card < callRefs) (hf : (s.proc p).ofile fd = some f)
    (r : Option Slot) (y : File) (hinode : s'.inode = s.inode)
    (hnote : s'.note = update s.note p n) (hfile : s'.file = update s.file f y)
    (hproc : s'.proc = update s.proc p
      { s.proc p with ofile := update (s.proc p).ofile fd none })
    (href : y.ref + 1 = (s.file f).ref)
    (htypes : ∀ q k, (q, k) ≠ (p, fd) → (s.proc q).ofile k = some f → y.type = (s.file f).type)
    (htyped : y.type = .none → y.ref ≤ 1) (hunused : y.ref = 0 → y.type = .none)
    (hheld : held n = plus r (held (s.note p))) (htoks : ∀ u ∈ n.toks, (s.inode u.1).inum = u.2)
    (hopen : ∀ j, opensSlot (s.file f) j = (r.elim 0 fun i => one i j) + opensSlot y j)
    (h : Q r ⟨{ s.proc p with ofile := update (s.proc p).ofile fd none },
      plus r (held (s.note p)), update (view p s).types fd none⟩) :
    refProto.Ok p s Q (.done r s') := by
  refine ⟨Moved.keeps (moved_descriptor (o := none) fd hs hlive hinode hnote hfile hproc ?_ ?_ ?_
    htoks (fun q hq k hk => htypes q k (fun hc => hq (congrArg Prod.fst hc)) hk) htyped hunused
    ?_) hs, ?_⟩
  · simpa [pointsTo, hf] using href
  · intro g hg
    simp [pointsTo, hf, Ne.symm hg]
  · intro j
    rw [hopen j, hheld]
    cases r with
    | none => simp [plus]
    | some i =>
      simp only [plus, elim_some, count_cons, one]
      omega
  · rw [hheld]
    cases r with
    | none => exact hs.few p
    | some i =>
      rw [plus, elim_some, card_cons]
      exact hm
  · have he := types_set (s.proc p).ofile s.file fd (f := f)
      (o := none) (y := y) fun k hk hkf => htypes p k (fun hc => hk (congrArg Prod.snd hc)) hkf
    have hview : refProto.view p s' = ⟨s'.proc p, held (s'.note p), _⟩ := rfl
    rw [hview, hproc, hnote, hfile, update_self, update_self, hheld]
    dsimp only
    rw [he]
    exact h

theorem wp_closeFile {Q : Option Slot → View → Prop} (hlive : x.live = true)
    (hm : m.card < callRefs)
    (hnone : Q none ⟨{ x with ofile := update x.ofile fd none }, m,
      update t fd none⟩)
    (hsome : ∀ i, Q (some i) ⟨{ x with ofile := update x.ofile fd none }, i ::ₘ m,
      update t fd none⟩) : wp refProto p (closeFile fd) Q ⟨x, m, t⟩ := by
  refine wp_step hlive fun s hs hv _ => ?_
  obtain ⟨rfl, rfl, rfl⟩ := View.mk.inj hv
  cases hf : (s.proc p).ofile fd with
  | none =>
    refine ⟨((Quiet.refl p s).moved hs).keeps hs, ?_⟩
    have htypes : update (fun k => ((s.proc p).ofile k).map fun g => (s.file g).type) fd
        none = fun k => ((s.proc p).ofile k).map fun g => (s.file g).type := by
      rw [update_eq_self_iff, hf]
      rfl
    rw [htypes, update_eq_self_iff.2 hf.symm] at hnone
    exact hnone
  | some f =>
    have hpos := hs.opens.pos hf
    dsimp only
    rw [if_neg (by omega)]
    by_cases hmany : 1 < (s.file f).ref
    · rw [if_pos hmany]
      refine ok_close (n := s.note p) hs hlive hm hf none
        { s.file f with ref := (s.file f).ref - 1 } rfl (update_eq_self p s.note).symm rfl
        rfl (by dsimp only; omega) (fun _ _ _ _ => rfl)
        (fun hn => ?_) (fun h0 => by dsimp only at h0; omega) rfl (hs.toks p) (fun j => ?_) hnone
      · exact (Nat.sub_le _ 1).trans (hs.opens.untyped f hn)
      · rw [Option.elim_none, Nat.zero_add]
        exact if_congr (and_congr (by dsimp only; omega) Iff.rfl) rfl rfl
    · rw [if_neg hmany]
      have halone : ∀ q k, (q, k) ≠ (p, fd) → (s.proc q).ofile k ≠ some f := fun q k hne hk => by
        have := two_le_ref hs.opens hne hf hk
        omega
      have hone : 0 + 1 = (s.file f).ref := by omega
      have hplain : ∀ (ht : (s.file f).type ≠ .inode), refProto.Ok p s Q (.done none
          ((s.setProc p { s.proc p with
            ofile := update (s.proc p).ofile fd none }).setFile f
            { s.file f with ref := 0, type := .none })) := fun ht => by
        refine ok_close (n := s.note p) hs hlive hm hf none
          { s.file f with ref := 0, type := .none } rfl
          (update_eq_self p s.note).symm rfl rfl hone
          (fun q k hne hk => absurd hk (halone q k hne)) (fun _ => Nat.zero_le 1) (fun _ => rfl) rfl
          (hs.toks p) (fun j => ?_) hnone
        rw [opensSlot_zero ht, opensSlot_closed rfl]
        rfl
      cases ht : (s.file f).type with
      | none => exact hplain (by rw [ht]; decide)
      | pipe => exact hplain (by rw [ht]; decide)
      | inode =>
        refine ok_close (n := (s.note p).take (s.file f).ip (s.inode (s.file f).ip).inum) hs hlive
          hm hf (some (s.file f).ip) { s.file f with ref := 0, type := .none } rfl rfl rfl rfl hone
          (fun q k hne hk => absurd hk (halone q k hne)) (fun _ => Nat.zero_le 1) (fun _ => rfl) rfl
          (fun u hu => ?_) (fun j => ?_) (hsome _)
        · rcases List.mem_cons.1 hu with rfl | hu
          · rfl
          · exact hs.toks p u hu
        · rw [opensSlot_closed (y := { s.file f with ref := 0, type := .none }) rfl, opensSlot]
          simp only [File.refersTo, hpos, ht, true_and, elim_some, one, Nat.add_zero]
          exact if_congr eq_comm rfl rfl

omit [DecidableEq π] [Fintype π] in
theorem Idle.typed (h : Idle (view p s)) (hf : (s.proc p).ofile fd = some f) :
    (s.file f).type ≠ .none := fun ht => h.2 fd (by simp only [view, hf, map_some, ht])

theorem Idle.update (h : Idle v) {k : FdType} (hk : k ≠ .none) (fd : Fd) (y : Proc) :
    Idle ⟨y, v.refs, update v.types fd (some k)⟩ := by
  refine ⟨h.1, fun fd' => ?_⟩
  by_cases hfd : fd' = fd
  · subst hfd
    simpa using hk
  · simpa [update_of_ne hfd] using h.2 fd'

theorem wp_sysDup (hlive : v.proc.live = true) (hv : Idle v) :
    wp refProto p (sysDup fd) (fun _ => Idle) v := by
  refine wp_step hlive fun s hs he _ => ?_
  subst he
  have hkeep : refProto.Ok p s (fun _ => Idle) (.done () s) :=
    ⟨((Quiet.refl p s).moved hs).keeps hs, hv⟩
  cases hf : (s.proc p).ofile fd with
  | none => exact hkeep
  | some f =>
    dsimp only
    cases hg : (List.finRange NOFILE).find? fun fd => ((s.proc p).ofile fd).isNone with
    | none => exact hkeep
    | some fd' =>
      have hfd := find_fd hg
      have hpos := hs.opens.pos hf
      have htype := Idle.typed hv hf
      dsimp only
      rw [if_neg (by omega)]
      refine ⟨Moved.keeps (moved_descriptor (n := s.note p) (f := f) (o := some f)
        (y := { s.file f with ref := (s.file f).ref + 1 }) fd' hs hlive rfl
        (update_eq_self p s.note).symm rfl rfl ?_ ?_ ?_ (hs.toks p) (fun _ _ _ _ => rfl)
        (fun hn => absurd hn htype) (fun h0 => by cases h0) (hs.few p)) hs, ?_⟩
      · simp [pointsTo, hfd]
      · intro g hgf
        simp [pointsTo, hfd, Ne.symm hgf]
      · intro j
        rw [Nat.add_left_cancel_iff]
        exact if_congr (and_congr (by dsimp only; omega) Iff.rfl) rfl rfl
      · have he := types_set (s.proc p).ofile s.file fd' (f := f)
          (o := some f) (y := { s.file f with ref := (s.file f).ref + 1 }) fun _ _ _ => rfl
        simp only [map_some, update_self] at he
        have hi := Idle.update hv htype fd' { s.proc p with
          ofile := update (s.proc p).ofile fd' (some f) }
        simpa only [refProto, view, FsSt.setFile, FsSt.setProc, update_self, he] using hi

theorem moved_pipe (fd : Fd) (hs : Inv s) (hlive : (s.proc p).live = true) (h0 : (s.file f).ref = 0)
    (hfd : (s.proc p).ofile fd = none) (htype : y.type = .pipe) (href : y.ref = 1) :
    Moved p s ((s.setFile f y).setProc p
      { s.proc p with ofile := update (s.proc p).ofile fd (some f) }) := by
  have hunseen : ∀ q k, (s.proc q).ofile k ≠ some f := fun q k hk => by
    have := hs.opens.pos hk
    omega
  refine moved_descriptor (n := s.note p) fd hs hlive rfl
    (update_eq_self p s.note).symm rfl rfl ?_ ?_ ?_ (hs.toks p)
      (fun q _ k hk => absurd hk (hunseen q k)) (fun hn => by omega)
    (fun hn => by omega) (hs.few p)
  · simp [pointsTo, hfd, h0, href]
  · intro g hg
    simp [pointsTo, hfd, Ne.symm hg]
  · intro j
    rw [opensSlot_zero (by rw [hs.opens.unused f h0]; decide),
      opensSlot_zero (by rw [htype]; decide)]

theorem idle_pipe (fd : Fd) (hs : Inv s) (hv : Idle (view p s)) (h0 : (s.file f).ref = 0)
    (htype : y.type = .pipe) : Idle (view p ((s.setFile f y).setProc p
      { s.proc p with ofile := update (s.proc p).ofile fd (some f) })) := by
  have he := types_set (s.proc p).ofile s.file fd (f := f) (o := some f)
    (y := y) fun k _ hk => by
      have := hs.opens.pos hk
      omega
  simp only [map_some, update_self] at he
  have hi := Idle.update hv (k := y.type) (by rw [htype]; decide) fd
    { s.proc p with ofile := update (s.proc p).ofile fd (some f) }
  simpa only [view, FsSt.setFile, FsSt.setProc, update_self, he] using hi

omit [DecidableEq π] [Fintype π] in
theorem Quiet.trans {s'' : FsSt π} (h : Quiet p s s') (h' : Quiet p s' s'') : Quiet p s s'' where
  ref i := (h'.ref i).trans (h.ref i)
  inum i := (h'.inum i).trans (h.inum i)
  file f := ⟨(h'.file f).1.trans (h.file f).1, (h'.file f).2.1.trans (h.file f).2.1,
    (h'.file f).2.2.trans (h.file f).2.2⟩
  proc := h'.proc.trans h.proc
  note q hq := (h'.note q hq).trans (h.note q hq)
  toks := h'.toks.trans h.toks

/-- What `sys_pipe` comes to: there is no inode to put. -/
def PipeDone (r : List Slot) (v : View) : Prop := r = [] ∧ v.proc.live = true ∧ Idle v

theorem ok_ends (hs : Inv s) (hlive : (s.proc p).live = true) (hv : Idle (view p s)) {g : FileId}
    (hf : (s.file f).ref = 0) (hg : (s.file g).ref = 0) (hne : g ≠ f)
    (hfd : (s.proc p).ofile fd = none) (hfd' : (s.proc p).ofile fd' = none) (hne' : fd' ≠ fd) :
    refProto.Ok p s PipeDone (.done [] (((s.setFile f { s.file f with
        type := .pipe, ref := 1, readable := true, writable := false }).setFile g
      { s.file g with type := .pipe, ref := 1, readable := false, writable := true }).setProc p
      { s.proc p with ofile := update (update (s.proc p).ofile fd (some f)) fd' (some g) })) := by
  -- the two ends one after the other
  have h1 := moved_pipe (y := { s.file f with
    type := .pipe, ref := 1, readable := true, writable := false }) fd hs hlive hf hfd rfl rfl
  have hi1 := idle_pipe (y := { s.file f with
    type := .pipe, ref := 1, readable := true, writable := false }) fd hs hv hf rfl
  generalize hs1 : (s.setFile f { s.file f with
    type := .pipe, ref := 1, readable := true, writable := false }).setProc p
    { s.proc p with ofile := update (s.proc p).ofile fd (some f) } = s1 at h1 hi1
  have hfile1 : s1.file g = s.file g := by
    rw [← hs1]
    exact update_of_ne hne _ _
  have hproc1 : s1.proc p =
      { s.proc p with ofile := update (s.proc p).ofile fd (some f) } := by
    rw [← hs1]
    exact update_self ..
  have hlive1 : (s1.proc p).live = true := by
    rw [hproc1]
    exact hlive
  have hg1 : (s1.file g).ref = 0 := by rw [hfile1, hg]
  have hfd1 : (s1.proc p).ofile fd' = none := by
    rw [hproc1]
    exact (update_of_ne hne' _ _).trans hfd'
  have hk1 := h1.keeps hs
  have h2 := moved_pipe (y := { s.file g with
    type := .pipe, ref := 1, readable := false, writable := true })
    fd' hk1.inv hlive1 hg1 hfd1 rfl rfl
  have hi2 := idle_pipe (y := { s.file g with
    type := .pipe, ref := 1, readable := false, writable := true }) fd' hk1.inv hi1 hg1 rfl
  have hs2 : (s1.setFile g { s.file g with
      type := .pipe, ref := 1, readable := false, writable := true }).setProc p
      { s1.proc p with ofile := update (s1.proc p).ofile fd' (some g) } =
      ((s.setFile f { s.file f with
        type := .pipe, ref := 1, readable := true, writable := false }).setFile g
      { s.file g with type := .pipe, ref := 1, readable := false, writable := true }).setProc p
      { s.proc p with ofile := update (update (s.proc p).ofile fd (some f)) fd' (some g) } := by
    rw [hproc1, ← hs1]
    simp only [FsSt.setFile, FsSt.setProc, update_idem]
  rw [hs2] at h2 hi2
  have hk2 := h2.keeps hk1.inv
  refine ⟨⟨hk2.inv, fun q hq => .inl ?_, trivial⟩, rfl, ?_, hi2⟩
  · exact (view_congr (h2.proc q hq) (h2.note q hq) (h2.types q hq)).trans
      (view_congr (h1.proc q hq) (h1.note q hq) (h1.types q hq))
  · simpa only [refProto, view, FsSt.setProc, update_self] using hlive

theorem wp_openPipe {mem : Bool} (hlive : v.proc.live = true) (hv : Idle v) :
    wp refProto p (openPipe mem) PipeDone v := by
  refine wp_step hlive fun s hs he _ => ?_
  subst he
  have hquiet : ∀ s', Quiet p s s' → refProto.Ok p s PipeDone (.done [] s') := fun s' hq => by
    refine ⟨(hq.moved hs).keeps hs, rfl, ?_⟩
    rw [show refProto.view p s' = view p s from hq.view]
    exact ⟨hlive, hv⟩
  have hclear : ∀ (s' : FsSt π) g, Quiet p s s' → (s.file g).ref = 0 →
      Quiet p s (s'.setFile g { s'.file g with type := .none }) := fun s' g hq h0 =>
    hq.trans (.setFile ⟨((hq.file g).1.trans (hs.opens.unused g h0)).symm, rfl, rfl⟩)
  have hunused : ∀ g ∈ (List.finRange NFILE).filter fun f => (s.file f).ref == 0,
      (s.file g).ref = 0 := fun g hg => by simpa using (List.mem_filter.1 hg).2
  have hnodup := (List.nodup_finRange NFILE).filter fun f => (s.file f).ref == 0
  dsimp only
  generalize (List.finRange NFILE).filter (fun f => (s.file f).ref == 0) = l at hunused hnodup
  match l, hunused, hnodup with
  | [], _, _ => exact hquiet s (.refl p s)
  | [f], hunused, _ =>
    have h0 := hunused f (by simp)
    dsimp only
    rw [putOf_unused hs h0]
    exact hquiet _ (hclear s f (.refl p s) h0)
  | f :: g :: l, hunused, hnodup =>
    have hf := hunused f (by simp)
    have hg := hunused g (by simp)
    have hne : g ≠ f := by
      rintro rfl
      simp at hnodup
    have htwo := hclear _ g (hclear s f (.refl p s) hf) hg
    rw [show (s.setFile f { s.file f with type := .none }).file g = s.file g from
      update_of_ne hne _ _] at htwo
    cases mem with
    | false =>
      simp only [Bool.false_eq_true, if_false, putOf_unused hs hf, putOf_unused hs hg]
      exact hquiet _ htwo
    | true =>
      simp only [if_true]
      have hfree : ∀ k ∈ (List.finRange NOFILE).filter fun fd => ((s.proc p).ofile fd).isNone,
          (s.proc p).ofile k = none := fun k hk => by simpa using (List.mem_filter.1 hk).2
      have hnodup' := (List.nodup_finRange NOFILE).filter fun fd => ((s.proc p).ofile fd).isNone
      generalize (List.finRange NOFILE).filter (fun fd => ((s.proc p).ofile fd).isNone) = k
        at hfree hnodup'
      match k, hfree, hnodup' with
      | [], _, _ => exact hquiet _ htwo
      | [_], _, _ => exact hquiet _ htwo
      | fd :: fd' :: k, hfree, hnodup' =>
        have hfd := hfree fd (by simp)
        have hfd' := hfree fd' (by simp)
        have hne' : fd' ≠ fd := by
          rintro rfl
          simp at hnodup'
        exact ok_ends hs hlive hv hf hg hne hfd hfd' hne'

/-! ## Processes come and go -/

theorem wp_retire (hlive : x.live = true) (hcwd : x.cwd = none) (hofile : ∀ fd, x.ofile fd = none)
    (h : Q () ⟨{ x with live := false }, 0, t⟩) : wp refProto p retire Q ⟨x, 0, t⟩ := by
  refine wp_step hlive fun s hs hv _ => ?_
  obtain ⟨rfl, hm, rfl⟩ := View.mk.inj hv
  refine ⟨Moved.keeps ⟨fun q hq => update_of_ne hq _ _, fun _ _ => rfl, fun j => ?_,
    fun _ _ => rfl, hs.toks p, fun _ _ _ _ _ => rfl, opens_same hs.opens rfl, fun _ => ?_,
    hs.few p⟩ hs, ?_⟩
  · simp only [FsSt.setProc, update_self, ownRefs]
  · simp only [FsSt.setProc, update_self]
    exact ⟨hm, hcwd, hofile⟩
  · have he : refProto.view p (s.setProc p { s.proc p with live := false }) =
        ⟨{ s.proc p with live := false }, held (s.note p), (view p s).types⟩ := by
      simp only [refProto, view, FsSt.setProc, update_self]
    rw [he, hm]
    exact h

omit [DecidableEq π] in
theorem fork_pos (hs : Inv s) (p : π) (f : FileId) :
    0 < (s.file f).ref + (s.proc p).opens f ↔ 0 < (s.file f).ref := by
  have h1 := le_sum (fun q => (s.proc q).opens f) p
  have h2 := hs.opens.count f
  omega

theorem inv_fork (hs : Inv s) (hv : Idle (view p s)) {y : Proc} (hq : (s.proc q).live = false)
    (hinode : s'.inode = update s.inode i { s.inode i with ref := (s.inode i).ref + 1 })
    (hfile : ∀ g, s'.file g = { s.file g with ref := (s.file g).ref + (s.proc p).opens g })
    (hproc : s'.proc = update s.proc q y) (hnote : s'.note = s.note) (hlive : y.live = true)
    (hcwd : y.cwd = some i) (hofile : y.ofile = (s.proc p).ofile) : Inv s' := by
  obtain ⟨hheld, hno, hclosed⟩ := hs.gone q hq
  have hnone : ∀ g, (s.proc q).opens g = 0 := fun g => by
    rw [opens_eq_sum]
    exact Finset.sum_eq_zero fun k _ => by simp [pointsTo, hclosed k]
  have hsame : ∀ g, y.opens g = (s.proc p).opens g := fun g => by
    rw [Proc.opens, Proc.opens, hofile]
  refine ⟨fun j => ?_, fun r u hu => ?_, ⟨fun g => ?_, fun g hg => ?_, fun g hg => ?_⟩,
    fun r => ?_, ?_⟩
  · have h1 : (s'.inode j).ref = (s.inode j).ref + one i j := by
      rw [hinode]
      exact ref_setInode_add (s := s) (x := { s.inode i with ref := (s.inode i).ref + 1 }) rfl j
    have h2 := sum_eq_off (f := fun r => ownRefs (s'.proc r) (s.note r) j)
      (g := fun r => ownRefs (s.proc r) (s.note r) j) q fun r hr => by
        rw [hproc, update_of_ne hr]
    have h3 := hs.refs j
    have h4 : openRefs s'.file j = openRefs s.file j := Finset.sum_congr rfl fun g _ => by
      rw [hfile g]
      exact if_congr (and_congr (fork_pos hs p g) Iff.rfl) rfl rfl
    have h5 : ownRefs (s'.proc q) (s.note q) j = one i j := by
      rw [hproc, update_self, ownRefs_eq, hheld, hcwd, Multiset.count_zero, Nat.zero_add,
        one]
      exact if_congr (by rw [Option.some.injEq, eq_comm]) rfl rfl
    have h6 : ownRefs (s.proc q) (s.note q) j = 0 := by simp [ownRefs_eq, hheld, hno]
    unfold refsTo at h3 ⊢
    rw [hnote]
    omega
  · rw [hnote] at hu
    rw [hinode]
    by_cases hj : u.1 = i
    · rw [hj, update_self, ← hj]
      exact hs.toks r u hu
    · rw [update_of_ne hj]
      exact hs.toks r u hu
  · have h1 := sum_eq_off (f := fun r => (s'.proc r).opens g) (g := fun r => (s.proc r).opens g) q
      fun r hr => by rw [hproc, update_of_ne hr]
    have h2 := hs.opens.count g
    have h3 := hnone g
    have h4 : (s'.proc q).opens g = (s.proc p).opens g := by rw [hproc, update_self, hsame]
    rw [hfile g]
    dsimp only
    omega
  · -- a file without a type belongs to a call that is under way, and that is not this one
    rw [hfile g] at hg ⊢
    have h0 : (s.proc p).opens g = 0 := by
      rw [opens_eq_sum]
      exact Finset.sum_eq_zero fun k _ => if_neg fun hk => Idle.typed hv hk hg
    have := hs.opens.untyped g hg
    dsimp only
    omega
  · rw [hfile g] at hg ⊢
    refine hs.opens.unused g ?_
    have := fork_pos hs p g
    dsimp only at hg
    omega
  · rw [hproc, hnote]
    by_cases hr : r = q
    · subst hr
      intro hd
      rw [update_self, hlive] at hd
      cases hd
    · rw [update_of_ne hr]
      exact hs.gone r
  · rw [hnote]
    exact hs.few

theorem ok_fork (hs : Inv s) (hv : Idle (view p s)) {y : Proc} (hq : (s.proc q).live = false)
    (hp : p ≠ q)
    (hinode : s'.inode = update s.inode i { s.inode i with ref := (s.inode i).ref + 1 })
    (hfile : ∀ g, s'.file g = { s.file g with ref := (s.file g).ref + (s.proc p).opens g })
    (hproc : s'.proc = update s.proc q y) (hnote : s'.note = s.note) (hlive : y.live = true)
    (hcwd : y.cwd = some i) (hofile : y.ofile = (s.proc p).ofile) :
    refProto.Ok p s (fun _ => Idle) (.done () s') := by
  have hview : ∀ r, r ≠ q → view r s' = view r s := fun r hr =>
    view_congr (by rw [hproc, update_of_ne hr]) (by rw [hnote]) fun _ g _ => by
      rw [hfile g]
  refine ⟨⟨inv_fork hs hv hq hinode hfile hproc hnote hlive hcwd hofile, fun r hr => ?_, trivial⟩,
    ?_⟩
  · by_cases hrq : r = q
    · subst hrq
      refine .inr ⟨hq, ?_, fun k => ?_⟩
      · simp only [refProto, view, hnote]
        exact (hs.gone r hq).1
      · have := hv.2 k
        simpa only [refProto, view, hproc, update_self, hofile, hfile] using this
    · exact .inl (hview r hrq)
  · rw [show refProto.view p s' = _ from hview p hp]
    exact hv

theorem wp_sysFork (hlive : v.proc.live = true) (hv : Idle v) :
    wp refProto p (sysFork q) (fun _ => Idle) v := by
  refine wp_step hlive fun s hs he _ => ?_
  subst he
  dsimp only
  by_cases hq : (s.proc q).live = true
  · rw [if_pos hq]
    exact ⟨((Quiet.refl p s).moved hs).keeps hs, hv⟩
  · rw [if_neg hq]
    have hp : p ≠ q := by
      rintro rfl
      exact hq hlive
    cases hc : (s.proc p).cwd with
    | none => trivial
    | some i => exact ok_fork hs hv (by simpa using hq) hp rfl (fun _ => rfl) rfl rfl rfl rfl rfl

end Rules

end Xv6.Fs.Demand
