import Xv6.Fs.Held

/-!
# What the functions on inodes do to references

Every function gives back the references that it takes, but for the one it answers. What `create`
answers has the type that it was asked for.
-/

namespace Xv6.Fs

open Lib
open List (mem_cons_of_mem mem_cons_self subset_cons_self)
open Prog (after_mono after_step)

variable {π : Type} [Fintype π] [DecidableEq π] {sb : Superblock} {p : π} {s s1 s' : FsSt π}
  {held held' keep : List Slot} {i j : Slot} {e : Nat} {name : Name}

/-! ## Programs -/

/-- Process `p` runs `x` from `s`: if it finishes, it has kept the references `keep` all the time
and has `held a` in the end, with `R`. -/
def Moves {α : Type} (sb : Superblock) (p : π) (s : FsSt π) (keep : List Slot) (x : FsProg π α)
    (held : α → List Slot) (R : α → FsSt π → Prop) : Prop :=
  x.after p (fun a s' => Goes sb s keep (held a) s' ∧ R a s') s

section Programs

variable {α β : Type} {x : FsProg π α} {g : α → FsProg π β} {m : α → List Slot} {n : β → List Slot}
  {R : α → FsSt π → Prop} {Q : β → FsSt π → Prop} {keep' : List Slot}

section
omit [DecidableEq π]

theorem Goes.read (h : Goes sb s keep held s') (hi : i ∈ keep) (hv : Read s i) : Read s' i :=
  (h.stays.type i (.inl hi) hv).1

theorem Goes.type (h : Goes sb s keep held s') (hi : i ∈ keep) (hv : Read s i) :
    (s'.inode i).d.type = (s.inode i).d.type :=
  (h.stays.type i (.inl hi) hv).2

end

namespace Moves

section
omit [DecidableEq π]

theorem bind (hx : Moves sb p s keep x m R) (hsub : keep' ⊆ keep)
    (hg : ∀ a s1, Goes sb s keep (m a) s1 → R a s1 → Moves sb p s1 keep' (g a) n Q) :
    Moves sb p s keep' (x >>= g) n Q := by
  refine Prog.after_bind (after_mono hx ?_)
  rintro a s1 ⟨h1, hR⟩
  refine after_mono (hg a s1 h1 hR) ?_
  rintro b s' ⟨h2, hQ⟩
  exact ⟨h1.trans hsub h2, hQ⟩

theorem ret {a : α} (h : Sound sb s (m a)) (hR : R a s) :
    Moves sb p s keep (pure a) m R :=
  Prog.after_ret ⟨⟨h, .refl s keep⟩, hR⟩

theorem post {R' : α → FsSt π → Prop} (hx : Moves sb p s keep x m R)
    (hR : ∀ a s', R a s' → R' a s') : Moves sb p s keep x m R' :=
  after_mono hx fun a s' h => ⟨h.1, hR a s' h.2⟩

theorem panic {msg : String} : Moves sb p s keep (Fs.panic msg) m R := by
  refine after_step ?_
  rintro _ _ ⟨⟩

theorem look {l : Lab} {f : π → FsSt π → Outcome (FsSt π) α} (h : Sound sb s held)
    (hf : ∀ a s', f p s = .done a s' → (s'.disk = s.disk ∧ s'.inode = s.inode ∧ s'.file = s.file ∧
      s'.proc = s.proc) ∧ R a s') : Moves sb p s held (Prog.step l f) (fun _ => held) R := by
  refine after_step fun a s' hr => ?_
  obtain ⟨⟨hd, hi, hf', hp⟩, hR⟩ := hf a s' hr
  exact ⟨h.same hd hi hf' hp, hR⟩

end

end Moves

section

variable (h : Sound sb s held)

include h

theorem moves_typeOf (mark : Bool) (i : Slot) :
    Moves sb p s held (typeOf mark i) (fun _ => held) fun t s' => t = (s'.inode i).d.type := by
  refine .look h ?_
  rintro _ _ ⟨⟩
  exact ⟨⟨rfl, rfl, rfl, rfl⟩, rfl⟩

section
omit [DecidableEq π]

theorem moves_inumOf (hi : i ∈ held) :
    Moves sb p s held (inumOf i) (fun _ => held) fun e _ => e < sb.ninodes.toNat := by
  refine .look h ?_
  rintro _ _ ⟨⟩
  exact ⟨⟨rfl, rfl, rfl, rfl⟩, (h.cache.slots i (h.pos (.inl hi))).2.2⟩

theorem moves_otherDev (dp ip : Slot) :
    Moves sb p s held (otherDev dp ip) (fun _ => held) fun _ _ => True := by
  refine .look h ?_
  rintro _ _ ⟨⟩
  exact ⟨⟨rfl, rfl, rfl, rfl⟩, trivial⟩

theorem moves_begin_op : Moves sb p s held begin_op (fun _ => held) fun _ _ => True := by
  refine .look h ?_
  rintro _ _ ⟨⟩
  exact ⟨⟨rfl, rfl, rfl, rfl⟩, trivial⟩

theorem moves_end_op : Moves sb p s held end_op (fun _ => held) fun _ _ => True := by
  refine .look h ?_
  rintro _ _ ⟨⟩
  exact ⟨⟨rfl, rfl, rfl, rfl⟩, trivial⟩

end

theorem moves_ilock (hi : i ∈ held) :
    Moves sb p s held (ilock sb i) (fun _ => held) fun _ s' => Read s' i ∧ s'.disk = s.disk :=
  goes_ilock h (.inl hi)

theorem moves_iunlock (i : Slot) : Moves sb p s held (iunlock i) (fun _ => held) fun _ _ => True :=
  after_mono (goes_iunlock h i) fun _ _ h1 => ⟨h1, trivial⟩

end

theorem moves_iput (hsb : sb.Ok) (h : Sound sb s (i :: held)) :
    Moves sb p s held (iput sb i) (fun _ => held) fun _ _ => True :=
  after_mono (goes_iput hsb h) fun _ _ h1 => ⟨h1, trivial⟩

theorem moves_iunlockput (hsb : sb.Ok) (h : Sound sb s (i :: held)) :
    Moves sb p s held (iunlockput sb i) (fun _ => held) fun _ _ => True :=
  .bind (moves_iunlock h i) (subset_cons_self i held) fun _ _ h1 _ => moves_iput hsb h1.sound

variable {dp ip : Slot}

omit [Fintype π] [DecidableEq π] in
theorem subset_cons_cons : held ⊆ ip :: dp :: held :=
  fun _ hm => mem_cons_of_mem ip (mem_cons_of_mem dp hm)

def withRef {γ : Type} (held : List Slot) (r : Option (Slot × γ)) : List Slot :=
  (r.map Prod.fst).toList ++ held

theorem moves_dirlookup (hsb : sb.Ok) (h : Sound sb s held) (hi : dp ∈ held) (hv : Read s dp) :
    Moves sb p s held (dirlookup sb dp name) (withRef held)
      fun r _ => ∀ i off, r = some (i, off) → ∃ k, off = 16 * k := by
  refine .bind (m := fun _ => held) (goes_dirscan hsb h hi hv) (List.Subset.refl held)
    fun r s1 h1 hr => ?_
  cases r with
  | none => exact .ret h1.sound nofun
  | some q =>
    obtain ⟨e, off⟩ := q
    obtain ⟨hpos, hlt, k, hoff⟩ := hr e off rfl
    refine .bind (m := fun i => i :: held) (goes_iget h1.sound hpos hlt) (List.Subset.refl held)
      fun i s2 h2 _ => ?_
    refine .ret h2.sound ?_
    rintro _ _ ⟨⟩
    exact ⟨k, hoff⟩

omit [DecidableEq π] in
theorem moves_addEntry (hsb : sb.Ok) (h : Sound sb s held) (hi : i ∈ held) (hv : Read s i)
    (he : e < sb.ninodes.toNat) : Moves sb p s held (onInode .log i fun d => addEntry sb d name e)
      (fun _ => held) fun _ _ => True :=
  after_mono (goes_addEntry hsb h hi hv he) fun _ _ h1 => ⟨h1, trivial⟩

theorem moves_dirlink (hsb : sb.Ok) (h : Sound sb s held) (hi : dp ∈ held) (hv : Read s dp)
    (he : e < sb.ninodes.toNat) :
    Moves sb p s held (dirlink sb dp name e) (fun _ => held) fun _ _ => True := by
  refine .bind (moves_dirlookup hsb h hi hv) (List.Subset.refl held) fun r s1 h1 _ => ?_
  cases r with
  | none =>
    refine .bind (moves_addEntry hsb h1.sound hi (h1.read hi hv) he) (List.Subset.refl held)
      fun _ s2 h2 _ => .ret h2.sound trivial
  | some q =>
    exact .bind (moves_iput hsb h1.sound) (List.Subset.refl held) fun _ s2 h2 _ =>
      .ret h2.sound trivial

theorem moves_walkFrom (hsb : sb.Ok) (parent : Bool) (path : List Name) (ip : Slot)
    (h : Sound sb s (ip :: held)) :
    Moves sb p s held (walkFrom sb parent ip path) (withRef held) fun _ _ => True := by
  have hsub : held ⊆ ip :: held := subset_cons_self ip held
  induction path generalizing ip s with
  | nil =>
    unfold walkFrom
    split
    · exact .bind (moves_iput hsb h) (List.Subset.refl held) fun _ s1 h1 _ => .ret h1.sound trivial
    · exact .ret h trivial
  | cons name rest ih =>
    unfold walkFrom
    refine .bind (moves_ilock h mem_cons_self) hsub fun _ s1 h1 hv => ?_
    refine .bind (moves_typeOf h1.sound false ip) hsub fun t s2 h2 _ => ?_
    split
    · exact .bind (moves_iunlockput hsb h2.sound) (List.Subset.refl held) fun _ s3 h3 _ =>
        .ret h3.sound trivial
    · split
      · exact .bind (moves_iunlock h2.sound ip) hsub fun _ s3 h3 _ => .ret h3.sound trivial
      · refine .bind (moves_dirlookup hsb h2.sound mem_cons_self
          (h2.read mem_cons_self hv.1)) hsub fun r s3 h3 _ => ?_
        cases r with
        | none =>
          exact .bind (moves_iunlockput hsb h3.sound) (List.Subset.refl held) fun _ s4 h4 _ =>
            .ret h4.sound trivial
        | some q =>
          refine .bind (moves_iunlockput hsb (h3.sound.perm (.swap _ _ _)))
            (subset_cons_self q.1 held) fun _ s4 h4 _ => ih q.1 h4.sound (subset_cons_self q.1 held)

theorem moves_namex (hsb : sb.Ok) (h : Sound sb s held) (parent : Bool) (path : Path) :
    Moves sb p s held (namex sb parent path) (withRef held) fun _ _ => True := by
  have hstart : Moves sb p s held (startOf path) (fun i => i :: held) fun _ _ => True := by
    unfold startOf
    split
    · exact after_mono (goes_iget h (by decide) hsb.root) fun _ _ h1 => ⟨h1.1, trivial⟩
    · exact after_mono (goes_idupCwd h) fun _ _ h1 => ⟨h1, trivial⟩
  exact .bind hstart (List.Subset.refl held) fun ip s1 h1 _ =>
    moves_walkFrom hsb parent _ ip h1.sound

theorem moves_namei (hsb : sb.Ok) (h : Sound sb s held) (path : Path) :
    Moves sb p s held (namei sb path) (fun r => r.toList ++ held) fun _ _ => True :=
  .bind (moves_namex hsb h false path) (List.Subset.refl held) fun _ _ h1 _ => .ret h1.sound trivial

/-- Slot `i` has an inode of type `t` that has been read. -/
def Typed (s : FsSt π) (i : Slot) (t : BitVec 16) : Prop := Read s i ∧ (s.inode i).d.type = t

omit [DecidableEq π] in
theorem Goes.typed {t : BitVec 16} (h : Goes sb s keep held s') (hi : i ∈ keep) (ht : Typed s i t) :
    Typed s' i t :=
  ⟨h.read hi ht.1, (h.type hi ht.1).trans ht.2⟩

variable {type : BitVec 16}

section

variable (hsb : sb.Ok)

include hsb

theorem moves_iprobe (h : Sound sb s held) (hkind : Kind type) (he : e < sb.ninodes.toNat) :
    Moves sb p s held (iprobe sb dp type e) (fun _ => held)
      fun free s' => free = true → (dinode sb s'.disk e).type = type := by
  refine after_step fun free s' hr => ?_
  by_cases hfree : (dinode sb s.disk e).type = 0
  · rw [if_pos hfree] at hr
    cases hr
    have hsec := Owner.blank (s := ⟨s.disk, Dinode.zero, [], []⟩)
      [IBLOCK e sb] hsb h.own he (.inl hfree)
      (show Blank { Dinode.zero with type := type } from .inr ⟨rfl, rfl⟩)
    have hsuper : readsb (putDinode sb s.disk e { Dinode.zero with type := type }) = sb := by
      have hs := h.super
      have h1 := hsec.super
      unfold readsb at hs ⊢
      dsimp only at h1
      rw [h1]
      exact hs
    have hempty : ∀ k, ¬ k < entries { Dinode.zero with type := type } := fun k hk => by
      simp [entries, Dinode.zero] at hk
    refine ⟨⟨⟨hsec.own, hsuper, h.cache.setDisk fun i hi hv => ?_, h.refs,
      h.names.section h.own hsec hkind fun _ k hk => absurd hk (hempty k), h.unused, h.files⟩,
      rfl, rfl, fun _ _ => rfl, fun _ _ hv => ⟨hv, rfl⟩⟩, fun _ => ?_⟩
    · -- an inode that has been read is not free
      obtain ⟨hd, ht⟩ := h.cache.coherent i hi hv
      refine hsec.dinodes _ (h.cache.slots i hi).2.2 fun hie => ht ?_
      rw [hd, hie]
      exact hfree
    · exact congrArg Dinode.type hsec.inode
  · rw [if_neg hfree] at hr
    cases hr
    exact ⟨h.same rfl rfl rfl rfl, fun hf => absurd hf Bool.false_ne_true⟩

theorem moves_iallocFrom (hkind : Kind type) (es : List Nat)
    (hes : ∀ e ∈ es, 0 < e ∧ e < sb.ninodes.toNat) (h : Sound sb s held) :
    Moves sb p s held (iallocFrom sb dp type es) (fun i => i :: held)
      fun i s' => (dinode sb s'.disk (s'.inode i).inum).type = type := by
  induction es generalizing s with
  | nil => exact .panic
  | cons e es ih =>
    obtain ⟨hpos, hlt⟩ := hes e mem_cons_self
    refine .bind (moves_iprobe hsb h hkind hlt) (List.Subset.refl held) fun free s1 h1 ht => ?_
    cases free with
    | false => exact ih (fun d hd => hes d (mem_cons_of_mem e hd)) h1.sound
    | true =>
      refine after_mono (goes_iget h1.sound hpos hlt) ?_
      rintro i s2 ⟨h2, hinum, hdisk⟩
      refine ⟨h2, ?_⟩
      dsimp only
      rw [hinum, hdisk]
      exact ht rfl

theorem moves_ialloc (hkind : Kind type) (h : Sound sb s held) :
    Moves sb p s held (ialloc sb dp type) (fun i => i :: held)
      fun i s' => (dinode sb s'.disk (s'.inode i).inum).type = type := by
  refine moves_iallocFrom hsb hkind _ (fun e he => ?_) h
  obtain ⟨k, hk, rfl⟩ := List.mem_map.1 he
  rw [List.mem_range] at hk
  omega

omit [DecidableEq π] in
theorem moves_setFields (h : Sound sb s held) (hi : i ∈ held) (hv : Read s i) {f : Dinode → Dinode}
    (hf : ∀ d, (f d).type = d.type ∧ (f d).addrs = d.addrs ∧ (f d).size = d.size) :
    Moves sb p s held (setFields sb i f) (fun _ => held) fun _ _ => True :=
  after_mono (goes_setFields hsb h hi hv hf) fun _ _ h1 => ⟨h1, trivial⟩

theorem moves_createDots (h : Sound sb s held) (hdp : dp ∈ held) (hip : ip ∈ held) (hvd : Read s dp)
    (hvi : Read s ip) (he : e < sb.ninodes.toNat) (type : BitVec 16) :
    Moves sb p s held (createDots sb dp ip e type) (fun _ => held) fun _ _ => True := by
  have hsub := List.Subset.refl held
  unfold createDots
  split
  · refine .bind (moves_setFields hsb h hdp hvd fun _ => ⟨rfl, rfl, rfl⟩) hsub fun _ s1 h1 _ => ?_
    have hvi1 := h1.read hip hvi
    refine .bind (moves_dirlink hsb h1.sound hip hvi1 he) hsub fun ok s2 h2 _ => ?_
    split
    · refine .bind (moves_inumOf h2.sound hdp) hsub fun de s3 h3 hde => ?_
      refine .bind (moves_dirlink hsb h3.sound hip (h3.read hip (h2.read hip hvi1)) hde) hsub
        fun ok s4 h4 _ => ?_
      split
      · exact .ret h4.sound trivial
      · exact .panic
    · exact .panic
  · exact .ret h trivial

variable {major minor : BitVec 16}

theorem moves_createNew (h : Sound sb s (dp :: held)) (hv : Read s dp) (hkind : Kind type) :
    Moves sb p s held (createNew sb dp name type major minor) (fun r => r.toList ++ held)
      fun r s' => ∀ ip, r = some ip → Typed s' ip type := by
  refine .bind (moves_ialloc hsb hkind h) (subset_cons_self dp held) fun ip s1 h1 hfresh => ?_
  have hip : ip ∈ ip :: dp :: held := mem_cons_self
  have hdp : dp ∈ ip :: dp :: held := mem_cons_of_mem ip mem_cons_self
  have hsub : held ⊆ ip :: dp :: held := subset_cons_cons
  refine .bind (moves_ilock h1.sound hip) hsub fun _ s2 h2 hread => ?_
  obtain ⟨hread, hdisk⟩ := hread
  have hd2 : Read s2 dp := h2.read hdp (h1.read mem_cons_self hv)
  have ht2 : Typed s2 ip type := by
    refine ⟨hread, ?_⟩
    rw [(h2.sound.cache.coherent ip (h2.sound.pos (.inl hip)) hread).1, hdisk,
      h2.stays.inum ip (.inl hip)]
    exact hfresh
  refine .bind (moves_setFields hsb h2.sound hip hread fun _ => ⟨rfl, rfl, rfl⟩) hsub
    fun _ s3 h3 _ => ?_
  refine .bind (moves_inumOf h3.sound hip) hsub fun e s4 h4 he => ?_
  have hd4 := h4.read hdp (h3.read hdp hd2)
  have ht4 := h4.typed hip (h3.typed hip ht2)
  refine .bind (moves_createDots hsb h4.sound hdp hip hd4 ht4.1 he type) hsub fun _ s5 h5 _ => ?_
  refine .bind (moves_dirlink hsb h5.sound hdp (h5.read hdp hd4) he) hsub fun ok s6 h6 _ => ?_
  split
  · refine .bind (moves_iunlockput hsb (h6.sound.perm (.swap _ _ _)))
      (subset_cons_self ip held) fun _ s7 h7 _ => .ret h7.sound ?_
    rintro _ ⟨⟩
    exact h7.typed mem_cons_self (h6.typed hip (h5.typed hip ht4))
  · exact .panic

theorem moves_create (h : Sound sb s held) (hkind : Kind type) (path : Path) :
    Moves sb p s held (create sb path type major minor) (fun r => r.toList ++ held)
      fun r s' => ∀ ip, r = some ip → Typed s' ip type := by
  have hrefl := List.Subset.refl held
  refine .bind (moves_namex hsb h true path) hrefl fun r s1 h1 _ => ?_
  cases r with
  | none => exact .ret h1.sound nofun
  | some q =>
    obtain ⟨dp, name⟩ := q
    have hsub : held ⊆ dp :: held := subset_cons_self dp held
    refine .bind (moves_ilock h1.sound mem_cons_self) hsub fun _ s2 h2 hv => ?_
    refine .bind (moves_dirlookup hsb h2.sound mem_cons_self hv.1) hsub fun r s3 h3 _ => ?_
    cases r with
    | none => exact moves_createNew hsb h3.sound (h3.read mem_cons_self hv.1) hkind
    | some q =>
      obtain ⟨ip, off⟩ := q
      have hsub' : held ⊆ ip :: held := subset_cons_self ip held
      refine .bind (moves_iunlockput hsb (h3.sound.perm (.swap _ _ _))) hsub' fun _ s4 h4 _ => ?_
      refine .bind (moves_ilock h4.sound mem_cons_self) hsub' fun _ s5 h5 hi => ?_
      refine .bind (moves_typeOf h5.sound true ip) hsub' fun t s6 h6 ht => ?_
      split
      · next hc =>
        refine .ret h6.sound ?_
        rintro _ ⟨⟩
        exact ⟨h6.read mem_cons_self hi.1, by rw [← ht, hc.1, hc.2]⟩
      · exact .bind (moves_iunlockput hsb h6.sound) hrefl fun _ s7 h7 _ => .ret h7.sound nofun

/-! ## The calls that leave files alone -/

theorem moves_sysMake (h : Sound sb s held) (hkind : Kind type) (path : Option Path) :
    Moves sb p s held (sysMake sb path type major minor) (fun _ => held) fun _ _ => True := by
  have hrefl := List.Subset.refl held
  refine .bind (moves_begin_op h) hrefl fun _ s1 h1 _ => ?_
  cases path with
  | none => exact moves_end_op h1.sound
  | some path =>
    refine .bind (moves_create hsb h1.sound hkind path) hrefl fun r s2 h2 _ => ?_
    cases r with
    | none => exact moves_end_op h2.sound
    | some ip =>
      exact .bind (moves_iunlockput hsb h2.sound) hrefl fun _ s3 h3 _ => moves_end_op h3.sound

theorem moves_unlinkBack (h : Sound sb s (ip :: held)) :
    Moves sb p s held (unlinkBack sb ip) (fun _ => held) fun _ _ => True := by
  have hsub : held ⊆ ip :: held := subset_cons_self ip held
  refine .bind (moves_ilock h mem_cons_self) hsub fun _ s1 h1 hv => ?_
  refine .bind (moves_setFields hsb h1.sound mem_cons_self hv.1 fun _ => ⟨rfl, rfl, rfl⟩) hsub
    fun _ s2 h2 _ => ?_
  exact .bind (moves_iunlockput hsb h2.sound) (List.Subset.refl held) fun _ s3 h3 _ =>
    moves_end_op h3.sound

theorem moves_linkInto (h : Sound sb s held) (hdp : dp ∈ held) (hip : ip ∈ held) :
    Moves sb p s held (linkInto sb dp ip name) (fun _ => held) fun _ _ => True := by
  have hrefl := List.Subset.refl held
  refine .bind (moves_ilock h hdp) hrefl fun _ s1 h1 hv => ?_
  refine .bind (moves_otherDev h1.sound dp ip) hrefl fun other s2 h2 _ => ?_
  split
  · exact .ret h2.sound trivial
  · refine .bind (moves_inumOf h2.sound hip) hrefl fun e s3 h3 he => ?_
    exact moves_dirlink hsb h3.sound hdp (h3.read hdp (h2.read hdp hv.1)) he

theorem moves_sysLink (h : Sound sb s held) (old new : Option Path) :
    Moves sb p s held (sysLink sb old new) (fun _ => held) fun _ _ => True := by
  have hrefl := List.Subset.refl held
  unfold sysLink
  split
  · next old new =>
    refine .bind (moves_begin_op h) hrefl fun _ s1 h1 _ => ?_
    refine .bind (moves_namei hsb h1.sound old) hrefl fun r s2 h2 _ => ?_
    cases r with
    | none => exact moves_end_op h2.sound
    | some ip =>
      have hsub : held ⊆ ip :: held := subset_cons_self ip held
      have hip : ip ∈ ip :: held := mem_cons_self
      refine .bind (moves_ilock h2.sound hip) hsub fun _ s3 h3 hv => ?_
      refine .bind (moves_typeOf h3.sound true ip) hsub fun t s4 h4 _ => ?_
      split
      · exact .bind (moves_iunlockput hsb h4.sound) hrefl fun _ s5 h5 _ => moves_end_op h5.sound
      · refine .bind (moves_setFields hsb h4.sound hip (h4.read hip hv.1) fun _ => ⟨rfl, rfl, rfl⟩)
          hsub fun _ s5 h5 _ => ?_
        refine .bind (moves_iunlock h5.sound ip) hsub fun _ s6 h6 _ => ?_
        refine .bind (moves_namex hsb h6.sound true new) hsub fun r s7 h7 _ => ?_
        cases r with
        | none => exact moves_unlinkBack hsb h7.sound
        | some q =>
          obtain ⟨dp, name⟩ := q
          refine .bind
            (moves_linkInto hsb h7.sound mem_cons_self (mem_cons_of_mem dp hip))
            subset_cons_cons fun linked s8 h8 _ => ?_
          refine .bind (moves_iunlockput hsb h8.sound) hsub fun _ s9 h9 _ => ?_
          split
          · exact .bind (moves_iput hsb h9.sound) hrefl fun _ s10 h10 _ => moves_end_op h10.sound
          · exact moves_unlinkBack hsb h9.sound
  · exact .ret h trivial

omit [DecidableEq π] in
theorem moves_checkUnlink (h : Sound sb s held) (hi : i ∈ held) (hv : Read s i) :
    Moves sb p s held (checkUnlink sb i) (fun _ => held) fun _ _ => True := by
  obtain ⟨hlt, hip, ht⟩ := h.copy (h.pos (.inl hi)) hv
  have htidy : Tidy sb (s.inode i).inum (s.before i) (s.before i) :=
    Tidy.refl h.own h.names hlt hip
  refine goes_tidy (Q := fun _ => True) (E := Fine) h (.inl hi) hv ?_
  apply sat_get
  split
  · exact (by simp [Fine] : Fine "unlink: nlink < 1")
  · split
    · refine (isdirempty_spec hsb hlt h.own hip ht).bind fun r u hu => ?_
      rw [hu.1]
      exact sat_pure ⟨htidy, trivial⟩
    · exact sat_pure ⟨htidy, trivial⟩

theorem moves_unlinkBad (h : Sound sb s (dp :: held)) :
    Moves sb p s held (unlinkBad sb dp) (fun _ => held) fun _ _ => True :=
  .bind (moves_iunlockput hsb h) (List.Subset.refl held) fun _ _ h1 _ => moves_end_op h1.sound

theorem moves_unlinkEntry {k : Nat} (h : Sound sb s (ip :: dp :: held)) (hvd : Read s dp)
    (hvi : Read s ip) (dir : Bool) :
    Moves sb p s held (unlinkEntry sb dp ip (16 * k) dir) (fun _ => held) fun _ _ => True := by
  have hip : ip ∈ ip :: dp :: held := mem_cons_self
  have hdp : dp ∈ ip :: dp :: held := mem_cons_of_mem ip mem_cons_self
  have hsub : held ⊆ ip :: dp :: held := subset_cons_cons
  have hsub' : held ⊆ ip :: held := subset_cons_self ip held
  have herase : Moves sb p s (ip :: dp :: held)
      (onInode (.erase ip) dp fun d => eraseEntry sb d (16 * k)) (fun _ => ip :: dp :: held)
        fun _ _ => True :=
    after_mono (goes_eraseEntry hsb h hdp hvd) fun _ _ h1 => ⟨h1, trivial⟩
  refine .bind herase hsub fun _ s1 h1 _ => ?_
  have hdrop : Moves sb p s1 (ip :: dp :: held) (dropDotdot sb dp dir) (fun _ => ip :: dp :: held)
      fun _ _ => True := by
    unfold dropDotdot
    split
    · exact moves_setFields hsb h1.sound hdp (h1.read hdp hvd) fun _ => ⟨rfl, rfl, rfl⟩
    · exact .ret h1.sound trivial
  refine .bind hdrop hsub fun _ s2 h2 _ => ?_
  refine .bind (moves_iunlockput hsb (h2.sound.perm (.swap _ _ _))) hsub' fun _ s3 h3 _ => ?_
  have hvi3 : Read s3 ip := h3.read mem_cons_self (h2.read hip (h1.read hip hvi))
  refine .bind (moves_setFields hsb h3.sound mem_cons_self hvi3 fun _ => ⟨rfl, rfl, rfl⟩) hsub'
    fun _ s4 h4 _ => ?_
  exact .bind (moves_iunlockput hsb h4.sound) (List.Subset.refl held) fun _ s5 h5 _ =>
    moves_end_op h5.sound

theorem moves_sysUnlink (h : Sound sb s held) (path : Option Path) :
    Moves sb p s held (sysUnlink sb path) (fun _ => held) fun _ _ => True := by
  have hrefl := List.Subset.refl held
  cases path with
  | none => exact .ret h trivial
  | some path =>
    refine .bind (moves_begin_op h) hrefl fun _ s1 h1 _ => ?_
    refine .bind (moves_namex hsb h1.sound true path) hrefl fun r s2 h2 _ => ?_
    cases r with
    | none => exact moves_end_op h2.sound
    | some q =>
      obtain ⟨dp, name⟩ := q
      have hsub : held ⊆ dp :: held := subset_cons_self dp held
      have hdp : dp ∈ dp :: held := mem_cons_self
      refine .bind (moves_ilock h2.sound hdp) hsub fun _ s3 h3 hv => ?_
      split
      · exact moves_unlinkBad hsb h3.sound
      · refine .bind (moves_dirlookup hsb h3.sound hdp hv.1) hsub fun r s4 h4 hoff => ?_
        cases r with
        | none => exact moves_unlinkBad hsb h4.sound
        | some q =>
          obtain ⟨ip, off⟩ := q
          obtain ⟨k, rfl⟩ := hoff ip off rfl
          have hip : ip ∈ ip :: dp :: held := mem_cons_self
          have hdp' : dp ∈ ip :: dp :: held := mem_cons_of_mem ip hdp
          have hsub' : held ⊆ ip :: dp :: held := subset_cons_cons
          refine .bind (moves_ilock h4.sound hip) hsub' fun _ s5 h5 hi => ?_
          refine .bind (moves_checkUnlink hsb h5.sound hip hi.1) hsub' fun r s6 h6 _ => ?_
          obtain ⟨dir, empty⟩ := r
          dsimp only
          split
          · exact moves_unlinkEntry hsb h6.sound
              (h6.read hdp' (h5.read hdp' (h4.read hdp hv.1))) (h6.read hip hi.1) dir
          · exact .bind (moves_iunlockput hsb h6.sound) hsub fun _ s7 h7 _ =>
              moves_unlinkBad hsb h7.sound

theorem moves_readInode (h : Sound sb s held) (hi : i ∈ held) (hv : Read s i) (off n : Nat)
    (con : Option Nat) :
    Moves sb p s held (readInode sb i off n con) (fun _ => held) fun _ s' => Read s' i := by
  have hrefl := List.Subset.refl held
  have hdev : Moves sb p s held (devOf i) (fun _ => held) fun _ _ => True := by
    refine .look h ?_
    rintro _ _ ⟨⟩
    exact ⟨⟨rfl, rfl, rfl, rfl⟩, trivial⟩
  refine .bind hdev hrefl fun r s1 h1 _ => ?_
  have hv1 := h1.read hi hv
  match r with
  | some true =>
    have hcon : Moves sb p s1 held (console sb i) (fun _ => held) fun _ s' => Read s' i :=
      .bind (moves_iunlock h1.sound i) hrefl fun _ s2 h2 _ =>
        (moves_ilock h2.sound hi).post fun _ _ hr => hr.1
    exact .bind hcon hrefl fun _ s2 h2 hr => .ret h2.sound hr
  | some false => exact .ret h1.sound hv1
  | none =>
    obtain ⟨hlt, hip, ht⟩ := h1.sound.copy (h1.sound.pos (.inl hi)) hv1
    have hread : Moves sb p s1 held (onInode .other i fun _ => readi sb off n) (fun _ => held)
        fun _ _ => True := by
      refine goes_tidy (Q := fun _ => True) (E := Fine) h1.sound (.inl hi) hv1 ?_
      refine ((h1.sound.own.work (s := s1.before i) hip ht).readi hsb hlt).mono fun r u hu => ?_
      rw [hu.1]
      exact ⟨Tidy.refl h1.sound.own h1.sound.names hlt hip, trivial⟩
    exact .bind hread hrefl fun _ s2 h2 _ => .ret h2.sound (h2.read hi hv1)

theorem moves_execReads (hi : i ∈ held) (reads : List (Nat × Nat × Bool)) (h : Sound sb s held)
    (hv : Read s i) : Moves sb p s held (execReads sb i reads) (fun _ => held) fun _ _ => True := by
  induction reads generalizing s with
  | nil => exact .ret h trivial
  | cons r reads ih =>
    refine .bind (moves_readInode hsb h hi hv r.1 r.2.1 none) (List.Subset.refl held)
      fun _ s1 h1 hv1 => ?_
    split
    · exact ih h1.sound hv1
    · exact .ret h1.sound trivial

theorem moves_sysExec (h : Sound sb s held) (path : Option Path) (reads : List (Nat × Nat × Bool))
    (stack : Bool) :
    Moves sb p s held (sysExec sb path reads stack) (fun _ => held) fun _ _ => True := by
  have hrefl := List.Subset.refl held
  cases path with
  | none => exact .ret h trivial
  | some path =>
    refine .bind (moves_begin_op h) hrefl fun _ s1 h1 _ => ?_
    refine .bind (moves_namei hsb h1.sound path) hrefl fun r s2 h2 _ => ?_
    cases r with
    | none => exact moves_end_op h2.sound
    | some ip =>
      have hsub : held ⊆ ip :: held := subset_cons_self ip held
      refine .bind (moves_ilock h2.sound mem_cons_self) hsub fun _ s3 h3 hv => ?_
      refine .bind (moves_execReads hsb mem_cons_self reads h3.sound hv.1) hsub
        fun _ s4 h4 _ => ?_
      split
      · refine .bind (moves_iunlockput hsb h4.sound) hrefl fun _ s5 h5 _ =>
          .bind (moves_end_op h5.sound) hrefl fun _ s6 h6 _ => ?_
        split <;> exact .ret h6.sound trivial
      · exact .bind (moves_iunlockput hsb h4.sound) hrefl fun _ s5 h5 _ => moves_end_op h5.sound

end

end Programs

end Xv6.Fs
