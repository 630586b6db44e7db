import Xv6.Log.Model

/-!
# A crash at any point leaves all of a transaction or none of it

`Txn` is a disk with an empty log and a transaction in memory. While `commit` runs, the
disk is in one of three stages: `Before` the header with `n > 0` is written, `Between` that
write and the one that clears the header, and `After`. Recovery from `Before` or `After`
changes only the header, and recovery from `Between` installs the transaction; a crash
inside a recovery stays in the stage it started from or has reached `After`.
-/

namespace Xv6.Log

open Lib Prog
open Function (update update_of_ne update_self)

/-- A disk with an empty log, and a transaction in memory with the cached contents `new`. -/
structure Txn where
  start : Nat
  size : Nat
  lh : LogHeader
  old : Nat → Block
  new : Nat → Block
  nodup : lh.block.Nodup
  fits : (lh.n : Int) ≤ size - 1
  outside : ∀ b ∈ lh.block, ¬ (start ≤ b.toNat ∧ b.toNat < start + size)
  clean : headN (old start) = 0

variable {b : BitVec 32} {d f : Nat → Block}

namespace Txn

variable (t : Txn)

/-- Memory and disk when `commit` is called. -/
def mem : LogMem := ⟨t.start, t.size, t.lh, t.new, t.old, []⟩

def InLog (b : Nat) : Prop := t.start ≤ b ∧ b < t.start + t.size

/-- The contents outside the log when the whole transaction has taken effect. -/
def post (b : Nat) : Block := if b ∈ t.lh.block.map BitVec.toNat then t.new b else t.old b

/-- The first `write_head`, with `n > 0`, is among the writes issued. -/
def Committed (m : LogMem) : Prop := ∃ h, (t.start, h) ∈ m.writes ∧ 0 < headN h

/-! ## The three stages of the disk -/

def Before (d : Nat → Block) : Prop := headN (d t.start) = 0 ∧ ∀ b, ¬ t.InLog b → d b = t.old b

structure Between (d : Nat → Block) : Prop where
  head : headN (d t.start) = t.lh.n
  blocks : headBlocks (d t.start) t.lh.n = t.lh.block
  copies : ∀ i b, t.lh.block[i]? = some b → d (t.start + i + 1) = t.new b.toNat
  rest : ∀ b, ¬ t.InLog b → b ∉ t.lh.block.map BitVec.toNat → d b = t.old b

def After (d : Nat → Block) : Prop := headN (d t.start) = 0 ∧ ∀ b, ¬ t.InLog b → d b = t.post b

theorem header_inLog : t.InLog t.start := by
  have := t.fits
  unfold InLog
  omega

variable {i : Nat}

theorem copy_inLog (h : t.lh.block[i]? = some b) : t.InLog (t.start + i + 1) := by
  have hi : i < t.lh.n := (List.getElem?_eq_some_iff.mp h).1
  have := t.fits
  unfold InLog
  omega

theorem home_not_inLog (h : t.lh.block[i]? = some b) :
    ¬ t.InLog b.toNat := t.outside b (List.mem_of_getElem? h)

variable {t}

theorem Before.update_inLog (h : t.Before d) {b : Nat} (hb : t.InLog b) (hne : b ≠ t.start)
    (v : Block) : t.Before (update d b v) := by
  refine ⟨?_, fun c hc => ?_⟩
  · rw [update_of_ne (Ne.symm hne)]
    exact h.1
  · rw [update_of_ne (by rintro rfl; exact hc hb)]
    exact h.2 c hc

theorem Between.update_home (h : t.Between d) (hb : t.lh.block[i]? = some b) (v : Block) :
    t.Between (update d b.toNat v) := by
  have hout := t.home_not_inLog hb
  have hne : t.start ≠ b.toNat := by
    rintro he
    exact hout (he ▸ t.header_inLog)
  refine ⟨?_, ?_, fun j c hc => ?_, fun c hc hmem => ?_⟩
  · rw [update_of_ne hne]
    exact h.head
  · rw [update_of_ne hne]
    exact h.blocks
  · rw [update_of_ne (by rintro he; exact hout (he ▸ t.copy_inLog hc))]
    exact h.copies j c hc
  · rw [update_of_ne]
    · exact h.rest c hc hmem
    · rintro rfl
      exact hmem (List.mem_map.mpr ⟨b, List.mem_of_getElem? hb, rfl⟩)

theorem update_header_outside (v : Block) (h : ∀ b, ¬ t.InLog b → d b = f b) :
    ∀ b, ¬ t.InLog b → update d t.start v b = f b := by
  intro b hb
  rw [update_of_ne (by rintro rfl; exact hb t.header_inLog)]
  exact h b hb

end Txn

/-- What is left alone while `commit` runs on the memory `m0`: the geometry, and the header
up to clearing it. -/
structure InCommit (m0 m : LogMem) : Prop where
  start : m.start = m0.start
  size : m.size = m0.size
  lh : m.lh = m0.lh ∨ m.lh = .empty

variable {m : LogMem}

theorem InCommit.put {m0 : LogMem} (h : InCommit m0 m) (b : Nat) (v : Block) :
    InCommit m0 (m.put b v) := ⟨h.start, h.size, h.lh⟩

/-! ## The loop over the header -/

variable {π : Type} {p : π} {I : LogMem → Prop}

theorem seq_mem {α : Type} {g : LogMem → Prog π LogMem Unit α} {Q : α → LogMem → Prop} (hI : I m)
    (h : (g m).seq p I Q m) : (Log.mem >>= g).seq p I Q m :=
  seq_step hI rfl h

variable {Q : Unit → LogMem → Prop}

theorem seq_copy {a b c : Nat} {f : Block → Block → Block} (hI : I m)
    (hI' : I (m.put c (f (m.buf a) (m.buf b)))) (h : Q () (m.put c (f (m.buf a) (m.buf b)))) :
    (bread (π := π) a >>= fun v => bread b >>= fun w => bwrite c (f v w)).seq p I Q m :=
  seq_step hI rfl (seq_step hI rfl (seq_last hI rfl hI' h))

theorem seq_writeHead (hI : I m) (hI' : I (m.put m.start (putHead m.lh (m.buf m.start))))
    (h : Q () (m.put m.start (putHead m.lh (m.buf m.start)))) : (writeHead (π := π)).seq p I Q m :=
  seq_mem hI (seq_step hI rfl (seq_last hI rfl hI' h))

theorem seq_readHead (lh : LogHeader) (hn : (headN (m.buf m.start)).toNat = lh.n)
    (hb : headBlocks (m.buf m.start) lh.n = lh.block) (hI : I m) (hI' : I { m with lh })
    (h : Q () { m with lh }) : (readHead (π := π)).seq p I Q m := by
  refine seq_mem hI (seq_step hI rfl ?_)
  have hcap : (headN (m.buf m.start)).toNat ≤ LOGSIZE := hn ▸ lh.cap
  have hlh : (⟨headBlocks (m.buf m.start) (headN (m.buf m.start)).toNat, by
      simpa [headBlocks] using hcap⟩ : LogHeader) = lh := by
    cases lh
    simpa only [LogHeader.mk.injEq, hn] using hb
  rw [dif_pos hcap, hlh]
  exact seq_last hI rfl hI' h

theorem seq_forTail (lh : LogHeader)
    {body : Nat → BitVec 32 → Prog π LogMem Unit Unit} {J : Nat → LogMem → Prop}
    (hI : ∀ i m, J i m → I m) (hlh : ∀ i m, J i m → m.lh = lh)
    (hbody : ∀ i b m, J i m → lh.block[i]? = some b →
      (body i b).seq p I (fun _ m' => J (i + 1) m') m) (h : J 0 m) :
    (forTail body (LOGSIZE + 1) 0).seq p I (fun _ m' => J lh.n m') m := by
  -- the remaining fuel always exceeds the remaining rounds
  suffices key : ∀ fuel i m, lh.n < i + fuel → i ≤ lh.n → J i m →
      (forTail body fuel i).seq p I (fun _ m' => J lh.n m') m from
    key _ 0 m (by have := lh.cap; simp only [LogHeader.n]; omega) (Nat.zero_le _) h
  intro fuel
  induction fuel with
  | zero => intro i m hlt hle; omega
  | succ fuel ih =>
    intro i m hlt hle hJ
    rw [forTail]
    refine seq_mem (hI i m hJ) ?_
    rw [hlh i m hJ]
    cases hb : lh.block[i]? with
    | none =>
      have hi : i = lh.n := le_antisymm hle (List.getElem?_eq_none_iff.mp hb)
      exact ⟨hI i m hJ, hi ▸ hJ⟩
    | some b =>
      have hi : i < lh.n := (List.getElem?_eq_some_iff.mp hb).1
      exact seq_bind (seq_mono (hbody i b m hJ hb) (fun _ h => h)
        (fun _ m' _ hJ' => ih (i + 1) m' (by omega) (by omega) hJ'))

/-! ## Installing the transaction -/

namespace Txn

variable {t : Txn}

/-- The memory of a kernel that has the transaction in its header and the copies in the log,
with the first `k` blocks installed. `c` is what the cache holds for all other blocks. -/
structure Installing (t : Txn) (c : Nat → Block) (k : Nat) (m : LogMem) : Prop where
  start : m.start = t.start
  size : m.size = t.size
  lh : m.lh = t.lh
  disk : t.Between m.disk
  copies : ∀ i b, t.lh.block[i]? = some b → m.buf (t.start + i + 1) = t.new b.toNat
  homes : ∀ i b, i < k → t.lh.block[i]? = some b →
    m.disk b.toNat = t.new b.toNat ∧ m.buf b.toNat = t.new b.toNat
  kept : ∀ b, ¬ t.InLog b → b ∉ t.lh.block.map BitVec.toNat → m.buf b = c b

variable {c : Nat → Block} {k : Nat}

theorem Installing.put (h : t.Installing c k m) (hb : t.lh.block[k]? = some b) :
    t.Installing c (k + 1) (m.put b.toNat (t.new b.toNat)) := by
  refine ⟨h.start, h.size, h.lh, h.disk.update_home hb _, fun i a ha => ?_, fun i a hi ha => ?_,
    fun a ha hmem => ?_⟩
  · have hne : t.start + i + 1 ≠ b.toNat := fun he =>
      t.home_not_inLog hb (he ▸ t.copy_inLog ha)
    rw [LogMem.put_buf, update_of_ne hne]
    exact h.copies i a ha
  · rw [LogMem.put_disk, LogMem.put_buf]
    by_cases he : a.toNat = b.toNat
    · rw [he, update_self, update_self]
      exact ⟨rfl, rfl⟩
    · rw [update_of_ne he, update_of_ne he]
      have hik : i ≠ k := by
        rintro rfl
        rw [hb] at ha
        cases ha
        exact he rfl
      exact h.homes i a (by omega) ha
  · have hne : a ≠ b.toNat := by
      rintro rfl
      exact hmem (List.mem_map.mpr ⟨b, List.mem_of_getElem? hb, rfl⟩)
    rw [LogMem.put_buf, update_of_ne hne]
    exact h.kept a ha hmem

variable {v : Block}

theorem Installing.after (h : t.Installing c t.lh.n m) (hv : headN v = 0) :
    t.After (update m.disk t.start v) := by
  refine ⟨by simpa using hv, update_header_outside v fun b hb => ?_⟩
  unfold post
  split
  · rename_i hmem
    obtain ⟨a, ha, rfl⟩ := List.mem_map.mp hmem
    obtain ⟨i, hi⟩ := List.mem_iff_getElem?.mp ha
    exact (h.homes i a (List.getElem?_eq_some_iff.mp hi).1 hi).1
  · rename_i hmem
    exact h.disk.rest b hb hmem

theorem seq_installTrans {K : LogMem → Prop} (hK : ∀ m b v, K m → K (m.put b v))
    (h : t.Installing c 0 m) (hm : K m) :
    (installTrans (π := π)).seq p (fun m => t.Between m.disk ∧ K m)
      (fun _ m' => t.Installing c t.lh.n m' ∧ K m') m := by
  refine seq_forTail t.lh (J := fun k m => t.Installing c k m ∧ K m)
    (fun _ _ hJ => ⟨hJ.1.disk, hJ.2⟩)
    (fun _ _ hJ => hJ.1.lh) (fun i b m hJ hb => ?_) ⟨h, hm⟩
  obtain ⟨hJ, hKm⟩ := hJ
  have hI : t.Between m.disk ∧ K m := ⟨hJ.disk, hKm⟩
  have hread : m.buf (m.start + i + 1) = t.new b.toNat := by
    rw [hJ.start]
    exact hJ.copies i b hb
  have hnext := hJ.put hb
  rw [← hread] at hnext
  exact seq_mem hI (seq_copy (f := fun v _ => v) hI ⟨hnext.disk, hK _ _ _ hKm⟩
    ⟨hnext, hK _ _ _ hKm⟩)

/-! ## Commit -/

/-- Where a run of `commit` can be when the machine stops. -/
def Stage (t : Txn) (m : LogMem) : Prop :=
  InCommit t.mem m ∧ ((t.Before m.disk ∧ ¬ t.Committed m) ∨
    ((t.Between m.disk ∨ t.After m.disk) ∧ t.Committed m))

/-- What `commit` has done when it returns. -/
structure Finished (t : Txn) (m : LogMem) : Prop where
  start : m.start = t.start
  size : m.size = t.size
  lh : m.lh = .empty
  disk : t.After m.disk
  cached : ∀ b, ¬ t.InLog b → m.buf b = t.new b

/-- The memory while `write_log` runs, with the first `k` copies made. -/
structure Copying (t : Txn) (k : Nat) (m : LogMem) : Prop where
  start : m.start = t.start
  size : m.size = t.size
  lh : m.lh = t.lh
  disk : t.Before m.disk
  fresh : ∀ w ∈ m.writes, w.1 ≠ t.start
  cached : ∀ b, ¬ t.InLog b → m.buf b = t.new b
  copies : ∀ i b, i < k → t.lh.block[i]? = some b →
    m.disk (t.start + i + 1) = t.new b.toNat ∧ m.buf (t.start + i + 1) = t.new b.toNat

theorem Copying.stage (h : t.Copying k m) : t.Stage m :=
  ⟨⟨h.start, h.size, Or.inl h.lh⟩, Or.inl ⟨h.disk, fun ⟨_, hw, _⟩ => h.fresh _ hw rfl⟩⟩

theorem copying_zero (t : Txn) : t.Copying 0 t.mem where
  start := rfl
  size := rfl
  lh := rfl
  disk := ⟨t.clean, fun _ _ => rfl⟩
  fresh := by simp [Txn.mem]
  cached := fun _ _ => rfl
  copies := fun _ _ h => absurd h (Nat.not_lt_zero _)

theorem Copying.put (h : t.Copying k m) (hb : t.lh.block[k]? = some b) :
    t.Copying (k + 1) (m.put (t.start + k + 1) (t.new b.toNat)) := by
  have hin := t.copy_inLog hb
  refine ⟨h.start, h.size, h.lh, h.disk.update_inLog hin (by omega) _, ?_, ?_, ?_⟩
  · intro w hw
    rcases List.mem_append.mp hw with hw | hw
    · exact h.fresh w hw
    · rw [List.mem_singleton.mp hw]
      dsimp only
      omega
  · intro c hc
    have hne : c ≠ t.start + k + 1 := by
      rintro rfl
      exact hc hin
    rw [LogMem.put_buf, update_of_ne hne]
    exact h.cached c hc
  · intro i c hi hc
    rw [LogMem.put_disk, LogMem.put_buf]
    by_cases he : i = k
    · subst he
      rw [hb] at hc
      cases hc
      exact ⟨update_self .., update_self ..⟩
    · have hne : t.start + i + 1 ≠ t.start + k + 1 := by omega
      rw [update_of_ne hne, update_of_ne hne]
      exact h.copies i c (by omega) hc

theorem seq_writeLog (t : Txn) :
    (writeLog (π := π)).seq p t.Stage (fun _ m' => t.Copying t.lh.n m') t.mem := by
  refine seq_forTail t.lh (fun _ _ hJ => hJ.stage) (fun _ _ hJ => hJ.lh) (fun i b m hJ hb => ?_)
    t.copying_zero
  have hread : m.buf b.toNat = t.new b.toNat := hJ.cached _ (t.home_not_inLog hb)
  have hnext := hJ.put hb
  rw [← hread, ← hJ.start] at hnext
  exact seq_mem hJ.stage (seq_copy (f := fun _ v => v) hJ.stage hnext.stage hnext)

theorem Copying.installing (h : t.Copying t.lh.n m) :
    t.Installing t.new 0 (m.put t.start (putHead t.lh (m.buf t.start))) := by
  have hne : ∀ i, t.start + i + 1 ≠ t.start := fun i => by omega
  have hlt : ∀ {i b}, t.lh.block[i]? = some b → i < t.lh.n := fun h =>
    (List.getElem?_eq_some_iff.mp h).1
  refine ⟨h.start, h.size, h.lh, ⟨?_, ?_, ?_, ?_⟩, ?_,
    fun i b hi _ => absurd hi (Nat.not_lt_zero _),
    fun b hb _ => update_header_outside _ h.cached b hb⟩
  · rw [LogMem.put_disk, update_self]
    exact headN_putHead ..
  · rw [LogMem.put_disk, update_self]
    exact headBlocks_putHead ..
  · intro i b hb
    rw [LogMem.put_disk, update_of_ne (hne i)]
    exact (h.copies i b (hlt hb) hb).1
  · intro b hb _
    exact update_header_outside _ h.disk.2 b hb
  · intro i b hb
    rw [LogMem.put_buf, update_of_ne (hne i)]
    exact (h.copies i b (hlt hb) hb).2

theorem Committed.put (h : t.Committed m) (b : Nat) (v : Block) : t.Committed (m.put b v) := by
  obtain ⟨w, hw, hn⟩ := h
  exact ⟨w, by simp [hw], hn⟩

theorem Installing.finished (h : t.Installing t.new t.lh.n m) (hv : headN v = 0) :
    t.Finished { m.put t.start v with lh := .empty } := by
  refine ⟨h.start, h.size, rfl, h.after hv, update_header_outside _ fun b hb => ?_⟩
  by_cases hmem : b ∈ t.lh.block.map BitVec.toNat
  · obtain ⟨a, ha, rfl⟩ := List.mem_map.mp hmem
    obtain ⟨i, hi⟩ := List.mem_iff_getElem?.mp ha
    exact (h.homes i a (List.getElem?_eq_some_iff.mp hi).1 hi).2
  · exact h.kept b hb hmem

theorem seq_clear {J : LogMem → Prop} {Q : LogMem → Prop} (hm : t.Installing c t.lh.n m) (h0 : J m)
    (h1 : J { m with lh := .empty }) (h2 : ∀ v, headN v = 0 →
      J { m.put t.start v with lh := .empty })
    (h3 : ∀ v, headN v = 0 → Q { m.put t.start v with lh := .empty }) :
    (setLh (π := π) .empty >>= fun _ => writeHead).seq p J (fun _ => Q) m := by
  have hz : headN (putHead .empty (m.buf t.start)) = 0 := by rw [headN_putHead]; rfl
  have hJ := h2 _ hz
  have hQ := h3 _ hz
  rw [← hm.start] at hJ hQ
  exact seq_step h0 rfl (seq_writeHead h1 hJ hQ)

theorem seq_commit (t : Txn) :
    (commit (π := π)).seq p t.Stage (fun _ => t.Finished) t.mem := by
  have h0 : t.Stage t.mem := t.copying_zero.stage
  refine seq_mem h0 ?_
  by_cases hn : 0 < t.mem.lh.n
  · rw [if_pos hn]
    refine seq_bind (seq_mono (seq_writeLog t) (fun _ h => h) fun _ m hm hC => ?_)
    -- the commit point
    have hinst := hC.installing
    have hcom : t.Committed (m.put t.start (putHead t.lh (m.buf t.start))) := by
      refine ⟨putHead t.lh (m.buf t.start), by simp, ?_⟩
      rw [headN_putHead]
      exact_mod_cast hn
    rw [← hC.start, ← hC.lh] at hinst hcom
    refine seq_bind (seq_writeHead hm ⟨hm.1.put _ _, Or.inr ⟨Or.inl hinst.disk, hcom⟩⟩ ?_)
    -- from here on the committed write stays in the trace
    refine seq_bind (seq_mono (seq_installTrans (K := fun m => InCommit t.mem m ∧ t.Committed m)
      (fun _ b v h => ⟨h.1.put b v, h.2.put b v⟩) hinst ⟨hm.1.put _ _, hcom⟩)
      (fun _ h => ⟨h.2.1, Or.inr ⟨Or.inl h.1, h.2.2⟩⟩) ?_)
    rintro - m1 ⟨hB, hF, hc⟩ ⟨hI, -⟩
    have hF' : InCommit t.mem { m1 with lh := .empty } := ⟨hF.start, hF.size, Or.inr rfl⟩
    refine seq_clear hI ⟨hF, Or.inr ⟨Or.inl hB, hc⟩⟩ ⟨hF', Or.inr ⟨Or.inl hB, hc⟩⟩
      (fun v hv => ⟨hF'.put _ v, Or.inr ⟨Or.inr (hI.after hv), hc.put _ v⟩⟩)
      (fun v hv => hI.finished hv)
  · rw [if_neg hn]
    have hlh : t.lh = .empty := LogHeader.eq_empty (Nat.eq_zero_of_not_pos hn)
    exact ⟨h0, rfl, rfl, hlh, ⟨t.clean, fun b _ => by simp [Txn.mem, post, hlh]⟩, fun _ _ => rfl⟩

/-! ## Recovery -/

/-- The memory of a kernel that boots from the disk `d`: the cache is empty, so `bread`
reads the disk, and `log` has been set up from the superblock. -/
def boot (t : Txn) (d : Nat → Block) : LogMem := ⟨t.start, t.size, .empty, d, d, []⟩

theorem seq_recover_clean (hd : headN (d t.start) = 0) (hf : ∀ b, ¬ t.InLog b → d b = f b) :
    (recoverFromLog (π := π)).seq p
      (fun m => headN (m.disk t.start) = 0 ∧ ∀ b, ¬ t.InLog b → m.disk b = f b)
      (fun _ _ => True) (t.boot d) := by
  have hI : headN ((t.boot d).disk t.start) = 0 ∧ ∀ b, ¬ t.InLog b → (t.boot d).disk b = f b :=
    ⟨hd, hf⟩
  have hn : (headN ((t.boot d).buf (t.boot d).start)).toNat = LogHeader.empty.n := by
    rw [show (t.boot d).buf (t.boot d).start = d t.start from rfl, hd]
    rfl
  refine seq_bind (seq_readHead .empty hn rfl hI hI (seq_bind ?_))
  have hloop : (installTrans (π := π)).seq p
      (fun m => headN (m.disk t.start) = 0 ∧ ∀ b, ¬ t.InLog b → m.disk b = f b)
      (fun _ m => m = t.boot d) (t.boot d) := by
    refine seq_forTail .empty (J := fun _ m => m = t.boot d) ?_ ?_ ?_ rfl
    · rintro _ _ rfl
      exact hI
    · rintro _ _ rfl
      rfl
    · rintro i b _ rfl hb
      simp at hb
  refine seq_mono hloop (fun _ h => h) ?_
  rintro - _ - rfl
  have hz : headN (putHead .empty (d t.start)) = 0 := by rw [headN_putHead]; rfl
  refine seq_step hI rfl (seq_writeHead hI ⟨?_, update_header_outside _ hf⟩ trivial)
  change headN (update d t.start (putHead .empty (d t.start)) t.start) = 0
  rw [update_self, hz]

theorem seq_recover_between (hd : t.Between d) :
    (recoverFromLog (π := π)).seq p (fun m => t.Between m.disk ∨ t.After m.disk)
      (fun _ m' => t.After m'.disk) (t.boot d) := by
  have hI : t.Between (t.boot d).disk ∨ t.After (t.boot d).disk := Or.inl hd
  have hn : (headN ((t.boot d).buf (t.boot d).start)).toNat = t.lh.n := by
    rw [show (t.boot d).buf (t.boot d).start = d t.start from rfl, hd.head]
    rfl
  refine seq_bind (seq_readHead t.lh hn hd.blocks hI hI (seq_bind ?_))
  have hinst : t.Installing d 0 { t.boot d with lh := t.lh } :=
    ⟨rfl, rfl, rfl, hd, hd.copies, fun _ _ h => absurd h (Nat.not_lt_zero _), fun _ _ _ => rfl⟩
  refine seq_mono (seq_installTrans (K := fun _ => True) (fun _ _ _ h => h) hinst trivial)
    (fun _ h => Or.inl h.1) ?_
  rintro - m - ⟨hm, -⟩
  exact seq_clear hm (Or.inl hm.disk) (Or.inl hm.disk) (fun v hv => Or.inr (hm.after hv))
    (fun v hv => hm.after hv)

/-- The disk after a run of `recover_from_log` that crashes after `k` actions. -/
def crashedRecovery (t : Txn) (p : π) (d : Nat → Block) (k : Nat) : Nat → Block :=
  ((recoverFromLog (π := π)).runFor p k (t.boot d)).disk

def recovered (t : Txn) (p : π) (d : Nat → Block) (ks : List Nat) : Nat → Block :=
  ks.foldl (t.crashedRecovery p) d

theorem before_crashedRecovery (h : t.Before d) (k : Nat) : t.Before (t.crashedRecovery p d k) :=
  seq_runFor (seq_recover_clean h.1 h.2) k

theorem after_crashedRecovery (h : t.After d) (k : Nat) : t.After (t.crashedRecovery p d k) :=
  seq_runFor (seq_recover_clean h.1 h.2) k

theorem committed_crashedRecovery (h : t.Between d ∨ t.After d) (k : Nat) :
    t.Between (t.crashedRecovery p d k) ∨ t.After (t.crashedRecovery p d k) := by
  rcases h with h | h
  · exact seq_runFor (seq_recover_between h) k
  · exact Or.inr (after_crashedRecovery h k)

theorem before_recovered (h : t.Before d) (ks : List Nat) : t.Before (t.recovered p d ks) := by
  induction ks generalizing d with
  | nil => exact h
  | cons k ks ih => exact ih (before_crashedRecovery h k)

theorem committed_recovered (h : t.Between d ∨ t.After d) (ks : List Nat) :
    t.Between (t.recovered p d ks) ∨ t.After (t.recovered p d ks) := by
  induction ks generalizing d with
  | nil => exact h
  | cons k ks ih => exact ih (committed_crashedRecovery h k)

/-- **Crash atomicity.** Stop `commit` after any number of actions, crash any number of
recoveries anywhere, and let one recovery finish. It does finish, the header on disk is
empty, and the blocks outside the log are those of the whole transaction if the header with
`n > 0` had been written, and those of the old disk if it had not. -/
theorem crash_atomic (t : Txn) (p : π) (k : Nat) (ks : List Nat) :
    ∃ m, (recoverFromLog (π := π)).run p
        (t.boot (t.recovered p ((commit (π := π)).runFor p k t.mem).disk ks)) = some ((), m) ∧
      headN (m.disk t.start) = 0 ∧
      (t.Committed ((commit (π := π)).runFor p k t.mem) →
        ∀ b, ¬ t.InLog b → m.disk b = t.post b) ∧
      (¬ t.Committed ((commit (π := π)).runFor p k t.mem) →
        ∀ b, ¬ t.InLog b → m.disk b = t.old b) := by
  rcases (seq_runFor (seq_commit (p := p) t) k).2 with ⟨hB, hnc⟩ | ⟨hC, hc⟩
  · have hB' := before_recovered (p := p) hB ks
    obtain ⟨⟨⟩, m, hrun, hm, -⟩ := seq_run (seq_recover_clean (p := p) hB'.1 hB'.2)
    exact ⟨m, hrun, hm.1, fun h => absurd h hnc, fun _ => hm.2⟩
  · rcases committed_recovered (p := p) hC ks with hM | hA
    · obtain ⟨⟨⟩, m, hrun, -, hm⟩ := seq_run (seq_recover_between (p := p) hM)
      exact ⟨m, hrun, hm.1, fun _ => hm.2, fun h => absurd hc h⟩
    · obtain ⟨⟨⟩, m, hrun, hm, -⟩ := seq_run (seq_recover_clean (p := p) hA.1 hA.2)
      exact ⟨m, hrun, hm.1, fun _ => hm.2, fun h => absurd hc h⟩

end Txn

end Xv6.Log
