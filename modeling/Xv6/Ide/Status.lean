import Xv6.Ide.Model

/-!
# What the device reports

The requests of `iderw` and the interrupts that serve them, at the granularity of `idelock`, with a
device that may report a drive fault or an error. `ideintr` does not read the data of a request that
has failed, but sets `B_VALID` as for the others, so that `iderw` returns as if the block had been
read. If the device reports neither, the buffer holds the block.
-/

namespace Xv6.Ide.Status

open Function (update update_of_ne update_self)

variable {β δ : Type} [DecidableEq β]

def IDE_BSY : BitVec 8 := 0x80

def IDE_DRDY : BitVec 8 := 0x40

def IDE_DF : BitVec 8 := 0x20

def IDE_ERR : BitVec 8 := 0x01

/-- `(r & (IDE_BSY|IDE_DRDY)) == IDE_DRDY`. -/
def ready (r : BitVec 8) : Bool := r &&& (IDE_BSY ||| IDE_DRDY) = IDE_DRDY

/-- `(r & (IDE_DF|IDE_ERR)) != 0`. -/
def failed (r : BitVec 8) : Bool := r &&& (IDE_DF ||| IDE_ERR) ≠ 0

/-- `idewait`, for the statuses that it reads one after the other; it does not return before one of
them is ready. -/
def idewait (checkerr : Bool) : List (BitVec 8) → Option Int
  | [] => none
  | r :: rs =>
    if ready r then some (if checkerr ∧ failed r then -1 else 0) else idewait checkerr rs

/-- A command that the device has got, with the data if it is a write. -/
structure Cmd (δ : Type) where
  drive : Nat
  blockno : Nat
  out : Option δ

/-- `idestart`. A block is one sector. -/
def idestart (x : Buf δ) : Except String (Cmd δ) :=
  if FSSIZE ≤ x.blockno then .error "incorrect blockno"
  else .ok ⟨x.dev % 2, x.blockno, if x.dirty then some x.data else none⟩

/-- How a request was served: whether it was a read, whether `idewait` failed, and what its block
held on the disk then. -/
structure Service (δ : Type) where
  read : Bool
  error : Bool
  block : δ

/-- A return of `iderw`: the buffer as the caller finds it. -/
structure Return (β δ : Type) where
  b : β
  buf : Buf δ
  service : Service δ

/-- The disks, the buffers and `idequeue`; the command in the device; the buffers for which `iderw`
has not returned, how those among them that have left the queue were served, and all returns. -/
structure St (β δ : Type) where
  disk : Nat → Nat → δ
  buf : β → Buf δ
  idequeue : List β
  cmd : Option (Cmd δ)
  pending : List β
  service : β → Option (Service δ)
  returns : List (Return β δ)

namespace St

variable (s : St β δ)

/-- `iderw`, up to the loop that waits; the caller holds the lock of the buffer. -/
def iderw (havedisk1 : Bool) (b : β) : Except String (St β δ) :=
  match check havedisk1 true (s.buf b) with
  | some e => .error e
  | none =>
    let s' := { s with idequeue := s.idequeue ++ [b], pending := b :: s.pending }
    if s.idequeue = [] then (idestart (s.buf b)).map fun c => { s' with cmd := some c } else .ok s'

/-- What the device has done with a command when it raises its interrupt; a write may have
failed. -/
def complete (c : Cmd δ) (wrote : Bool) : Nat → Nat → δ :=
  match c.out with
  | some v => if wrote then fun d => if d = c.drive then update (s.disk d) c.blockno v
      else s.disk d else s.disk
  | none => s.disk

/-- The data that `insl` gets: the block of the command that the device has read. -/
def insl (c : Cmd δ) : δ := s.disk c.drive c.blockno

/-- `ideintr` up to the start of the next command, for the first request of the queue and the
statuses that `idewait` reads. -/
def serve (c : Cmd δ) (b : β) (rest : List β) (rs : List (BitVec 8)) (wrote : Bool) :
    Option (St β δ) :=
  let x := s.buf b
  let disk := s.complete c wrote
  let done (data : δ) (error : Bool) : St β δ := { s with
    disk := disk
    buf := update s.buf b { x with data := data, valid := true, dirty := false }
    idequeue := rest
    cmd := none
    service := update s.service b
      (some ⟨!x.dirty, error, disk (x.dev % 2) x.blockno⟩) }
  if x.dirty then some (done x.data false)
  else (idewait true rs).map fun r => if 0 ≤ r then done (s.insl c) false else done x.data true

/-- `if(idequeue != 0) idestart(idequeue)`. -/
def next : Except String (St β δ) :=
  match s.idequeue with
  | [] => .ok s
  | b :: _ => (idestart (s.buf b)).map fun c => { s with cmd := some c }

end St

/-- The steps: the owner of a buffer sets it as it likes, but not during a request for it; requests;
interrupts; and returns, when the loop of `iderw` finds the buffer valid and not dirty. -/
inductive Step (havedisk1 : Bool) (s : St β δ) : St β δ → Prop
  | set (b : β) (x : Buf δ) (hb : b ∉ s.pending) :
    Step havedisk1 s { s with buf := update s.buf b x }
  | iderw (b : β) (s' : St β δ) (hb : b ∉ s.pending) (h : s.iderw havedisk1 b = .ok s') :
    Step havedisk1 s s'
  | ideintr (b : β) (rest : List β) (c : Cmd δ) (rs : List (BitVec 8)) (wrote : Bool)
    (s' s'' : St β δ) (hq : s.idequeue = b :: rest) (hc : s.cmd = some c)
    (h : s.serve c b rest rs wrote = some s') (h' : s'.next = .ok s'') : Step havedisk1 s s''
  | ret (b : β) (x : Service δ) (hb : b ∈ s.pending) (hd : (s.buf b).done = true)
    (hx : s.service b = some x) :
    Step havedisk1 s { s with
      pending := s.pending.filter (· ≠ b)
      returns := ⟨b, s.buf b, x⟩ :: s.returns }

def start (disk : Nat → Nat → δ) (buf : β → Buf δ) : St β δ :=
  ⟨disk, buf, [], none, [], fun _ => none, []⟩

inductive Reach (havedisk1 : Bool) (disk : Nat → Nat → δ) (buf : β → Buf δ) : St β δ → Prop
  | start : Reach havedisk1 disk buf (start disk buf)
  | step {s s' : St β δ} (h : Reach havedisk1 disk buf s) (hs : Step havedisk1 s s') :
    Reach havedisk1 disk buf s'

/-! ## The invariant -/

def Fetched (x : Buf δ) (r : Service δ) : Prop :=
  x.done = true ∧ (r.read = true → r.error = false → x.data = r.block)

/-- The device works on the first request of the queue, the requests in it are still to be served,
and the others that `iderw` waits for have been. -/
structure Inv (s : St β δ) : Prop where
  cmd : ∀ b rest, s.idequeue = b :: rest → ∃ c, s.cmd = some c ∧ idestart (s.buf b) = .ok c
  nodup : s.idequeue.Nodup
  queued : ∀ b ∈ s.idequeue, b ∈ s.pending ∧ (s.buf b).done = false
  served : ∀ b ∈ s.pending, b ∉ s.idequeue → ∃ r, s.service b = some r ∧ Fetched (s.buf b) r
  returns : ∀ r ∈ s.returns, Fetched r.buf r.service

theorem idestart_eq {x : Buf δ} {c : Cmd δ} (h : idestart x = .ok c) :
    c = ⟨x.dev % 2, x.blockno, if x.dirty then some x.data else none⟩ := by
  unfold idestart at h
  split at h
  · cases h
  · exact (Except.ok.inj h).symm

theorem check_done {havedisk1 : Bool} {x : Buf δ} (h : check havedisk1 true x = none) :
    x.done = false := by
  unfold check at h
  by_contra hd
  rw [Bool.not_eq_false] at hd
  simp [hd] at h

section Steps

variable {s s' : St β δ} {b : β} {rest : List β} {havedisk1 : Bool}

theorem serve_spec {c : Cmd δ} {rs : List (BitVec 8)} {wrote : Bool}
    (hc : idestart (s.buf b) = .ok c) (h : s.serve c b rest rs wrote = some s') :
    s'.idequeue = rest ∧ s'.pending = s.pending ∧ s'.returns = s.returns ∧
    (∀ b', b' ≠ b → s'.buf b' = s.buf b' ∧ s'.service b' = s.service b') ∧
    ∃ r, s'.service b = some r ∧ Fetched (s'.buf b) r := by
  obtain rfl := idestart_eq hc
  have hother : ∀ {x : Buf δ} {r : Service δ} b', b' ≠ b →
      update s.buf b x b' = s.buf b' ∧
      update s.service b (some r) b' = s.service b' := fun b' hb' =>
    ⟨update_of_ne hb' .., update_of_ne hb' ..⟩
  unfold St.serve at h
  by_cases hd : (s.buf b).dirty = true
  · rw [if_pos hd] at h
    cases h
    refine ⟨rfl, rfl, rfl, hother, _, update_self .., ?_⟩
    dsimp only
    rw [update_self]
    refine ⟨rfl, fun hr => ?_⟩
    rw [hd] at hr
    cases hr
  · rw [if_neg hd] at h
    obtain ⟨r, -, h⟩ := Option.map_eq_some_iff.1 h
    split at h
    · cases h
      refine ⟨rfl, rfl, rfl, hother, _, update_self .., ?_⟩
      dsimp only
      rw [update_self]
      refine ⟨rfl, fun _ _ => ?_⟩
      -- the command is a read, and leaves the disk
      dsimp only [St.complete, St.insl]
    · cases h
      refine ⟨rfl, rfl, rfl, hother, _, update_self .., ?_⟩
      dsimp only
      rw [update_self]
      exact ⟨rfl, fun _ => nofun⟩

omit [DecidableEq β] in
theorem next_spec (h : s.next = .ok s') :
    s'.idequeue = s.idequeue ∧ s'.pending = s.pending ∧ s'.returns = s.returns ∧ s'.buf = s.buf ∧
    s'.service = s.service ∧
    ∀ b rest, s'.idequeue = b :: rest → ∃ c, s'.cmd = some c ∧ idestart (s'.buf b) = .ok c := by
  unfold St.next at h
  cases hq : s.idequeue with
  | nil =>
    rw [hq] at h
    cases h
    refine ⟨hq, rfl, rfl, rfl, rfl, fun b rest hb => ?_⟩
    rw [hq] at hb
    cases hb
  | cons b rest =>
    rw [hq] at h
    cases hc : idestart (s.buf b) with
    | error e =>
      simp only [hc] at h
      cases h
    | ok c =>
      simp only [hc] at h
      cases h
      refine ⟨rfl, rfl, rfl, rfl, rfl, fun b' rest' hb' => ⟨c, rfl, ?_⟩⟩
      cases show b :: rest = b' :: rest' from hb'
      exact hc

namespace Inv

omit [DecidableEq β] in
theorem iderw (h : Inv s) (hb : b ∉ s.pending) (hs : s.iderw havedisk1 b = .ok s') : Inv s' := by
  have hbq : b ∉ s.idequeue := fun hm => hb (h.queued b hm).1
  have hnodup : (s.idequeue ++ [b]).Nodup := by
    rw [List.nodup_append]
    refine ⟨h.nodup, List.nodup_singleton b, fun x hx y hy => ?_⟩
    rw [List.mem_singleton.1 hy]
    rintro rfl
    exact hbq hx
  unfold St.iderw at hs
  cases hc : check havedisk1 true (s.buf b) with
  | some e =>
    rw [hc] at hs
    cases hs
  | none =>
    rw [hc] at hs
    have hdone := check_done hc
    have hqueued : ∀ b' ∈ s.idequeue ++ [b], b' ∈ b :: s.pending ∧ (s.buf b').done = false := by
      intro b' hb'
      rcases List.mem_append.1 hb' with hb' | hb'
      · exact ⟨List.mem_cons_of_mem _ (h.queued b' hb').1, (h.queued b' hb').2⟩
      · rw [List.mem_singleton.1 hb']
        exact ⟨List.mem_cons_self, hdone⟩
    have hserved : ∀ b' ∈ b :: s.pending, b' ∉ s.idequeue ++ [b] →
        ∃ r, s.service b' = some r ∧ Fetched (s.buf b') r := by
      intro b' hb' hn
      rw [List.mem_append, List.mem_singleton, not_or] at hn
      exact h.served b' ((List.mem_cons.1 hb').resolve_left hn.2) hn.1
    dsimp only at hs
    by_cases hq : s.idequeue = []
    · rw [if_pos hq] at hs
      cases hst : idestart (s.buf b) with
      | error e =>
        rw [hst] at hs
        cases hs
      | ok c =>
        rw [hst] at hs
        cases hs
        refine ⟨fun b' rest hb' => ⟨c, rfl, ?_⟩, hnodup, hqueued, hserved, h.returns⟩
        change s.idequeue ++ [b] = b' :: rest at hb'
        rw [hq] at hb'
        cases hb'
        exact hst
    · rw [if_neg hq] at hs
      cases hs
      refine ⟨fun b' rest hb' => ?_, hnodup, hqueued, hserved, h.returns⟩
      obtain ⟨b'', rest', hq'⟩ := List.exists_cons_of_ne_nil hq
      change s.idequeue ++ [b] = b' :: rest at hb'
      rw [hq'] at hb'
      cases hb'
      exact h.cmd _ _ hq'

theorem ideintr (h : Inv s) {c : Cmd δ} {rs : List (BitVec 8)} {wrote : Bool} {s'' : St β δ}
    (hq : s.idequeue = b :: rest) (hc : s.cmd = some c)
    (hs : s.serve c b rest rs wrote = some s') (hn : s'.next = .ok s'') : Inv s'' := by
  obtain ⟨c', hc', hst⟩ := h.cmd b rest hq
  obtain rfl : c = c' := Option.some.inj (hc.symm.trans hc')
  obtain ⟨h1, h2, h3, h4, h5⟩ := serve_spec hst hs
  obtain ⟨g1, g2, g3, g4, g5, g6⟩ := next_spec hn
  have hnd := h.nodup
  rw [hq, List.nodup_cons] at hnd
  have hne : ∀ b' ∈ rest, b' ≠ b := by
    rintro b' hb' rfl
    exact hnd.1 hb'
  refine ⟨g6, ?_, fun b' hb' => ?_, fun b' hb' hnq => ?_, ?_⟩
  · rw [g1, h1]
    exact hnd.2
  · rw [g1, h1] at hb'
    rw [g2, h2, g4, (h4 b' (hne b' hb')).1]
    exact h.queued b' (hq ▸ List.mem_cons_of_mem _ hb')
  · rw [g2, h2] at hb'
    rw [g1, h1] at hnq
    rw [g4, g5]
    by_cases hbb : b' = b
    · rw [hbb]
      exact h5
    · rw [(h4 b' hbb).1, (h4 b' hbb).2]
      refine h.served b' hb' fun hm => ?_
      rw [hq] at hm
      exact hnq ((List.mem_cons.1 hm).resolve_left hbb)
  · rw [g3, h3]
    exact h.returns

theorem step (h : Inv s) (hs : Step havedisk1 s s') : Inv s' := by
  cases hs with
  | set b x hb =>
    have hne : ∀ b' ∈ s.pending, update s.buf b x b' = s.buf b' := by
      intro b' hb'
      refine update_of_ne ?_ ..
      rintro rfl
      exact hb hb'
    refine ⟨fun b' rest hq => ?_, h.nodup, fun b' hb' => ?_, fun b' hb' hnq => ?_, h.returns⟩
    · have hm : b' ∈ s.idequeue := by
        rw [show s.idequeue = b' :: rest from hq]
        exact List.mem_cons_self
      dsimp only
      rw [hne b' (h.queued b' hm).1]
      exact h.cmd b' rest hq
    · have hm := h.queued b' hb'
      dsimp only
      rw [hne b' hm.1]
      exact hm
    · dsimp only
      rw [hne b' hb']
      exact h.served b' hb' hnq
  | iderw b s' hb hs => exact h.iderw hb hs
  | ideintr b rest c rs wrote s' s'' hq hc hs hn => exact h.ideintr hq hc hs hn
  | ret b x hb hd hx =>
    have hbq : b ∉ s.idequeue := fun hm => by
      rw [(h.queued b hm).2] at hd
      cases hd
    refine ⟨h.cmd, h.nodup, fun b' hb' => ⟨?_, (h.queued b' hb').2⟩, fun b' hb' => ?_,
      fun r hr => ?_⟩
    · refine List.mem_filter.2 ⟨(h.queued b' hb').1, ?_⟩
      simp only [decide_eq_true_eq]
      rintro rfl
      exact hbq hb'
    · exact h.served b' (List.mem_filter.1 hb').1
    · rcases List.mem_cons.1 hr with rfl | hr
      · obtain ⟨r, hr, hf⟩ := h.served b hb hbq
        obtain rfl : r = x := Option.some.inj (hr.symm.trans hx)
        exact hf
      · exact h.returns r hr

end Inv

theorem Reach.inv {disk : Nat → Nat → δ} {buf : β → Buf δ} (h : Reach havedisk1 disk buf s) :
    Inv s := by
  induction h with
  | start => exact ⟨nofun, List.nodup_nil, nofun, nofun, nofun⟩
  | step _ hs ih => exact ih.step hs

/-- Whatever the requests are, and whatever the device reports: a buffer with which `iderw` returns
is valid and not dirty; and if the request was a read and the status for it showed neither a drive
fault nor an error, then the buffer holds what its block held on the disk. -/
theorem read_returns_block {disk : Nat → Nat → δ} {buf : β → Buf δ} (h : Reach havedisk1 disk buf s)
    (r : Return β δ) (hr : r ∈ s.returns) (hread : r.service.read = true)
    (hok : r.service.error = false) :
    r.buf.valid = true ∧ r.buf.dirty = false ∧ r.buf.data = r.service.block := by
  obtain ⟨h1, h2⟩ := h.inv.returns r hr
  unfold Buf.done at h1
  simp only [Bool.and_eq_true, Bool.not_eq_true'] at h1
  exact ⟨h1.1, h1.2, h2 hread hok⟩

end Steps

def blank : Buf Bool := ⟨false, false, 1, 7, false⟩

theorem reach_read (r : BitVec 8) (hr : ready r = true) :
    ∃ s : St Unit Bool, Reach true (fun _ _ => true) (fun _ => blank) s ∧ s.disk 1 7 = true ∧
      ⟨(), ⟨true, false, 1, 7, !failed r⟩, ⟨true, failed r, true⟩⟩ ∈ s.returns := by
  have hwait : idewait true [r] = some (if failed r then -1 else 0) := by
    unfold idewait
    rw [if_pos hr]
    simp
  let s1 : St Unit Bool :=
    ⟨fun _ _ => true, fun _ => blank, [()], some ⟨1, 7, none⟩, [()], fun _ => none, []⟩
  let s2 : St Unit Bool :=
    ⟨fun _ _ => true, update s1.buf () ⟨true, false, 1, 7, !failed r⟩, [], none, [()],
      update s1.service () (some ⟨true, failed r, true⟩), []⟩
  have hserve : s1.serve ⟨1, 7, none⟩ () [] [r] false = some s2 := by
    unfold St.serve
    rw [hwait]
    dsimp only [s2]
    cases failed r <;> rfl
  have h1 : Reach true (fun _ _ => true) (fun _ => blank) s1 :=
    Reach.start.step (.iderw () _ nofun rfl)
  have h2 := h1.step (.ideintr () [] _ [r] false s2 s2 rfl rfl hserve rfl)
  exact ⟨_, h2.step (.ret () _ List.mem_cons_self rfl rfl), rfl, List.mem_cons_self⟩

/-- A read without an error. -/
theorem read_returns_block_ok : ∃ s : St Unit Bool,
    Reach true (fun _ _ => true) (fun _ => blank) s ∧ ∃ r ∈ s.returns, r.service.read = true ∧
      r.service.error = false ∧ r.buf.data = r.service.block := by
  obtain ⟨s, h, -, hm⟩ := reach_read IDE_DRDY (by decide)
  exact ⟨s, h, _, hm, rfl, rfl, (read_returns_block h _ hm rfl rfl).2.2⟩

/-- The device reports an error: `iderw` returns with a valid buffer that holds what it held before,
and not the block. -/
theorem failed_read_valid : ∃ s : St Unit Bool,
    Reach true (fun _ _ => true) (fun _ => blank) s ∧ ∃ r ∈ s.returns, r.service.read = true ∧
      r.buf.valid = true ∧ r.buf.dirty = false ∧ r.buf.data ≠ r.service.block ∧
      r.buf.data ≠ s.disk (r.buf.dev % 2) r.buf.blockno := by
  obtain ⟨s, h, hd, hm⟩ := reach_read (IDE_DRDY ||| IDE_ERR) (by decide)
  refine ⟨s, h, _, hm, rfl, rfl, rfl, by decide, ?_⟩
  change _ ≠ s.disk 1 7
  rw [hd]
  decide

end Xv6.Ide.Status
