import Xv6.Vm.Stack

/-!
# Page ownership over whole runs

The calls that move pages, by any processes and in any order, from the state after boot. Every page
is free or in one use, and no page directory gives the user an entry of the kernel's part, in every
state that is reached.
-/

namespace Xv6.Vm

open Ptable (State)

variable {N : Nat} {s s' : Sys N} {p : Fin N} {pool : List Nat} {ly : Layout}
  {initproc : Fin N}

/-! ## Calls -/

/-- `sys_sbrk` of process `p`. A process without a directory does not run. -/
def sbrk (n : Int) (p : Fin N) (s : Sys N) : Except Panic (Int × Sys N) :=
  match (s.proc p).pgdir with
  | none => .error .wild
  | some t => do
    let (r, t, sz, k) ← sysSbrk n t (s.proc p).sz s.kmem
    return (r, { s with kmem := k }.setProc p { s.proc p with pgdir := some t, sz := sz })

/-- What `wait` does for a zombie. The slot keeps its pointer to the directory that is freed; it is
not used before `fork` replaces it. -/
def reap (q : Fin N) (s : Sys N) : Sys N :=
  let k := (s.proc q).kstack.elim s.kmem fun v => kfree v s.kmem
  let k := (s.proc q).pgdir.elim k fun t => freevm t k
  { s with kmem := k }.setProc q
    { s.proc q with kstack := none, pgdir := none, pid := 0, parent := none, state := .UNUSED }

def pipealloc (s : Sys N) : Sys N :=
  match kalloc s.kmem with
  | none => s
  | some (v, k) => { s with kmem := k, pipes := v :: s.pipes }

def pipefree (v : Nat) (s : Sys N) : Sys N :=
  { s with kmem := kfree v s.kmem, pipes := s.pipes.erase v }

/-- What the calls of process `p` and its code do to the pages. -/
inductive Call (ly : Layout) (p : Fin N) (s : Sys N) : Except Panic (Sys N) → Prop where
  | sbrk (n : Int) : Call ly p s (Prod.snd <$> sbrk n p s)
  | fork : Call ly p s (Prod.snd <$> fork ly p s)
  | exec (img : Image) (args : List (List Byte)) (hargs : ∀ a ∈ args, a.length < (s.proc p).sz) :
      Call ly p s (Prod.snd <$> exec ly p img args s)
  | exit : Call ly p s (.ok (s.setProc p { s.proc p with state := .ZOMBIE }))
  | wait (q : Fin N) (hq : (s.proc q).state = .ZOMBIE) : Call ly p s (.ok (reap q s))
  | pipe : Call ly p s (.ok (pipealloc s))
  | close (v : Nat) (hv : v ∈ s.pipes) : Call ly p s (.ok (pipefree v s))
  | store {t : Pgdir} {v : Nat} {e : Pte} (ht : (s.proc p).pgdir = some t)
      (he : t.pte v = some e) (hu : e.u = true) (hw : e.w = true) (c : Page) :
      Call ly p s (.ok { s with kmem := s.kmem.fill e.pa c })

def Sys.alive (s : Sys N) (p : Fin N) : Prop :=
  (s.proc p).state ≠ .UNUSED ∧ (s.proc p).state ≠ .ZOMBIE

def noProc : Proc N := ⟨.UNUSED, 0, 0, none, none, 0, none, 0, 0, fun _ => none, none⟩

def firstProc (kstack : Nat) (d : Pgdir) : Proc N :=
  { noProc with
    state := .RUNNABLE, pid := 1, priority := 10, kstack := some kstack, pgdir := some d
    sz := PGSIZE }

def booted (initproc : Fin N) (kstack : Nat) (d kpgdir : Pgdir) (k : Kmem) : Sys N :=
  ⟨Function.update (fun _ => noProc) initproc (firstProc kstack d), 2, k, kpgdir, [], fun _ => 0,
    fun _ => 0⟩

/-- `kvmalloc` and `userinit`; `init` is the page of `initcode`. None when memory is too small. -/
def boot (ly : Layout) (initproc : Fin N) (pool : List Nat) (init : Page) :
    Except Panic (Option (Sys N)) := do
  let (kp, k) ← setupkvm ly ⟨pool, fun _ _ => 1⟩
  match kp, kalloc k with
  | some kp, some (kstack, k) =>
    let (d, k) ← setupkvm ly k
    match d, kalloc k with
    | some d, some (mem, k) =>
      let (r, d, k) ← mappages true true 0 1 d 0 mem (k.fill mem init)
      if r then return some (booted initproc kstack d kp k) else return none
    | _, _ => return none
  | _, _ => return none

inductive Reachable (ly : Layout) (initproc : Fin N) (pool : List Nat) : Sys N → Prop where
  | boot {init : Page} {s : Sys N} (h : boot ly initproc pool init = .ok (some s)) :
      Reachable ly initproc pool s
  | step {s s' : Sys N} {p : Fin N} (h : Reachable ly initproc pool s) (hp : s.alive p)
      (hc : Call ly p s (.ok s')) : Reachable ly initproc pool s'

/-! ## The invariant -/

def Proc.pages (v : Proc N) : Multiset Nat := Lib.unit v.kstack + v.pgdir.elim 0 Pgdir.pages

def Sys.inUse (s : Sys N) : Multiset Nat :=
  s.kpgdir.pages + ∑ p, (s.proc p).pages + (s.pipes : Multiset Nat)

structure ProcOk (v : Proc N) : Prop where
  dir : ∀ t, v.pgdir = some t → t.Ok ∧ v.sz < KERNBASE ∧ Above t v.sz
  unused : v.state = .UNUSED → v.kstack = none ∧ v.pgdir = none
  used : v.state ≠ .UNUSED → v.pgdir ≠ none

structure Sound (pool : List Nat) (s : Sys N) : Prop where
  pages : s.kmem.free + s.inUse ≤ pool
  kpgdir : s.kpgdir.Ok
  procs : ∀ p, ProcOk (s.proc p)

theorem Sound.nodup (h : Sound pool s) (hpool : pool.Nodup) : (s.kmem.free + s.inUse).Nodup :=
  Multiset.nodup_of_le h.pages (Multiset.coe_nodup.2 hpool)

theorem Sound.free_nodup (h : Sound pool s) (hpool : pool.Nodup) : s.kmem.free.Nodup :=
  (Multiset.nodup_add.1 (h.nodup hpool)).1

theorem Sound.kmem (h : Sound pool s) {k : Kmem} (hk : k.free ≤ s.kmem.free) :
    Sound pool { s with kmem := k } :=
  ⟨(add_le_add_left hk _).trans h.pages, h.kpgdir, h.procs⟩

theorem Sound.update {v : Proc N} {q : Fin N} (h : Sound pool s) (hv : ProcOk v)
    (hproc : s'.proc = Function.update s.proc q v) (hk : s'.kpgdir = s.kpgdir)
    (hp : s'.pipes = s.pipes)
    (hpages : s'.kmem.free + v.pages ≤ s.kmem.free + (s.proc q).pages) : Sound pool s' := by
  refine ⟨?_, hk ▸ h.kpgdir, fun r => ?_⟩
  · have hsum : ∑ r, (s'.proc r).pages + (s.proc q).pages = ∑ r, (s.proc r).pages + v.pages := by
      have h1 := Finset.add_sum_erase Finset.univ (fun r => (s'.proc r).pages) (Finset.mem_univ q)
      have h2 := Finset.add_sum_erase Finset.univ (fun r => (s.proc r).pages) (Finset.mem_univ q)
      have h3 : ∑ r ∈ Finset.univ.erase q, (s'.proc r).pages
          = ∑ r ∈ Finset.univ.erase q, (s.proc r).pages :=
        Finset.sum_congr rfl fun r hr => by
          rw [hproc, Function.update_of_ne (Finset.ne_of_mem_erase hr)]
      have hq : s'.proc q = v := by rw [hproc, Function.update_self]
      rw [← h1, ← h2, h3, hq]
      abel
    have huse : s'.inUse + (s.proc q).pages = s.inUse + v.pages := by
      rw [Sys.inUse, Sys.inUse, hk, hp]
      calc s.kpgdir.pages + ∑ r, (s'.proc r).pages + (s.pipes : Multiset Nat) + (s.proc q).pages
          = s.kpgdir.pages + (∑ r, (s'.proc r).pages + (s.proc q).pages)
              + (s.pipes : Multiset Nat) := by abel
        _ = s.kpgdir.pages + ∑ r, (s.proc r).pages + (s.pipes : Multiset Nat) + v.pages := by
          rw [hsum]
          abel
    refine le_trans ?_ h.pages
    rw [← add_le_add_iff_right (s.proc q).pages]
    calc s'.kmem.free + s'.inUse + (s.proc q).pages
        = s'.kmem.free + v.pages + s.inUse := by rw [add_assoc, huse]; abel
      _ ≤ s.kmem.free + (s.proc q).pages + s.inUse := add_le_add_left hpages _
      _ = s.kmem.free + s.inUse + (s.proc q).pages := by abel
  · rw [hproc]
    by_cases hr : r = q
    · rw [hr, Function.update_self]
      exact hv
    · rw [Function.update_of_ne hr]
      exact h.procs r

/-! ## Calls keep it -/

theorem sbrk_sound (n : Int) (h : Sound pool s) (hpool : pool.Nodup) (hp : s.alive p) :
    ∃ r s', sbrk n p s = .ok (r, s') ∧ Sound pool s' := by
  obtain ⟨t, ht⟩ := Option.ne_none_iff_exists'.1 ((h.procs p).used hp.1)
  obtain ⟨hok, hsz, hab⟩ := (h.procs p).dir t ht
  obtain ⟨r1, t1, sz1, k1, hg, hok1, hsz1, hab1, hc⟩ :=
    growproc_spec (n := n) hok hsz hab (h.free_nodup hpool)
  have hres : ∃ r2, sysSbrk n t (s.proc p).sz s.kmem = .ok (r2, t1, sz1, k1) := by
    simp only [sysSbrk, hg, bind, Except.bind, pure, Except.pure]
    split
    · exact ⟨_, rfl⟩
    · exact ⟨_, rfl⟩
  obtain ⟨r2, hres⟩ := hres
  refine ⟨r2, { s with kmem := k1 }.setProc p { s.proc p with pgdir := some t1, sz := sz1 }, ?_, ?_⟩
  · simp only [sbrk, ht, hres, bind, Except.bind, pure, Except.pure]
  refine h.update (v := { s.proc p with pgdir := some t1, sz := sz1 })
    ⟨?_, fun hst => absurd hst hp.1, fun _ => Option.some_ne_none _⟩ rfl rfl rfl ?_
  · rintro _ ⟨⟩
    exact ⟨hok1, hsz1, hab1⟩
  · change k1.free + (Lib.unit (s.proc p).kstack + t1.pages) ≤ _
    rw [Proc.pages, ht]
    change _ ≤ s.kmem.free + (Lib.unit (s.proc p).kstack + t.pages)
    refine le_of_eq ?_
    calc k1.free + (Lib.unit (s.proc p).kstack + t1.pages)
        = Lib.unit (s.proc p).kstack + (k1.free + t1.pages) := by abel
      _ = s.kmem.free + (Lib.unit (s.proc p).kstack + t.pages) := by rw [hc]; abel

theorem fork_sound (ly : Layout) (h : Sound pool s) (hp : s.alive p) :
    fork ly p s = .error .copyuvm ∨ ∃ r s', fork ly p s = .ok (r, s') ∧ Sound pool s' := by
  obtain ⟨t, ht⟩ := Option.ne_none_iff_exists'.1 ((h.procs p).used hp.1)
  obtain ⟨hok, hsz, -⟩ := (h.procs p).dir t ht
  rcases fork_spec ly hp.1 ht hok hsz with ⟨herr, -⟩ | ⟨-, heq⟩ |
      ⟨np, r', s1, v, hf, heq, hrest, -, hres⟩
  · exact .inl herr
  · exact .inr ⟨_, _, heq, h⟩
  · refine .inr ⟨_, _, heq, ?_⟩
    obtain ⟨hk0, hp0⟩ := (h.procs np).unused (findUnused_state hf)
    have hold : (s.proc np).pages = 0 := by
      rw [Proc.pages, hk0, hp0]
      rfl
    rcases hres with ⟨-, -, -, hst, hks, hpg, -, lost, hfree, -⟩ |
        ⟨-, -, q, d, hst, hks, hpg, hd, hvs, hmap, hfree⟩
    · have hpg' : v.pgdir = none := hpg.elim id fun h => h.trans hp0
      refine h.update ⟨fun t ht' => ?_, fun _ => ⟨hks, hpg'⟩, fun hne => absurd hst hne⟩
        hrest.proc hrest.kpgdir hrest.pipes ?_
      · rw [hpg'] at ht'
        cases ht'
      · rw [hold, Proc.pages, hks, hpg', ← hfree]
        change s1.kmem.free + (0 + 0) ≤ _
        rw [add_zero, add_zero, add_zero]
        exact Multiset.le_add_right ..
    · refine h.update ⟨fun t' ht' => ?_, fun hun => ?_, fun _ => ?_⟩ hrest.proc hrest.kpgdir
        hrest.pipes (le_of_eq ?_)
      · rw [hpg] at ht'
        cases ht'
        refine ⟨hd, by omega, fun x h1 h2 => ?_⟩
        by_contra hne
        have := (hmap x h2).1 hne
        rw [hvs] at h1
        omega
      · rw [hst] at hun
        cases hun
      · rw [hpg]
        exact Option.some_ne_none d
      · rw [hold, Proc.pages, hks, hpg, ← hfree]
        change s1.kmem.free + ({q} + d.pages) = _
        abel

theorem commit_sound {t : Pgdir} {sz : Nat} {k : Kmem} (h : Sound pool s) (hp : s.alive p)
    (ht : t.Ok) (hsz : sz < KERNBASE) (hab : Above t sz)
    (hk : k.free + t.pages = s.kmem.free) :
    Sound pool (commit p sz t { s with kmem := k }) := by
  refine h.update (v := { s.proc p with pgdir := some t, sz := sz, priority := 2 })
    ⟨?_, fun hun => absurd hun hp.1, fun _ => Option.some_ne_none t⟩ rfl rfl rfl (le_of_eq ?_)
  · rintro _ ⟨⟩
    exact ⟨ht, hsz, hab⟩
  · change ((s.proc p).pgdir.elim k fun old => freevm old k).free
      + (Lib.unit (s.proc p).kstack + t.pages) = _
    rw [Proc.pages, ← hk]
    cases hold : (s.proc p).pgdir with
    | none =>
      simp only [Option.elim_none]
      abel
    | some old =>
      simp only [Option.elim_some]
      rw [(freevm_spec ((h.procs p).dir old hold).1 k).1]
      abel

theorem exec_sound {img : Image} {args : List (List Byte)} (h : Sound pool s)
    (hpool : pool.Nodup) (hp : s.alive p) :
    exec ly p img args s = .error .wild ∨
      ∃ r s', exec ly p img args s = .ok (r, s') ∧ Sound pool s' := by
  have hnd := h.free_nodup hpool
  unfold exec
  split
  · exact .inr ⟨-1, s, rfl, h⟩
  obtain ⟨o, k1, hset, -, hres⟩ := setupkvm_spec ly s.kmem
  simp only [hset, bind, Except.bind, pure, Except.pure]
  rcases hres with ⟨t, rfl, ht, -, -, hlow, -, hc1⟩ | ⟨rfl, hc1, -⟩
  swap
  · exact .inr ⟨-1, _, rfl, h.kmem hc1.le⟩
  have hz : pgroundup 0 = 0 := rfl
  have hab : Above t 0 := fun v _ hv => hlow v hv
  have hbel : Below t 0 := fun v hv => absurd hv (by omega)
  obtain ⟨o, t2, k2, hx⟩ := loadSegments_ok (l := img.segments) (k := k1) ht (Nat.zero_le _) hab
    hbel (by rw [hc1]; exact hnd)
  obtain ⟨ht2, hc2, hsz2⟩ := loadSegments_spec ht (Nat.zero_le _) hab hbel
    (by rw [hc1]; exact hnd) hx
  rw [hc1] at hc2
  simp only [hx]
  -- whatever fails, the new address space is given back
  have hfail : ∀ {t' : Pgdir} {k' : Kmem}, t'.Ok → k'.free + t'.pages = s.kmem.free →
      Sound pool { s with kmem := freevm t' k' } := fun ht' hk' =>
    h.kmem (((freevm_spec ht' _).1.trans hk').le)
  cases o with
  | none => exact .inr ⟨-1, _, rfl, hfail ht2 hc2⟩
  | some sz =>
    obtain ⟨hle, hab2, hbel2⟩ := hsz2 sz rfl
    obtain ⟨o, t3, k3, hx⟩ := makeStack_ok (k := k2) ht2 hab2 hbel2 (by rw [hc2]; exact hnd)
    obtain ⟨ht3, hc3, hsz3⟩ := makeStack_spec ht2 hab2 hbel2 (by rw [hc2]; exact hnd) hx
    rw [hc2] at hc3
    simp only [hx]
    cases o with
    | none => exact .inr ⟨-1, _, rfl, hfail ht3 hc3⟩
    | some sz3 =>
      obtain ⟨hlt, hab3, -⟩ := hsz3 sz3 rfl
      rcases pushStack_copies ht3 args sz3 k3 with he | ⟨r, k4, he, hw⟩
      · exact .inl (by simp only [he])
      · simp only [he]
        have hc4 := hw.pages.trans hc3
        cases r with
        | none => exact .inr ⟨-1, _, rfl, hfail ht3 hc4⟩
        | some sp => exact .inr ⟨0, _, rfl, commit_sound h hp ht3 hlt hab3 hc4⟩

theorem reap_sound {q : Fin N} (h : Sound pool s) : Sound pool (reap q s) := by
  refine h.update (v := { s.proc q with
    kstack := none, pgdir := none, pid := 0, parent := none, state := .UNUSED })
    ⟨nofun, fun _ => ⟨rfl, rfl⟩, fun hne => absurd rfl hne⟩ rfl rfl rfl (le_of_eq ?_)
  have hks : ((s.proc q).kstack.elim s.kmem fun v => kfree v s.kmem).free
      = s.kmem.free + Lib.unit (s.proc q).kstack := by
    cases (s.proc q).kstack with
    | none => simp
    | some v => simp
  change ((s.proc q).pgdir.elim ((s.proc q).kstack.elim s.kmem fun v => kfree v s.kmem)
    fun t => freevm t ((s.proc q).kstack.elim s.kmem fun v => kfree v s.kmem)).free + (0 + 0) = _
  rw [Proc.pages, add_zero, add_zero]
  cases hd : (s.proc q).pgdir with
  | none => simpa using hks
  | some t =>
    simp only [Option.elim_some]
    rw [(freevm_spec ((h.procs q).dir t hd).1 _).1, hks, add_assoc]

theorem pipealloc_sound (h : Sound pool s) : Sound pool (pipealloc s) := by
  unfold pipealloc
  split
  · exact h
  · next v k hk =>
    obtain ⟨-, hfree, -⟩ := kalloc_some hk
    refine ⟨le_trans (le_of_eq ?_) h.pages, h.kpgdir, h.procs⟩
    change k.free + (s.kpgdir.pages + ∑ r, (s.proc r).pages + ((v :: s.pipes : List Nat) :
      Multiset Nat)) = _
    rw [hfree, Sys.inUse, ← Multiset.cons_coe, ← Multiset.singleton_add]
    abel

theorem pipefree_sound {v : Nat} (h : Sound pool s) (hv : v ∈ s.pipes) :
    Sound pool (pipefree v s) := by
  refine ⟨le_trans (le_of_eq ?_) h.pages, h.kpgdir, h.procs⟩
  have herase : (s.pipes : Multiset Nat) = {v} + (s.pipes.erase v : Multiset Nat) := by
    rw [Multiset.singleton_add, Multiset.cons_coe]
    exact Multiset.coe_eq_coe.2 (List.perm_cons_erase hv)
  change (kfree v s.kmem).free + (s.kpgdir.pages + ∑ r, (s.proc r).pages
    + (s.pipes.erase v : Multiset Nat)) = _
  rw [free_kfree, Sys.inUse, herase]
  abel

theorem exit_sound (h : Sound pool s) (hp : s.alive p) :
    Sound pool (s.setProc p { s.proc p with state := .ZOMBIE }) :=
  h.update (v := { s.proc p with state := .ZOMBIE })
    ⟨(h.procs p).dir, nofun, fun _ => (h.procs p).used hp.1⟩ rfl rfl rfl le_rfl

theorem Call.sound {r : Except Panic (Sys N)} (hc : Call ly p s r) (h : Sound pool s)
    (hpool : pool.Nodup) (hp : s.alive p) :
    r = .error .copyuvm ∨ r = .error .wild ∨ ∃ s', r = .ok s' ∧ Sound pool s' := by
  have hmap : ∀ {x : Except Panic (Int × Sys N)}, (∃ r s', x = .ok (r, s') ∧ Sound pool s') →
      ∃ s', Prod.snd <$> x = .ok s' ∧ Sound pool s' := by
    rintro _ ⟨r, s', rfl, hs'⟩
    exact ⟨s', rfl, hs'⟩
  cases hc with
  | sbrk n => exact .inr (.inr (hmap (sbrk_sound n h hpool hp)))
  | fork =>
    rcases fork_sound ly h hp with herr | hok
    · rw [herr]
      exact .inl rfl
    · exact .inr (.inr (hmap hok))
  | exec img args =>
    rcases exec_sound h hpool hp with herr | hok
    · rw [herr]
      exact .inr (.inl rfl)
    · exact .inr (.inr (hmap hok))
  | exit => exact .inr (.inr ⟨_, rfl, exit_sound h hp⟩)
  | wait q _ => exact .inr (.inr ⟨_, rfl, reap_sound h⟩)
  | pipe => exact .inr (.inr ⟨_, rfl, pipealloc_sound h⟩)
  | close v hv => exact .inr (.inr ⟨_, rfl, pipefree_sound h hv⟩)
  | store _ _ _ _ c => exact .inr (.inr ⟨_, rfl, h.kmem le_rfl⟩)

theorem boot_sound {init : Page} (h : boot ly initproc pool init = .ok (some s)) :
    Sound pool s := by
  unfold boot at h
  obtain ⟨o, k1, hset, -, hres⟩ := setupkvm_spec ly ⟨pool, fun _ _ => 1⟩
  simp only [hset, bind, Except.bind, pure, Except.pure] at h
  rcases hres with ⟨kp, rfl, hkp, -, -, -, -, hc1⟩ | ⟨rfl, -⟩
  swap
  · cases h
  split at h
  swap
  · cases h
  next kp' ks k2 hkpeq hk =>
  cases hkpeq
  obtain ⟨-, hfree2, -⟩ := kalloc_some hk
  obtain ⟨o, k3, hset2, -, hres⟩ := setupkvm_spec ly k2
  simp only [hset2] at h
  rcases hres with ⟨d, rfl, hd, -, -, hlow, -, hc3⟩ | ⟨rfl, -⟩
  swap
  · cases h
  split at h
  swap
  · cases h
  next d' mem k4 hdeq hk4 =>
  cases hdeq
  obtain ⟨-, hfree4, -⟩ := kalloc_some hk4
  have hpos : (0 : Nat) < KERNPAGE := by rw [KERNPAGE_eq]; omega
  rcases mapUser_spec (w := true) (u := true) (f := 0) mem hd (v := 0) hpos (hlow 0 hpos)
      (k4.fill mem init) with ⟨hmap, -, -⟩ | ⟨d5, k5, hmap, hd5, -, hpte5, -, -, hc5, -⟩
  · simp only [hmap] at h
    cases h
  · simp only [hmap, if_true] at h
    cases h
    have hpage : pgroundup PGSIZE = 1 := rfl
    refine ⟨le_of_eq ?_, hkp, fun q => ?_⟩
    · have hsum : ∑ q, ((booted initproc ks d5 kp k5).proc q).pages = {ks} + d5.pages := by
        simp only [booted]
        rw [Finset.sum_eq_single initproc]
        · rw [Function.update_self]
          rfl
        · intro q _ hq
          rw [Function.update_of_ne hq]
          rfl
        · exact fun hno => absurd (Finset.mem_univ _) hno
      rw [Sys.inUse, hsum]
      change k5.free + (kp.pages + ({ks} + d5.pages) + (([] : List Nat) : Multiset Nat)) = _
      rw [free_fill] at hc5
      calc k5.free + (kp.pages + ({ks} + d5.pages) + (([] : List Nat) : Multiset Nat))
          = k5.free + d5.pages + {ks} + kp.pages := by
            rw [Multiset.coe_nil, add_zero]
            abel
        _ = k4.free + {mem} + d.pages + {ks} + kp.pages := by rw [hc5]; abel
        _ = pool := by
          rw [← hfree4, hc3, ← hfree2, hc1]
          rfl
    · by_cases hq : q = initproc
      · subst hq
        simp only [booted, Function.update_self]
        refine ⟨?_, nofun, fun _ => Option.some_ne_none d5⟩
        rintro _ ⟨⟩
        refine ⟨hd5, show PGSIZE < KERNBASE by decide, fun v h1 h2 => ?_⟩
        change pgroundup PGSIZE ≤ v at h1
        rw [hpage] at h1
        rw [hpte5, Function.update_of_ne (by omega)]
        exact hlow v h2
      · simp only [booted, Function.update_of_ne hq]
        exact ⟨nofun, fun _ => ⟨rfl, rfl⟩, fun hne => absurd rfl hne⟩

theorem boot_enough (ly : Layout) (initproc : Fin N) (init : Page) (hlen : 133 ≤ pool.length) :
    ∃ s d e, boot ly initproc pool init = .ok (some s) ∧
      (s.proc initproc).state = .RUNNABLE ∧ (s.proc initproc).pgdir = some d ∧
      (s.proc initproc).sz = PGSIZE ∧ d.pte 0 = some e ∧
      (∀ q ≠ initproc, (s.proc q).state = .UNUSED) ∧
      s.kmem.freelist.length + 133 = pool.length := by
  have hpos : (0 : Nat) < KERNPAGE := by rw [KERNPAGE_eq]; omega
  obtain ⟨kp, k1, hset, -, -, -, -, -, hF1⟩ :=
    setupkvm_enough (k := ⟨pool, fun _ _ => 1⟩) ly (show 65 ≤ pool.length by omega)
  change k1.freelist.length + 65 = pool.length at hF1
  obtain ⟨ks, k2, hk, hF2⟩ := kalloc_pos (k := k1) (by omega)
  obtain ⟨d, k3, hset2, hd, htabs2, hlow, -, -, hF3⟩ := setupkvm_enough (k := k2) ly (by omega)
  obtain ⟨mem, k4, hk4, hF4⟩ := kalloc_pos (k := k3) (by omega)
  rcases mapUser_spec (w := true) (u := true) (f := 0) mem hd (v := 0) hpos (hlow 0 hpos)
      (k4.fill mem init) with ⟨-, hl, -⟩ | ⟨d5, k5, hmap, -, -, hpte5, -, -, hc5, htab5⟩
  · change k4.freelist = [] at hl
    rw [hl, List.length_nil] at hF4
    omega
  · have hnot : d.tab (0 / NPDENTRIES) = none := by
      rw [Nat.zero_div]
      exact tab_eq_none htabs2 (by omega) (by simp [kernTabs])
    have hF5 := length_mapUser hpos (hlow 0 hpos) hnot hpte5 htab5 hc5
    change _ = k4.freelist.length at hF5
    refine ⟨booted initproc ks d5 kp k5, d5, ⟨mem, true, true, 0⟩, ?_, ?_⟩
    · simp only [boot, hset, hk, hset2, hk4, hmap, bind, Except.bind, pure, Except.pure, if_true]
    · simp only [booted, firstProc, Function.update_self, hpte5, true_and]
      exact ⟨fun q hq => by rw [Function.update_of_ne hq]; rfl, by omega⟩

theorem Reachable.sound (hpool : pool.Nodup) (h : Reachable ly initproc pool s) :
    Sound pool s := by
  induction h with
  | boot h => exact boot_sound h
  | step _ hp hc ih =>
    rcases hc.sound ih hpool hp with herr | herr | ⟨_, heq, hs'⟩
    · cases herr
    · cases herr
    · cases heq
      exact hs'

/-- In every run: the free list has no duplicates, no free page is in use, no page is in use twice,
and no directory gives the user an entry of the kernel's part. Every call ends, or is a `fork` that
panics in `copyuvm` or an `exec` that traps in `uva2ka`. -/
theorem pages_isolated (hpool : pool.Nodup) (h : Reachable ly initproc pool s) :
    s.kmem.freelist.Nodup ∧ (∀ q ∈ s.kmem.freelist, q ∉ s.inUse) ∧ s.inUse.Nodup ∧
    (∀ v e, KERNPAGE ≤ v → s.kpgdir.pte v = some e → e.u = false) ∧
    (∀ p t, (s.proc p).pgdir = some t → ∀ v e, KERNPAGE ≤ v → t.pte v = some e → e.u = false) ∧
    ∀ p r, s.alive p → Call ly p s r →
      r = .error .copyuvm ∨ r = .error .wild ∨ ∃ s', r = .ok s' := by
  have hs := h.sound hpool
  obtain ⟨h1, h2, h3⟩ := Multiset.nodup_add.1 (hs.nodup hpool)
  refine ⟨Multiset.coe_nodup.1 h1, fun q hq => Multiset.disjoint_left.1 h3 hq, h2,
    fun v e => hs.kpgdir.kern v e, fun p t ht v e => ((hs.procs p).dir t ht).1.kern v e,
    fun p r hp hc => ?_⟩
  exact (hc.sound hs hpool hp).imp_right (.imp_right fun ⟨s', heq, _⟩ => ⟨s', heq⟩)

theorem Reachable.returned {x : Except Panic (Int × Sys N)} {r : Int}
    (h : Reachable ly initproc pool s) (hp : s.alive p) (hc : Call ly p s (Prod.snd <$> x))
    (hx : x = .ok (r, s')) : Reachable ly initproc pool s' := by
  rw [hx] at hc
  exact .step h hp hc

theorem exec_empty (ly : Layout) (args : List (List Byte)) (h : Sound pool s) (hpool : pool.Nodup)
    (hF : 1100 < s.kmem.freelist.length)
    (hn : args.length ≤ MAXARG) (hfit : argBytes args + (4 + args.length) * 4 ≤ PGSIZE) :
    ∃ sz t k, exec ly p ⟨true, []⟩ args s = .ok (0, commit p sz t { s with kmem := k }) := by
  have hnd := h.free_nodup hpool
  obtain ⟨d, k₁, t, k₂, hset, hstack, -⟩ := emptyImage_enough ly hnd hF
  obtain ⟨_, _, hset', -, ⟨d', rfl, hd, -, -, hlow, -, hc⟩ | ⟨rfl, -⟩⟩ := setupkvm_spec ly s.kmem
  · rw [hset] at hset'
    cases hset'
    have hab : Above d 0 := fun v _ hv => hlow v hv
    have hbel : Below d 0 := fun v hv => absurd hv (Nat.not_lt_zero v)
    have hpage := makeStack_stackPage hd hab hbel (by rwa [hc]) hstack
    obtain ⟨sp, k₃, hpush⟩ := hpage.pushStack_fits (makeStack_user hd hstack) hn hfit k₂
    refine ⟨2 * PGSIZE, t, k₃, ?_⟩
    unfold exec
    rw [if_neg (by decide)]
    simp only [hset, loadSegments, hstack, hpush, bind, Except.bind]
    rfl
  · rw [hset] at hset'
    cases hset'

/-- A process forks, executes a program with an argument, reaps its child, makes a pipe and
grows. -/
theorem pages_isolated_run : ∃ (s0 s₁ s2 s3 : Sys 2) (r r' : Int),
    boot someLayout 0 (List.range' 1024 4000) (fun _ => 0) = .ok (some s0) ∧
    fork someLayout 0 s0 = .ok (r, s₁) ∧ 0 ≤ r ∧ (s₁.proc 1).state = .RUNNABLE ∧
    exec someLayout 0 ⟨true, []⟩ [[104, 105]] s₁ = .ok (0, s2) ∧
    sbrk 4096 0 (pipealloc (reap 1 (s2.setProc 1 { s2.proc 1 with state := .ZOMBIE })))
      = .ok (r', s3) ∧
    Reachable someLayout 0 (List.range' 1024 4000) s3 ∧
    s3.inUse.Nodup ∧ ∀ q ∈ s3.kmem.freelist, q ∉ s3.inUse := by
  have hpool : (List.range' 1024 4000).Nodup := List.nodup_range'
  obtain ⟨s0, d, e, hboot, hst, hd, hsz, he, hfree, hlen⟩ := boot_enough (N := 2) someLayout 0
    (fun _ => 0) (show 133 ≤ (List.range' 1024 4000).length by rw [List.length_range']; omega)
  rw [List.length_range'] at hlen
  generalize List.range' 1024 4000 = pool at *
  have hr0 : Reachable someLayout 0 pool s0 := .boot hboot
  have hal0 : s0.alive 0 := by simp [Sys.alive, hst]
  obtain ⟨hok, hlt, -⟩ := ((hr0.sound hpool).procs 0).dir d hd
  have hone : pgroundup (s0.proc 0).sz = 1 := by rw [hsz]; rfl
  rcases fork_spec someLayout hal0.1 hd hok hlt with ⟨-, x, hx, hxn⟩ | ⟨hf, -⟩ |
      ⟨np, r, s₁, v, hf, hfork, hrest, -, hres⟩
  · rw [hone] at hx
    obtain rfl : x = 0 := by omega
    rw [he] at hxn
    cases hxn
  · exact absurd (hfree 1 (by decide)) (findUnused_none hf 1)
  have hnp : np = 1 := by
    have : np ≠ 0 := by
      rintro rfl
      exact hal0.1 (findUnused_state hf)
    omega
  subst hnp
  have h0 : s₁.proc 0 = s0.proc 0 := by rw [hrest.proc, Function.update_of_ne (by decide)]
  have h1 : s₁.proc 1 = v := by rw [hrest.proc, Function.update_self]
  rcases hres with ⟨-, -, -, -, -, -, hfew, -⟩ | ⟨hr, -, q, d', hrun, -, -, -, -, hmap, hcons⟩
  · omega
  have hal1 : s₁.alive 0 := by simp [Sys.alive, h0, hst]
  have hr1 : Reachable someLayout 0 pool s₁ := hr0.returned hal0 .fork hfork
  -- the child has one page, and at most 1024 page tables
  have hF : 1100 < s₁.kmem.freelist.length := by
    have hcard := congrArg Multiset.card hcons
    have htabs : d'.tabs.card ≤ 1024 :=
      (Finset.card_filter_le ..).trans (by rw [Finset.card_range, NPDENTRIES_eq])
    have husers : d'.users.card ≤ 1 := by
      refine Finset.card_le_one.2 fun x hx y hy => ?_
      simp only [Pgdir.users, Finset.mem_filter, Finset.mem_range,
        Option.isSome_iff_ne_none] at hx hy
      have h2 := (hmap x hx.1).1 hx.2
      have h3 := (hmap y hy.1).1 hy.2
      omega
    rw [Multiset.card_add, Multiset.card_add, Multiset.card_singleton, Kmem.card_free,
      Kmem.card_free, Pgdir.card_pages] at hcard
    omega
  obtain ⟨sz, t, k, hexec⟩ := exec_empty (p := 0) someLayout [[104, 105]]
    (hr1.sound hpool) hpool hF (by decide) (by decide)
  have hr2 : Reachable someLayout 0 pool (commit 0 sz t { s₁ with kmem := k }) :=
    hr1.returned hal1 (.exec ⟨true, []⟩ [[104, 105]] (by simp [h0, hsz, PGSIZE])) hexec
  generalize hs2 : commit 0 sz t { s₁ with kmem := k } = s2 at hexec hr2
  have hp2 : (s2.proc 0).state = .RUNNABLE ∧ (s2.proc 1).state = .RUNNABLE := by
    rw [← hs2]
    simp [commit, Sys.setProc, h0, h1, hst, hrun]
  have hr3 := Reachable.step hr2 (p := 1) (by simp [Sys.alive, hp2.2]) Call.exit
  have hr4 := Reachable.step hr3 (p := 0) (by simp [Sys.alive, Sys.setProc, hp2.1])
    (Call.wait 1 (by simp [Sys.setProc]))
  have hr5 := Reachable.step hr4 (p := 0) (by simp [Sys.alive, reap, Sys.setProc, hp2.1]) Call.pipe
  have hal5 : (pipealloc (reap 1 (s2.setProc 1 { s2.proc 1 with state := .ZOMBIE }))).alive 0 := by
    unfold pipealloc
    split <;> simp [Sys.alive, reap, Sys.setProc, hp2.1]
  obtain ⟨r', s3, hsbrk, -⟩ := sbrk_sound 4096 (hr5.sound hpool) hpool hal5
  have hr6 : Reachable someLayout 0 pool s3 := hr5.returned hal5 (.sbrk 4096) hsbrk
  have h := pages_isolated hpool hr6
  exact ⟨s0, s₁, s2, s3, r, r', hboot, hfork, hr, h1 ▸ hrun, hexec, hsbrk, hr6, h.2.2.1, h.2.1⟩

end Xv6.Vm
