import Xv6.Exec.Failure

/-!
# The arguments of a new program

When `exec` returns 0, the trap frame has the stack pointer of the new program, and `argc` and
`argv` are there with all the strings. The old address space is freed after the strings have been
copied; none of its pages is one of the new image.
-/

namespace Xv6.Exec

open Lib Fs Vm

variable {N : Nat} {ly : Layout} {sb : Superblock} {prog : FsSt (Fin N) → Slot → Program}
  {p : Fin N}
  {path : Path} {args : List (List Byte)} {w w' : World N} {t t' d : Pgdir} {k k' : Kmem}
    {sz sp : Nat}

theorem peek_congr (hk : ∀ q ∈ t.pages, k'.mem q = k.mem q) {a : Nat} (ha : a < KERNBASE) :
    t.peek k' a = t.peek k a := by
  unfold Pgdir.peek
  cases he : t.pte (a / PGSIZE) with
  | none => rfl
  | some e =>
    have hv : a / PGSIZE < KERNPAGE := by
      have hK : KERNBASE = 2147483648 := rfl
      rw [KERNPAGE_eq, show PGSIZE = 4096 from rfl]
      omega
    rw [Option.map_some, Option.map_some, hk e.pa (Pgdir.pa_mem hv he)]

/-- The stages of an `exec` that returns 0 with the image `t`: the file, the stack, the arguments
and the commit. -/
structure Stages (ly : Layout) (prog : FsSt (Fin N) → Slot → Program) (p : Fin N)
    (args : List (List Byte)) (w w' : World N) (t : Pgdir) (sz : Nat) (k₁ k₂ : Kmem) : Prop where
  file : ∃ fs ip sz₀ t₀ k₀, load ly (prog fs ip).image w.sys.kmem = .ok (some (sz₀, t₀), k₀) ∧
    makeStack sz₀ t₀ k₀ = .ok (some sz, t, k₁)
  push : pushStack args sz t k₁ = .ok (some (w'.tf p).esp, k₂)
  pgdir : (w'.sys.proc p).pgdir = some t
  size : (w'.sys.proc p).sz = sz
  kmem : w'.sys.kmem = (w.sys.proc p).pgdir.elim k₂ fun old => freevm old k₂

theorem exec_stages (h : exec ly sb prog p path args w = some (0, w')) :
    ∃ t sz k₁ k₂, Stages ly prog p args w w' t sz k₁ k₂ := by
  obtain ⟨⟨r, fs1⟩, -, h⟩ := Option.bind_eq_some_iff.1 h
  cases r with
  | none => cases h
  | some ip =>
    obtain ⟨⟨_, fs2⟩, -, h⟩ := Option.bind_eq_some_iff.1 h
    obtain ⟨⟨r, k0⟩, hload, h⟩ := Option.bind_eq_some_iff.1 h
    obtain ⟨⟨_, fs3⟩, -, h⟩ := Option.bind_eq_some_iff.1 h
    cases r with
    | none => cases h
    | some x =>
      obtain ⟨sz0, t0⟩ := x
      obtain ⟨⟨r, t, k₁⟩, hst, h⟩ := Option.bind_eq_some_iff.1 h
      cases r with
      | none => cases h
      | some sz =>
        obtain ⟨⟨r, k₂⟩, hpush, h⟩ := Option.bind_eq_some_iff.1 h
        cases r with
        | none => cases h
        | some sp =>
          cases h
          refine ⟨t, sz, k₁, k₂, ⟨fs2, ip, sz0, t0, k0, ok_of_toOption hload, ok_of_toOption hst⟩,
            ?_, ?_, ?_, rfl⟩
          · rw [ok_of_toOption hpush]
            simp [World.commit]
          · simp [World.commit, Vm.commit, Sys.setProc]
          · simp [World.commit, Vm.commit, Sys.setProc]

/-- In a memory in which no page is in two places, with the address space `old` of the process and
any others `ts`: if `exec` returns 0, then the program finds its arguments at the stack pointer of
its trap frame, in the page below its size, and the copies have written to no other page. -/
theorem exec_arguments {old : Pgdir} {ts : List Pgdir} (hpg : (w.sys.proc p).pgdir = some old)
    (hold : old.Ok) (hD : Distinct w.sys.kmem (old :: ts))
    (h : exec ly sb prog p path args w = some (0, w')) :
    ∃ t sz k₁ k₂, Stages ly prog p args w w' t sz k₁ k₂ ∧
      (∃ ptrs, Arguments t w'.sys.kmem sz args (w'.tf p).esp ptrs) ∧
      ∀ pa o, k₂.mem pa o ≠ k₁.mem pa o → ∃ e, t.pte (sz / PGSIZE - 1) = some e ∧ e.pa = pa := by
  obtain ⟨t, sz, k₁, k₂, hs⟩ := exec_stages h
  obtain ⟨fs, ip, sz0, t0, k0, hload, hstack⟩ := hs.file
  have hnew := (load_spec (Multiset.nodup_add.1 hD).1 hload).2 sz0 t0 rfl
  have hnd : (k0.free + t0.pages).Nodup := by
    rw [hnew.pages]
    exact (Multiset.nodup_add.1 hD).1
  have hpage := makeStack_stackPage hnew.ok hnew.above hnew.below hnd hstack
  obtain ⟨⟨ptrs, hargs⟩, honly⟩ := hpage.pushStack hs.push
  refine ⟨t, sz, k₁, k₂, hs, ⟨ptrs, hargs.congr fun a ha => ?_⟩, honly⟩
  -- the pages of the image were free, so that none of them is one of the old address space
  have hw := (makeStack_within hnew.ok hnew.above hnd hstack).trans
    (pushStack_within hpage.ok hs.push)
  refine peek_congr (fun q hq => ?_) (ha.trans hpage.lt)
  rw [hs.kmem, hpg]
  refine (freevm_spec hold k₂).2 q fun hqold => ?_
  refine hD.not_free List.mem_cons_self hqold ?_
  rw [← hnew.pages, ← hw.pages]
  exact Multiset.mem_add.2 (.inr hq)

/-- A program without segments, called with the arguments `echo` and `hi`. -/
theorem exec_arguments_two : ∃ w' t sz ptrs,
    exec someLayout ⟨0, 0, 0, 0, 0, 0, 0⟩ (fun _ _ => ⟨⟨true, []⟩, 0⟩) 0 []
      [[101, 99, 104, 111], [104, 105]]
      (lone.setKmem (freePages 4)) = some (0, w') ∧
    (w'.sys.proc 0).pgdir = some t ∧ t.readWord w'.sys.kmem ((w'.tf 0).esp + 4) = some 2 ∧
    Arguments t w'.sys.kmem sz [[101, 99, 104, 111], [104, 105]] (w'.tf 0).esp ptrs := by
  have hD : Distinct (freePages 4) [onePage] := distinct_onePage 2000
  have hlen : (freePages 4).freelist.length = 2000 := List.length_range'
  generalize freePages 4 = k at hD hlen ⊢
  have hfit : argBytes [[101, 99, 104, 111], [104, 105]] + (4 + 2) * 4 ≤ PGSIZE := by decide
  obtain ⟨w', hrun⟩ := exec_lone someLayout true (Multiset.nodup_add.1 hD).1 (by omega)
    fun t k' hpage hu => by
      obtain ⟨sp, k1, h⟩ := hpage.pushStack_fits hu (by decide) hfit k'
      exact ⟨some sp, k1, h, rfl⟩
  obtain ⟨t, sz, k1, k2, hs, ⟨ptrs, hargs⟩, -⟩ := exec_arguments rfl (oneProc_userOk 0).ok hD hrun
  exact ⟨w', t, sz, ptrs, hrun, hs.pgdir, hargs.argc, hargs⟩

end Xv6.Exec
