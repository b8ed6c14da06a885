import Mathlib.Data.List.FinRange
import Mathlib.Data.List.Perm.Lattice
import NasdaqItch.Lib.RingWindow
import NasdaqItch.Lib.Run

/-!
# The memory pools

`MempoolSPSC` of `mempool.h`: a ring of pointers to the blocks of a buffer. `allocate` takes the
pointer at the allocator index and `deallocate` stores the returned one at the deallocator index,
so the blocks come back in any order. One pointer is never handed out, since equal indices stand
for a pool that is full of free blocks.

`Owns` is the invariant: the free blocks and the outstanding ones are all blocks, each once.
-/

namespace NasdaqItch

open Runs RingWindow

/-- A block of a pool's buffer, by its number. -/
abbrev Block (N : Nat) := Fin N

structure MempoolSPSC (N : Nat) where
  isFreeBufferMap : Fin N → Block N
  allocatorIndex : Fin N
  deallocatorIndex : Fin N

namespace MempoolSPSC

variable {N : Nat}

/-- The constructor. -/
def initial (hN : 0 < N) : MempoolSPSC N := ⟨id, ⟨0, hN⟩, ⟨0, hN⟩⟩

/-- The block, or `none` for the null pointer. -/
def allocate (pool : MempoolSPSC N) : Option (Block N) × MempoolSPSC N :=
  let nextAllocatorIndex := next pool.allocatorIndex
  if nextAllocatorIndex = pool.deallocatorIndex then (none, pool)
  else
    let resource := pool.isFreeBufferMap pool.allocatorIndex
    (some resource, { pool with allocatorIndex := nextAllocatorIndex })

/-- The test on which `deallocate` returns early. -/
def dropsReturned (pool : MempoolSPSC N) : Bool := pool.deallocatorIndex = pool.allocatorIndex

def deallocate (pool : MempoolSPSC N) (item : Block N) : MempoolSPSC N :=
  if pool.dropsReturned then pool
  else
    { pool with
      isFreeBufferMap := Function.update pool.isFreeBufferMap pool.deallocatorIndex item
      deallocatorIndex := next pool.deallocatorIndex }

/-! ## Who owns the blocks -/

/-- The blocks in the ring between the allocator index and the deallocator index. -/
def freeBlocks (pool : MempoolSPSC N) : List (Block N) :=
  between pool.isFreeBufferMap pool.allocatorIndex pool.deallocatorIndex

/-- The free blocks and the outstanding ones are all blocks of the buffer, each once. -/
def Owns (pool : MempoolSPSC N) (outstanding : List (Block N)) : Prop :=
  (pool.freeBlocks ++ outstanding).Perm (List.finRange N)

variable {pool pool' : MempoolSPSC N} {outstanding outstanding' : List (Block N)}
  {result : Option (Block N)} {block item : Block N}

theorem allocate_of_next_eq (h : next pool.allocatorIndex = pool.deallocatorIndex) :
    pool.allocate = (none, pool) := if_pos h

theorem allocate_of_next_ne (h : next pool.allocatorIndex ≠ pool.deallocatorIndex) :
    pool.allocate = (some (pool.isFreeBufferMap pool.allocatorIndex),
      { pool with allocatorIndex := next pool.allocatorIndex }) := if_neg h

theorem owns_initial (hN : 0 < N) : Owns (initial hN) [] := by
  have hfree : (initial hN).freeBlocks = List.ofFn id := between_first rfl
  unfold Owns
  rw [List.append_nil, hfree, List.ofFn_id]

theorem Owns.perm (h : Owns pool outstanding) (hp : outstanding.Perm outstanding') :
    Owns pool outstanding' :=
  (hp.symm.append_left _).trans h

theorem Owns.nodup (h : Owns pool outstanding) : (pool.freeBlocks ++ outstanding).Nodup :=
  h.nodup_iff.2 (List.nodup_finRange N)

theorem Owns.length (h : Owns pool outstanding) :
    pool.freeBlocks.length + outstanding.length = N := by
  rw [← List.length_append, h.length_eq, List.length_finRange]

theorem Owns.allocate_eq_none (h : Owns pool outstanding) :
    pool.allocate.1 = none ↔ outstanding.length + 1 = N := by
  have hlength := h.length
  rw [freeBlocks, length_between] at hlength
  have hone : pool.allocate.1 = none ↔ gap pool.allocatorIndex pool.deallocatorIndex = 1 := by
    rw [gap_eq_one]
    by_cases hnext : next pool.allocatorIndex = pool.deallocatorIndex
    · rw [allocate_of_next_eq hnext]
      exact ⟨fun _ => hnext, fun _ => rfl⟩
    · rw [allocate_of_next_ne hnext]
      exact ⟨nofun, fun heq => absurd heq hnext⟩
  rw [hone]
  omega

theorem allocate_none (hst : pool.allocate = (none, pool')) : pool' = pool := by
  by_cases hnext : next pool.allocatorIndex = pool.deallocatorIndex
  · rw [allocate_of_next_eq hnext] at hst
    exact (Prod.mk.inj hst).2.symm
  · rw [allocate_of_next_ne hnext] at hst
    exact absurd (Prod.mk.inj hst).1 nofun

theorem Owns.allocate (h : Owns pool outstanding) (hst : pool.allocate = (some block, pool')) :
    block ∉ outstanding ∧ Owns pool' (block :: outstanding) := by
  by_cases hnext : next pool.allocatorIndex = pool.deallocatorIndex
  · rw [allocate_of_next_eq hnext] at hst
    exact absurd (Prod.mk.inj hst).1 nofun
  rw [allocate_of_next_ne hnext] at hst
  obtain ⟨hblock, rfl⟩ := Prod.mk.inj hst
  obtain rfl := Option.some.inj hblock
  have hfree : pool.freeBlocks = pool.isFreeBufferMap pool.allocatorIndex ::
      freeBlocks { pool with allocatorIndex := next pool.allocatorIndex } :=
    between_of_next_ne hnext
  have hnodup := h.nodup
  unfold Owns at h
  rw [hfree, List.cons_append] at h hnodup
  refine ⟨fun hmem => ?_, List.perm_middle.trans h⟩
  exact (List.nodup_cons.1 hnodup).1 (List.mem_append_right _ hmem)

theorem Owns.not_dropsReturned (h : Owns pool outstanding) (hitem : item ∈ outstanding) :
    pool.dropsReturned = false := by
  have hlength := h.length
  rw [freeBlocks, length_between] at hlength
  have hpos : 0 < outstanding.length := List.length_pos_of_mem hitem
  unfold dropsReturned
  rw [decide_eq_false_iff_not]
  intro heq
  rw [heq, gap_self] at hlength
  omega

theorem Owns.deallocate (h : Owns pool outstanding) (hitem : item ∈ outstanding) :
    Owns (pool.deallocate item) (outstanding.erase item) := by
  have hkeep := h.not_dropsReturned hitem
  have hne : pool.allocatorIndex ≠ pool.deallocatorIndex := by
    unfold dropsReturned at hkeep
    exact fun heq => of_decide_eq_false hkeep heq.symm
  have hfree : (pool.deallocate item).freeBlocks = pool.freeBlocks ++ [item] := by
    unfold MempoolSPSC.deallocate
    rw [if_neg (by rw [hkeep]; nofun)]
    exact between_store hne
  unfold Owns
  rw [hfree, List.append_assoc]
  exact ((List.perm_cons_erase hitem).symm.append_left _).trans h

end MempoolSPSC

/-! ## Every sequence of calls -/

/-- A call with what it returned or was given. -/
inductive PoolCall (N : Nat)
  | allocate (result : Option (Block N))
  | deallocate (item : Block N)

structure PoolHistory (N : Nat) where
  pool : MempoolSPSC N
  /-- The blocks that were handed out and not returned; the pool does not read this. -/
  outstanding : List (Block N)

namespace PoolHistory

open MempoolSPSC

variable {N : Nat} {s t : PoolHistory N} {call : PoolCall N}

def initial (hN : 0 < N) : PoolHistory N := ⟨.initial hN, []⟩

/-- One call. Only outstanding blocks are returned. -/
inductive Step : PoolHistory N → PoolCall N → PoolHistory N → Prop
  | allocate {s result pool} : s.pool.allocate = (result, pool) →
      Step s (.allocate result) ⟨pool, result.toList ++ s.outstanding⟩
  | deallocate {s item} : item ∈ s.outstanding →
      Step s (.deallocate item) ⟨s.pool.deallocate item, s.outstanding.erase item⟩

theorem owns_step (h : s.pool.Owns s.outstanding) (hst : Step s call t) :
    t.pool.Owns t.outstanding := by
  cases hst with
  | @allocate result pool hallocate =>
      cases result with
      | some block => exact (h.allocate hallocate).2
      | none =>
          rw [allocate_none hallocate]
          exact h
  | deallocate hitem => exact h.deallocate hitem

end PoolHistory

/-- **Each block has one owner.** After every sequence of calls in which only outstanding blocks
are returned: the free blocks in the ring and the outstanding blocks are all blocks of the buffer,
each once; the next `allocate` returns the null pointer if all blocks but one are outstanding and
else a block that is not; and the next `deallocate` of an outstanding block keeps it. -/
theorem pool_blocks_once {N : Nat} (hN : 0 < N) {calls : List (PoolCall N)} {s : PoolHistory N}
    (hrun : Run PoolHistory.Step (PoolHistory.initial hN) calls s) :
    (s.pool.freeBlocks ++ s.outstanding).Perm (List.finRange N) ∧
      (s.pool.allocate.1 = none ↔ s.outstanding.length = N - 1) ∧
      (∀ block, s.pool.allocate.1 = some block → block ∉ s.outstanding) ∧
      ∀ item ∈ s.outstanding, s.pool.dropsReturned = false := by
  have howns : s.pool.Owns s.outstanding :=
    hrun.invariant (I := fun s => s.pool.Owns s.outstanding)
      (fun _ _ _ _ h hst => PoolHistory.owns_step h hst) (MempoolSPSC.owns_initial hN)
  refine ⟨howns, ?_, ?_, ?_⟩
  · rw [howns.allocate_eq_none]
    omega
  · intro block hblock
    exact (howns.allocate (Prod.ext hblock rfl)).1
  · intro item hitem
    exact howns.not_dropsReturned hitem

/-- A pool of three blocks: two are taken and returned newest first, then one is taken again. -/
def newestFirst : List (PoolCall 3) :=
  [.allocate (some 0), .allocate (some 1), .allocate none, .deallocate 1, .deallocate 0,
    .allocate (some 2)]

theorem pool_blocks_once_newestFirst :
    ∃ s : PoolHistory 3, s.outstanding = [2] ∧
      (s.pool.freeBlocks ++ s.outstanding).Perm [0, 1, 2] ∧
      ∀ block, s.pool.allocate.1 = some block → block ∉ s.outstanding := by
  have hrun : ∃ s, Run PoolHistory.Step (PoolHistory.initial (by decide)) newestFirst s ∧
      s.outstanding = [2] :=
    ⟨_, .cons (.allocate rfl) <| .cons (.allocate rfl) <| .cons (.allocate rfl) <|
      .cons (.deallocate (by decide)) <| .cons (.deallocate (by decide)) <|
      .cons (.allocate rfl) <| .nil _, rfl⟩
  obtain ⟨s, hrun, houtstanding⟩ := hrun
  have h := pool_blocks_once (by decide) hrun
  exact ⟨s, houtstanding, h.1, h.2.2.1⟩

end NasdaqItch
