import Mathlib.Data.List.Perm.Basic
import WordScript.Emit.Basic

/-!
# The register pool over time

Registers are taken and given back in any order. The pool and the registers that are held agree all
the while, and what it lends next is the lowest register that nobody holds (`Loans.exact_after`).
-/

namespace WordScript

namespace RegisterPool

theorem lowestFree?_spec {p : RegisterPool} (h : p.lowestFree? = some k) :
    k < generalRegisters ∧ p.holds k = false := by
  have hk := List.find?_some h
  exact ⟨by simpa using List.mem_of_find?_eq_some h, by simpa using hk⟩

theorem holds_take (p : RegisterPool) (k j : Nat) :
    (p.take k).holds j = (p.holds j || decide (j < generalRegisters ∧ k = j)) := by
  simp only [holds, take, BitVec.getLsbD_or, BitVec.getLsbD_twoPow]
  grind

theorem holds_release (p : RegisterPool) (k j : Nat) :
    (p.release (.general k)).holds j = (p.holds j && decide (k ≠ j)) := by
  simp only [holds, release, BitVec.getLsbD_and, BitVec.getLsbD_not, BitVec.getLsbD_twoPow]
  grind

theorem release_take {p : RegisterPool} (h : p.lowestFree? = some k) :
    (p.take k).release (.general k) = p := by
  have hfree := (lowestFree?_spec h).2
  have hsame : ∀ j, ((p.take k).release (.general k)).holds j = p.holds j := by
    intro j
    rw [holds_release, holds_take]
    grind
  exact congrArg RegisterPool.mk (BitVec.eq_of_getLsbD_eq fun j _ => hsame j)

theorem mem_live {p : RegisterPool} {r : Register} :
    r ∈ p.live ↔ ∃ k < generalRegisters, p.holds k = true ∧ r = .general k := by
  simp only [live, List.mem_map, List.mem_filter, List.mem_range]
  grind

theorem nodup_live (p : RegisterPool) : p.live.Nodup := by
  refine List.Pairwise.map _ ?_ (List.nodup_range.filter p.holds)
  intro a b h he
  exact h (Register.general.inj he)

variable {pool : RegisterPool}

theorem not_live_of_free (h : pool.lowestFree? = some k) : .general k ∉ pool.live := by
  intro hmem
  obtain ⟨j, -, hj, he⟩ := mem_live.mp hmem
  obtain rfl : k = j := by simpa using he
  simp [(lowestFree?_spec h).2] at hj

theorem live_take (hr : r ∈ pool.live) : r ∈ (pool.take k).live := by
  obtain ⟨j, hlt, hj, rfl⟩ := mem_live.mp hr
  exact mem_live.mpr ⟨j, hlt, by simp [holds_take, hj], rfl⟩

theorem taken_live (h : pool.lowestFree? = some k) : .general k ∈ (pool.take k).live :=
  mem_live.mpr ⟨k, (lowestFree?_spec h).1, by simp [holds_take, (lowestFree?_spec h).1], rfl⟩

theorem not_live_of_free_take (h : (pool.take l).lowestFree? = some r) : .general r ∉ pool.live :=
  fun hmem => not_live_of_free h (live_take hmem)

theorem not_live_of_mem_free (h : pool.lowestFree? = some k) :
    ∀ r ∈ [Register.general k], r ∉ pool.live := by
  simpa using not_live_of_free h

theorem not_live_of_mem_pair (hl : pool.lowestFree? = some l)
    (hr : (pool.take l).lowestFree? = some r) :
    ∀ q ∈ [Register.general l, .general r], q ∉ pool.live := by
  simp [not_live_of_free hl, not_live_of_free_take hr]

theorem ne_of_free_take (hl : pool.lowestFree? = some l) (h : (pool.take l).lowestFree? = some r) :
    l ≠ r := by
  rintro rfl
  exact not_live_of_free h (taken_live hl)

theorem live_release_perm (h : .general k ∈ pool.live) :
    pool.live.Perm (.general k :: (pool.release (.general k)).live) := by
  have hnot : .general k ∉ (pool.release (.general k)).live := by simp [mem_live, holds_release]
  refine (List.perm_ext_iff_of_nodup (nodup_live _) (List.nodup_cons.mpr ⟨hnot, nodup_live _⟩)).mpr
    fun r => ?_
  simp only [mem_live, holds_release, List.mem_cons] at h ⊢
  grind

theorem live_take_perm (h : pool.lowestFree? = some k) :
    .general k ∉ pool.live ∧ (pool.take k).live.Perm (.general k :: pool.live) := by
  have hperm := live_release_perm (taken_live h)
  rw [release_take h] at hperm
  exact ⟨not_live_of_free h, hperm⟩

theorem length_live_take (h : pool.lowestFree? = some k) :
    (pool.take k).live.length = pool.live.length + 1 :=
  (live_take_perm h).2.length_eq

theorem inUse_eq_length_live (pool : RegisterPool) : pool.inUse = pool.live.length := by
  rw [inUse, live, List.length_map, List.countP_eq_length_filter]

theorem inUse_take (free : pool.lowestFree? = some k) : (pool.take k).inUse = pool.inUse + 1 := by
  rw [inUse_eq_length_live, inUse_eq_length_live, length_live_take free]

theorem inUse_of_none (h : pool.lowestFree? = none) : pool.inUse = generalRegisters := by
  have hall : ∀ n ∈ List.range generalRegisters, pool.holds n = true := by
    simpa [lowestFree?] using h
  rw [inUse, List.countP_eq_length.mpr hall, List.length_range]

theorem inUse_lt_of_free (h : pool.lowestFree? = some k) : pool.inUse < generalRegisters := by
  have hle : (pool.take k).inUse ≤ (List.range generalRegisters).length := List.countP_le_length
  rw [inUse_take h, List.length_range] at hle
  exact hle

theorem inUse_empty : empty.inUse = 0 := by decide

theorem ordered_live (pool : RegisterPool) : pool.live.Pairwise (·.slot < ·.slot) :=
  (List.pairwise_lt_range.filter _).map _ fun _ _ h => Nat.succ_lt_succ h

/-- The registers below the lowest free one are live. -/
theorem live_of_lt_free (h : pool.lowestFree? = some k) (hj : j < k) : .general j ∈ pool.live := by
  have hk := (lowestFree?_spec h).1
  rw [lowestFree?, List.find?_range_eq_some] at h
  exact mem_live.mpr ⟨j, by omega, by simpa using h.2.2 j hj, rfl⟩

end RegisterPool

namespace Emit

variable {s : EmitState}

theorem get_bind {f : EmitState → Emit α} : ((MonadState.get : Emit EmitState) >>= f) s = f s s :=
  rfl

theorem acquire_of_free (h : s.registers.lowestFree? = some k) :
    acquire span s = .ok (.general k) { s with registers := s.registers.take k } := by
  have hacquire : s.registers.acquire = .ok (.general k, s.registers.take k) := by
    rw [RegisterPool.acquire, h]
  rw [acquire, get_bind, hacquire]
  rfl

theorem acquire_of_none (h : s.registers.lowestFree? = none) :
    acquire span s = .error (.raise .registersExhausted span) s := by
  have hacquire : s.registers.acquire = .error .registersExhausted := by
    rw [RegisterPool.acquire, h]
  rw [acquire, get_bind, hacquire]
  rfl

end Emit

/-! ### Requests -/

/-- Somebody takes a register, or the one who holds the `index`-th gives it back. -/
inductive Request
  | acquire
  | release (index : Nat)

structure Loans where
  pool : RegisterPool
  held : List Register

namespace Loans

def serve (s : Loans) : Request → Loans
  | .acquire =>
    match s.pool.acquire with
    | .ok (r, pool) => ⟨pool, r :: s.held⟩
    | .error _ => s
  | .release index =>
    match s.held[index]? with
    | some r => ⟨s.pool.release r, s.held.eraseIdx index⟩
    | none => s

def after (requests : List Request) : Loans := requests.foldl serve ⟨.empty, []⟩

/-- The pool is about the registers held, and what it lends is one of the others. -/
structure Exact (s : Loans) : Prop where
  distinct : s.held.Nodup
  general : ∀ r ∈ s.held, ∃ k < generalRegisters, r = .general k
  mask : ∀ k, s.pool.used.getLsbD k = true ↔ .general k ∈ s.held
  live : s.pool.live.Perm s.held
  ordered : s.pool.live.Pairwise (·.slot < ·.slot)
  inUse : s.pool.inUse = s.held.length
  /-- The lowest register not held is lent while there is one. -/
  lends : s.held.length < generalRegisters →
    ∃ k, .general k ∉ s.held ∧ (∀ j < k, .general j ∈ s.held) ∧
    s.serve .acquire = ⟨s.pool.take k, .general k :: s.held⟩ ∧ ∀ span (state : EmitState),
      Emit.acquire span { state with registers := s.pool } =
      .ok (.general k) { state with registers := s.pool.take k }
  /-- If there is none, nothing changes. -/
  exhausts : generalRegisters ≤ s.held.length → s.serve .acquire = s ∧ ∀ span (state : EmitState),
    Emit.acquire span { state with registers := s.pool } =
      .error (.raise .registersExhausted span) { state with registers := s.pool }

-- Held and live registers are the same up to order. This is all that a request has to keep: a
-- register that is taken joins both of them, and one that is given back leaves both.
theorem perm_serve (s : Loans) (request : Request) (h : s.held.Perm s.pool.live) :
    (s.serve request).held.Perm (s.serve request).pool.live := by
  cases request with
  | acquire =>
    cases hfree : s.pool.lowestFree? with
    | none => simpa [serve, RegisterPool.acquire, hfree] using h
    | some k =>
      simp only [serve, RegisterPool.acquire, hfree]
      exact (h.cons _).trans (RegisterPool.live_take_perm hfree).2.symm
  | release index =>
    rw [serve]
    split
    · next r hr =>
      obtain ⟨hlt, rfl⟩ := List.getElem?_eq_some_iff.mp hr
      have hlive := h.subset (List.getElem_mem hlt)
      obtain ⟨k, -, -, hk⟩ := RegisterPool.mem_live.mp hlive
      rw [hk] at hlive ⊢
      have hheld := List.getElem_cons_eraseIdx_perm hlt
      rw [hk] at hheld
      exact ((hheld.trans h).trans (RegisterPool.live_release_perm hlive)).cons_inv
    · exact h

theorem perm_after (requests : List Request) :
    (after requests).held.Perm (after requests).pool.live := by
  refine List.foldlRecOn requests serve (motive := fun s => s.held.Perm s.pool.live) ?_
    fun s h request _ => ?_
  · decide
  · exact perm_serve s request h

theorem exact_of_perm {s : Loans} (h : s.held.Perm s.pool.live) : s.Exact where
  distinct := h.nodup_iff.mpr s.pool.nodup_live
  general r hr := by
    obtain ⟨k, hk, -, rfl⟩ := RegisterPool.mem_live.mp (h.subset hr)
    exact ⟨k, hk, rfl⟩
  mask k := by
    rw [h.mem_iff, RegisterPool.mem_live]
    constructor
    · intro hbit
      exact ⟨k, BitVec.lt_of_getLsbD hbit, hbit, rfl⟩
    · rintro ⟨j, -, hj, he⟩
      exact Register.general.inj he ▸ hj
  live := h.symm
  ordered := s.pool.ordered_live
  inUse := s.pool.inUse_eq_length_live.trans h.length_eq.symm
  lends hlt := by
    cases hfree : s.pool.lowestFree? with
    | none =>
      have hfull := RegisterPool.inUse_of_none hfree
      rw [RegisterPool.inUse_eq_length_live, ← h.length_eq] at hfull
      omega
    | some k =>
      refine ⟨k, fun hk => RegisterPool.not_live_of_free hfree (h.subset hk),
        fun j hj => h.symm.subset (RegisterPool.live_of_lt_free hfree hj), ?_, fun _ _ =>
          Emit.acquire_of_free hfree⟩
      simp only [serve, RegisterPool.acquire, hfree]
  exhausts hfull := by
    cases hfree : s.pool.lowestFree? with
    | none => exact ⟨by simp only [serve, RegisterPool.acquire, hfree], fun _ _ =>
        Emit.acquire_of_none hfree⟩
    | some k =>
      have hlt := RegisterPool.inUse_lt_of_free hfree
      rw [RegisterPool.inUse_eq_length_live, ← h.length_eq] at hlt
      omega

/-- Whatever was taken and given back, the pool is exact. -/
theorem exact_after (requests : List Request) : (after requests).Exact :=
  exact_of_perm (perm_after requests)

end Loans

end WordScript
