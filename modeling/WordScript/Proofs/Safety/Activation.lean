import WordScript.Proofs.Depth
import WordScript.Proofs.Machine.Templates

/-!
# Activations

What is known while code of a function runs. An `Activation` says where in memory its frame lies.
Code may write to the variables it can name, to the room for its result and above the frame; all
other words that lie above static memory are guarded, among them the return address and everything
of the callers.
-/

namespace WordScript

/-! ### Safe states -/

/-- Failures that a program can run into by dividing, by using up memory or by running on for too
long. -/
def Failure.Tolerable : Failure → Prop
  | invalidAddress .. | divisionByZero _ | stepBudgetExhausted .. => True
  | unknownOpcode .. | truncatedInstruction _ | invalidRegister .. | invalidJump ..
  | noComparison _ => False

theorem Trap.Explains.tolerable (h : Trap.Explains t e) : e.Tolerable := by
  cases t <;> simp only [Trap.Explains] at h
  · obtain ⟨_, rfl⟩ := h
    trivial
  · obtain ⟨_, _, rfl⟩ := h
    trivial

theorem Machine.runFor_succ_of_inr {m : Machine} (h : m.runFor n = .inr r) :
    m.runFor (n + 1) = .inr r := by
  induction n generalizing m with
  | zero => cases h
  | succ n ih =>
    rw [runFor] at h ⊢
    cases hstep : step m with
    | ok status m' =>
      cases status with
      | running =>
        simp only [hstep] at h ⊢
        exact ih h
      | halted => simpa only [hstep] using h
    | error e m' => simpa only [hstep] using h

namespace Image

variable {img : Image}

/-- Nothing worse than a tolerable failure happens in the next `n` steps. -/
def Safe (img : Image) (n : Nat) (x : State) : Prop :=
  ∀ m : Machine, m.Shows img x → ∀ e, m.runFor n = .inr (.error e) → e.Tolerable

theorem Safe.zero : img.Safe 0 x := by
  intro m _ e h
  cases h

theorem Safe.pred (h : img.Safe (n + 1) x) : img.Safe n x :=
  fun m hm e he => h m hm e (Machine.runFor_succ_of_inr he)

theorem Safe.mono (h : img.Safe n x) (hk : k ≤ n) : img.Safe k x := by
  induction n with
  | zero => exact Nat.le_zero.mp hk ▸ h
  | succ n ih =>
    rcases Nat.le_succ_iff.mp hk with hle | rfl
    · exact ih h.pred hle
    · exact h

theorem Safe.step (hp : img.Proper) (hs : img.Step x y) (h : img.Safe n y) :
    img.Safe (n + 1) x := by
  intro m hm e he
  rw [Machine.runFor] at he
  rcases hm.step hp hs with ⟨budget, -, hstep⟩ | ⟨m', hstep, hm', -⟩
  · simp only [hstep, Sum.inr.injEq, Except.error.injEq] at he
    subst he
    trivial
  · simp only [hstep] at he
    exact h m' hm' e he

theorem Safe.trap (hp : img.Proper) (ht : img.Traps x t) : img.Safe n x := by
  refine Safe.pred fun m hm e he => ?_
  rw [Machine.runFor] at he
  rcases hm.trap hp ht with ⟨budget, -, hstep⟩ | ⟨e', m', hstep, hexplains⟩
  · simp only [hstep, Sum.inr.injEq, Except.error.injEq] at he
    subst he
    trivial
  · simp only [hstep, Sum.inr.injEq, Except.error.injEq] at he
    subst he
    exact hexplains.tolerable

theorem Safe.halt (hp : img.Proper) (hh : img.Halts x) : img.Safe n x := by
  refine Safe.pred fun m hm e he => ?_
  rw [Machine.runFor] at he
  rcases hm.halt hp hh with ⟨budget, -, hstep⟩ | ⟨m', x', hstep, -⟩
  · simp only [hstep, Sum.inr.injEq, Except.error.injEq] at he
    subst he
    trivial
  · simp [hstep] at he

theorem Proper.safe (hp : img.Proper) (n : Nat) : img.Closed (fun _ => True) (img.Safe n) where
  step _ _ hs h := (Safe.step hp hs h).pred
  trap _ _ ht _ := Safe.trap hp ht

end Image

theorem RegisterPool.slot_lt_of_live {pool : RegisterPool} (h : r ∈ pool.live) :
    r.slot < registerCount := by
  obtain ⟨k, hk, rfl⟩ := List.mem_map.mp h
  have hlt := List.mem_range.mp (List.mem_filter.mp hk).1
  exact Nat.succ_lt_succ hlt

theorem RegisterPool.slot_lt_of_free {pool : RegisterPool} (h : pool.lowestFree? = some k) :
    (Register.general k).slot < registerCount := slot_lt_of_live (taken_live h)

/-! ### Frames in memory -/

/-- Where a variable may be kept: in static memory if `static` allows for its label, between the
return slot and the return address, or in the frame below `top`. -/
def Variable.Fits (structs : Structs) (static : Label → Nat → Prop) (low top : Int) (v : Variable) :
    Prop :=
  match v.storage with
  | .static l => static l (structs.words v.type)
  | .frame position => (low ≤ position ∧ position + structs.words v.type ≤ -1) ∨
      (0 ≤ position ∧ position + structs.words v.type ≤ top)

def Frame.Fits (structs : Structs) (static : Label → Nat → Prop) (low top : Int) (f : Frame) :
    Prop :=
  ∀ scope ∈ f.scopes, ∀ entry ∈ scope.entries, entry.2.Fits structs static low top

namespace Frame

variable {f g : Frame} {structs : Structs} {static : Label → Nat → Prop} {low top : Int}

theorem Fits.find? (h : f.Fits structs static low top) (hv : f.find? name = some v) :
    v.Fits structs static low top := by
  obtain ⟨scope, hscope, hentry⟩ := List.exists_of_findSome?_eq_some hv
  obtain ⟨_, _, hsplit, -⟩ := List.lookup_eq_some_iff.mp hentry
  exact h scope hscope (name, v) (by simp [hsplit])

theorem Fits.enter (h : f.Fits structs static low top) : f.enter.Fits structs static low top := by
  intro scope hscope entry hentry
  rcases List.mem_cons.mp hscope with rfl | hscope
  · cases hentry
  · exact h scope hscope entry hentry

theorem Fits.mono (h : f.Fits structs static low top) (hle : top ≤ top') :
    f.Fits structs static low top' := by
  intro scope hscope entry hentry
  have := h scope hscope entry hentry
  simp only [Variable.Fits] at this ⊢
  split at this
  · exact this
  · omega

end Frame

/-- Where the frame of a running function lies: above `statics` words of static memory, with `sp` at
`base` on entry and the return slot `low` words from there. -/
structure Activation where
  statics : Nat
  base : Int
  low : Int
  low_nonpos : low ≤ 0
  above : statics ≤ base + low
  small : base ≤ 2 ^ 30

namespace Activation

open Emit (live_ne_sp)

variable (act : Activation)

/-- `n` words at this address belong to static memory or to variables of the frame. -/
def Owns (top address : Int) (n : Nat) : Prop :=
  (0 ≤ address ∧ address + n ≤ act.statics) ∨
    (act.base + act.low ≤ address ∧ address + n ≤ act.base - 1) ∨
    (act.base ≤ address ∧ address + n ≤ act.base + top)

/-- Words that code at this depth must not change, with variables up to `top`. -/
def Guards (top depth address : Int) : Prop :=
  act.statics ≤ address ∧ (address < act.base + act.low ∨ address = act.base - 1 ∨
    (act.base + top ≤ address ∧ address < act.base + depth))

variable {act : Activation} {top depth : Int} {pool : RegisterPool} {s s₁ s₂ : Store} {m n : Nat}

theorem Owns.guards (h : act.Owns top address n) (hg : act.Guards top depth a)
    (htop : 0 ≤ top ∧ top ≤ depth) : a < address ∨ address + n ≤ a := by
  have := act.above
  have := act.low_nonpos
  simp only [Owns, Guards] at h hg
  omega

theorem Owns.addressable (h : act.Owns top address n) (htop : top ≤ 2 ^ 30) :
    0 ≤ address ∧ address + n ≤ 2 ^ 31 := by
  have := act.above
  have := act.low_nonpos
  have := act.small
  simp only [Owns] at h
  omega

theorem Owns.part (h : act.Owns top address n) (hm : offset + m ≤ n) :
    act.Owns top (address + offset) m := by
  simp only [Owns] at h ⊢
  omega

theorem Guards.push (h : act.Guards top depth a) : act.Guards top (depth + n) a := by
  simp only [Guards] at h ⊢
  omega

structure Room (top depth : Int) (n : Nat) : Prop where
  nonneg : 0 ≤ top
  le : top ≤ depth
  small : depth + n ≤ 2 ^ 30

theorem Room.mono (h : Room top depth n) (hm : m ≤ n) : Room top depth m :=
  ⟨h.nonneg, h.le, by have := h.small; omega⟩

theorem Room.push (h : Room top depth n) (hm : m + k ≤ n) : Room top (depth + m) k :=
  ⟨h.nonneg, by have := h.le; omega, by have := h.small; omega⟩

theorem Room.addresses (h : Room top depth n) (act : Activation) :
    0 ≤ act.base + depth ∧ act.base + depth + n ≤ 2 ^ 31 := by
  have := act.above
  have := act.low_nonpos
  have := act.small
  have := h.nonneg
  have := h.le
  have := h.small
  omega

theorem Room.addressable (h : Room top depth n) (act : Activation) (hn : 1 ≤ n) :
    Addressable (act.base + depth) := by
  have := h.addresses act
  exact ⟨by omega, by omega⟩

/-- Code for `n` words, started at this depth with these registers taken, has left them on the
stack. -/
structure Evaluated (act : Activation) (top depth : Int) (pool : RegisterPool) (n : Nat)
    (s s' : Store) : Prop where
  sp : s'.registers .sp = .ofInt (act.base + depth + n)
  live : ∀ r ∈ pool.live, s'.registers r = s.registers r
  kept : ∀ a, act.Guards top depth a → s'.memory a = s.memory a

namespace Evaluated

theorem refl (hsp : s.registers .sp = .ofInt (act.base + depth)) :
    act.Evaluated top depth pool 0 s s where
  sp := by rw [hsp, Int.natCast_zero, Int.add_zero]
  live _ _ := rfl
  kept _ _ := rfl

theorem trans (h₁ : act.Evaluated top depth pool m s s₁)
    (h₂ : act.Evaluated top (depth + m) pool n s₁ s₂) :
    act.Evaluated top depth pool (m + n) s s₂ where
  sp := by
    rw [h₂.sp]
    congr 1
    omega
  live r hr := (h₂.live r hr).trans (h₁.live r hr)
  kept a ha := (h₂.kept a ha.push).trans (h₁.kept a ha)

theorem fewer (h : act.Evaluated top depth pool' n s s') (hlive : ∀ r ∈ pool.live, r ∈ pool'.live) :
    act.Evaluated top depth pool n s s' where
  sp := h.sp
  live r hr := h.live r (hlive r hr)
  kept := h.kept

theorem pushes (h₁ : act.Evaluated top depth pool m s s₁)
    (h₂ : s₁.Pushes s₂ (act.base + depth) n used) (hfree : ∀ r ∈ used, r ∉ pool.live)
    (htop : 0 ≤ top ∧ top ≤ depth) : act.Evaluated top depth pool n s s₂ where
  sp := h₂.sp
  live r hr := by
    rw [h₂.registers r (live_ne_sp hr) (fun hused => hfree r hused hr), h₁.live r hr]
  kept a ha := by
    rw [h₂.memory a ?_, h₁.kept a ha]
    have := act.low_nonpos
    simp only [Guards] at ha
    omega

theorem writes (h₁ : act.Evaluated top depth pool n s s₁)
    (hsp : s₂.registers .sp = s₁.registers .sp)
    (hlive : ∀ r ∈ pool.live, s₂.registers r = s₁.registers r) (howns : act.Owns top address m)
    (hmem : ∀ a, a < act.base + depth → a < address ∨ address + m ≤ a → s₂.memory a = s₁.memory a)
    (htop : 0 ≤ top ∧ top ≤ depth) : act.Evaluated top depth pool n s s₂ where
  sp := hsp.trans h₁.sp
  live r hr := (hlive r hr).trans (h₁.live r hr)
  kept a ha := by
    rw [hmem a ?_ (howns.guards ha htop), h₁.kept a ha]
    have := act.low_nonpos
    simp only [Guards] at ha
    omega

end Evaluated

/-- In a call: the registers are saved from this depth on, nothing guarded has changed, and `sp` is
at `z`. -/
structure Calling (act : Activation) (top depth : Int) (pool : RegisterPool) (s : Store) (z : Int)
    (s' : Store) :
    Prop where
  sp : s'.registers .sp = .ofInt z
  saved : Saved s'.memory (act.base + depth) pool.live s.registers
  kept : ∀ a, act.Guards top depth a → s'.memory a = s.memory a

namespace Calling

theorem cast (h : act.Calling top depth pool s z s') (hz : z = z') :
    act.Calling top depth pool s z' s' := hz ▸ h

theorem next (h : act.Calling top depth pool s z s₁) (hsp : s₂.registers .sp = .ofInt z')
    (hmem : ∀ a, act.Guards top (depth + pool.live.length) a → s₂.memory a = s₁.memory a)
    (htop : 0 ≤ top ∧ top ≤ depth) : act.Calling top depth pool s z' s₂ where
  sp := hsp
  saved i r hi := by
    rw [hmem, h.saved i r hi]
    have := (List.getElem?_eq_some_iff.mp hi).1
    have := act.above
    have := act.low_nonpos
    simp only [Guards]
    omega
  kept a ha := by rw [hmem a ha.push, h.kept a ha]

theorem evaluated (h : act.Calling top depth pool s (act.base + depth') s₁)
    (h' : act.Evaluated top depth' pool n s₁ s₂) (hle : depth + pool.live.length ≤ depth')
    (htop : 0 ≤ top ∧ top ≤ depth) : act.Calling top depth pool s (act.base + depth' + n) s₂ := by
  refine h.next h'.sp (fun a ha => h'.kept a ?_) htop
  simp only [Guards] at ha ⊢
  omega

end Calling

end Activation

end WordScript
