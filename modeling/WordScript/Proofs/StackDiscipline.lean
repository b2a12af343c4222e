import WordScript.Proofs.Flows
import WordScript.Proofs.Names

/-!
# Stack discipline

Generated code moves `sp` on every path by what the frame says: by the words of its value for an
expression, by the words of its variable for a declaration, and not at all for a place or any other
statement. Wherever the code of a function jumps to an address in a register, it returns: it has
copied the result to the return slot and taken the return address from below its frame, and both
were found by how far `sp` had moved since entry (`Returning`). This holds at any nesting of blocks,
branches and loops.
-/

namespace WordScript

open Assembly (shift?)

/-! ### Code that does not return -/

/-- Code that has all its labels and no jump to an address in a register. -/
structure Inner (n n' : Nat) (code : Assembly) : Prop where
  mono : n ≤ n'
  labels : ∀ k, n ≤ k → k < n' → .label (.code k) ∈ code
  stays : ∀ r note, .instruction (.jmp (.register r)) note ∉ code

namespace Inner

theorem append (ha : Inner n n₁ a) (hb : Inner n₁ n₂ b) : Inner n n₂ (a ++ b) where
  mono := Nat.le_trans ha.mono hb.mono
  labels k hk hk' := by
    rcases Nat.lt_or_ge k n₁ with h | h
    · exact List.mem_append_left _ (ha.labels k hk h)
    · exact List.mem_append_right _ (hb.labels k h hk')
  stays r note h := (List.mem_append.mp h).elim (ha.stays r note) (hb.stays r note)

theorem straight (h : shift? code = some w) : Inner n n code where
  mono := Nat.le_refl n
  labels k hk hk' := by omega
  stays r note hmem := by
    induction code generalizing w with
    | nil => cases hmem
    | cons item code ih =>
      simp only [Assembly.shift?_cons, Option.bind_eq_some_iff, Option.map_eq_some_iff] at h
      obtain ⟨w₁, h₁, w₂, h₂, -⟩ := h
      rcases List.mem_cons.mp hmem with rfl | hmem
      · cases h₁
      · exact ih h₂ hmem

end Inner

namespace Emit

theorem inner_relationCode (relation : Relation) (n : Nat) :
    Inner n (n + 2) (relationCode relation (.code n) (.code (n + 1))) where
  mono := by omega
  labels k hk hk' := by
    obtain rfl | rfl : k = n ∨ k = n + 1 := by omega
    · simp [relationCode]
    · simp [relationCode]
  stays r note := by simp [relationCode, line, labelled, increase]

theorem inner_enterCode (n : Nat) (f : FunctionName) : Inner n (n + 1) (enterCode (.code n) f) where
  mono := by omega
  labels k hk hk' := by
    obtain rfl : k = n := by omega
    simp [enterCode]
  stays r note := by simp [enterCode, line, noted, labelled, increase]

theorem inner_testCode (k : Nat) (type : ValueType) (relation : Relation) (l : Label) :
    Inner n n (testCode (.general k) type relation l) where
  mono := Nat.le_refl n
  labels k hk hk' := by omega
  stays r note := by simp [testCode, popCode, line, zeroTest, decrease]

theorem inner_logicCode (hl : Inner (n + 2) n₁ left) (hr : Inner n₁ n₂ right) (k : Nat)
    (a b : ValueType) (op : LogicOp) :
    Inner n n₂ (left ++ testCode (.general k) a (deciding op) (.code n) ++
      (right ++ testCode (.general k) b (deciding op) (.code n)) ++ logicCode op (.code n)
      (.code (n + 1))) := by
  have hparts := (hl.append (inner_testCode k a (deciding op) (.code n))).append
    (hr.append (inner_testCode k b (deciding op) (.code n)))
  have hmono := hparts.mono
  refine ⟨by omega, fun j hj hj' => ?_, fun r note h => ?_⟩
  · by_cases hlow : j < n + 2
    · refine List.mem_append_right _ ?_
      obtain rfl | rfl : j = n ∨ j = n + 1 := by omega
      · simp [logicCode]
      · simp [logicCode]
    · exact List.mem_append_left _ (hparts.labels j (by omega) hj')
  · rcases List.mem_append.mp h with h | h
    · exact hparts.stays r note h
    · simp [logicCode, line, labelled, increase] at h

/-- Code for expressions does not return. -/
theorem Composed.inner (h : Composed n n' code w) : Inner n n' code := by
  induction h with
  | straight h => exact .straight h
  | append _ _ iha ihb => exact iha.append ihb
  | relation => exact inner_relationCode _ _
  | logic _ _ ihl ihr => exact inner_logicCode ihl ihr _ _ _ _
  | enter => exact inner_enterCode _ _

end Emit

/-! ### Code that returns -/

namespace Emit

def unwindCode (depth : Int) (address : Register) : Assembly :=
  [line (.mov address (.register .sp)), line (decrease address (word (.ofInt (depth + 1)))),
    line (.memRead address address), line (decrease .sp (word (.ofInt (depth + 1))))]

theorem leaveCode_eq (depth : Int) (address : Register) :
    leaveCode depth address = unwindCode depth address ++ [line (.jmp (.register address))] := rfl

def returnCode (slot depth : Int) (words k source : Nat) : Assembly :=
  resultCode (slot - depth) words (.general k) (.general source) ++ unwindCode depth (.general k)

theorem shift?_returnCode (slot depth : Int) (words k source : Nat) :
    shift? (returnCode slot depth words k source) = some (-.ofInt (depth + 1)) := by
  have hunwind : shift? (unwindCode depth (.general k)) = some (-.ofInt (depth + 1)) := by
    simp [unwindCode, line, decrease, word]
  rw [returnCode, Assembly.shift?_append (shift?_resultCode _ _ _ _) hunwind, Int32.zero_add]

end Emit

/-- In front of a jump to the address in a register: a result of `words` words has been pushed, and
what follows takes `sp` to be as many words above the entry as it is. -/
inductive Leaves (slot : Int) (words : Nat) (entry : Word) (flows : Assembly → Word → Prop) :
    Assembly → Register → Prop
  | mk {depth : Int} (pushed : flows before (entry + .ofInt depth))
      (apart : words ≠ 0 → k ≠ source) :
      Leaves slot words entry flows (before ++ Emit.returnCode slot depth words k source)
        (.general k)

/-- `Flows`, where all jumps to an address in a register leave the function. -/
structure Returning (slot : Int) (words : Nat) (entry : Word) (lo hi : Nat)
    (depth : Nat → Word) (d : Word)
    (code : Assembly) (d' : Word) : Prop where
  flows : Flows lo hi depth d code d'
  leaves : ∀ front r note after, code = front ++ .instruction (.jmp (.register r)) note :: after →
    Leaves slot words entry (Flows lo hi depth d) front r

namespace Returning

variable {slot : Int} {words : Nat} {entry d d' d₁ : Word} {lo hi lo' hi' : Nat}
  {depth depth' : Nat → Word} {code a b : Assembly}

theorem of_stays (flows : Flows lo hi depth d code d')
    (stays : ∀ r note, .instruction (.jmp (.register r)) note ∉ code) :
    Returning slot words entry lo hi depth d code d' where
  flows := flows
  leaves front r note after he := absurd (he ▸ by simp) (stays r note)

theorem transfer (h : Returning slot words entry lo hi depth d code d') (hlo : lo' ≤ lo)
    (hhi : hi ≤ hi') (he : ∀ k, lo ≤ k → k < hi → depth' k = depth k) :
    Returning slot words entry lo' hi' depth' d code d' where
  flows := h.flows.transfer hlo hhi he
  leaves front r note after heq := by
    obtain ⟨pushed, apart⟩ := h.leaves front r note after heq
    exact ⟨pushed.transfer hlo hhi he, apart⟩

theorem append (ha : Returning slot words entry lo hi depth d a d₁)
    (hb : Returning slot words entry lo hi depth d₁ b d') :
    Returning slot words entry lo hi depth d (a ++ b) d' where
  flows := ha.flows.append hb.flows
  leaves front r note after he := by
    have inRight : ∀ rest, b = rest ++ .instruction (.jmp (.register r)) note :: after →
        Leaves slot words entry (Flows lo hi depth d) (a ++ rest) r := by
      intro rest hrest
      obtain ⟨pushed, apart⟩ := hb.leaves rest r note after hrest
      rw [← List.append_assoc]
      exact ⟨ha.flows.append pushed, apart⟩
    rcases List.append_eq_append_iff.mp he with ⟨rest, rfl, hrest⟩ | ⟨rest, hfront, hrest⟩
    · exact inRight rest hrest
    · cases rest with
      | nil => simpa [hfront] using inRight [] (by simpa using hrest.symm)
      | cons item rest =>
        obtain ⟨rfl, -⟩ := List.cons.inj hrest
        exact ha.leaves front r note rest hfront

end Returning

structure Returns (slot : Int) (words : Nat) (above : Int) (n n' : Nat) (code : Assembly)
    (w : Word) : Prop where
  mono : n ≤ n'
  labels : ∀ k, n ≤ k → k < n' → .label (.code k) ∈ code
  returning : ∀ d, ∃ depth, Returning slot words (d - .ofInt above) n n' depth d code (d + w)

namespace Returns

variable {slot : Int} {words : Nat} {above above' : Int} {code a b : Assembly}

theorem of_composed (h : Emit.Composed n n' code w) : Returns slot words above n n' code w where
  mono := h.inner.mono
  labels := h.inner.labels
  returning d := by
    obtain ⟨depth, hflow⟩ := h.moves.2 d
    exact ⟨depth, .of_stays hflow h.inner.stays⟩

theorem straight (h : shift? code = some w) : Returns slot words above n n code w :=
  of_composed (.straight h)

theorem append (ha : Returns slot words above n n₁ a (.ofInt (above' - above)))
    (hb : Returns slot words above' n₁ n₂ b w) :
    Returns slot words above n n₂ (a ++ b) (.ofInt (above' - above) + w) where
  mono := Nat.le_trans ha.mono hb.mono
  labels k hk hk' := by
    rcases Nat.lt_or_ge k n₁ with h | h
    · exact List.mem_append_left _ (ha.labels k hk h)
    · exact List.mem_append_right _ (hb.labels k h hk')
  returning d := by
    have hmonoA := ha.mono
    have hmonoB := hb.mono
    obtain ⟨depthA, hA⟩ := ha.returning d
    obtain ⟨depthB, hB⟩ := hb.returning (d + .ofInt (above' - above))
    have hentry : d + .ofInt (above' - above) - .ofInt above' = d - .ofInt above := by
      rw [Int32.ofInt_sub]
      grind
    rw [hentry, Int32.add_assoc] at hB
    exact ⟨fun k => if k < n₁ then depthA k else depthB k,
      (hA.transfer (by omega) hmonoB (by grind)).append
      (hB.transfer hmonoA (by omega) (by grind))⟩

theorem cast (h : Returns slot words above n n' code w) (hw : w = w') :
    Returns slot words above n n' code w' := hw ▸ h

end Returns

/-! ### Code of functions -/

namespace Emit

variable {slot : Int} {words : Nat} {above : Int}

theorem returns_ifThen (ht : Composed (n + 1) n₁ testing 1)
    (hy : Returns slot words above n₁ n₂ yes 0) (k : Nat)
    (type : ValueType) : Returns slot words above n n₂
      (testing ++ testCode (.general k) type .equal (.code n) ++ yes ++ [.label (.code n)]) 0 := by
  have hi := ht.inner
  have h₁ := hi.mono
  have h₂ := hy.mono
  refine ⟨by omega, fun j hj hj' => ?_, fun d => ?_⟩
  · simp only [List.mem_append, List.mem_singleton, Item.label.injEq]
    rcases Nat.eq_or_lt_of_le hj with rfl | hj
    · exact .inr rfl
    · rcases Nat.lt_or_ge j n₁ with hlt | hge
      · exact .inl (.inl (.inl (hi.labels j hj hlt)))
      · exact .inl (.inr (hy.labels j hge hj'))
  · obtain ⟨depthTest, ht⟩ := ht.moves.2 d
    obtain ⟨depthYes, hy⟩ := hy.returning d
    rw [Int32.add_zero] at hy ⊢
    let depth : Nat → Word := fun j => if j = n then d else if j < n₁ then depthTest j
      else depthYes j
    have hn : depth n = d := by simp [depth]
    refine ⟨depth, .append (.append
      (.append (.of_stays (ht.transfer (by omega) (by omega) (by grind)) hi.stays)
      (.of_stays (flows_testCode hn (by omega) (by omega) _ _ _)
        (inner_testCode (n := n) _ _ _ _).stays))
      (hy.transfer (by omega) (by omega) (by grind)))
      (.of_stays (.single (.label_of hn (by omega) (by omega))) (by simp))⟩

theorem returns_ifThenElse (ht : Composed (n + 1) n₁ testing 1)
    (hy : Returns slot words above n₁ n₂ yes 0)
    (hn : Returns slot words above (n₂ + 1) n₃ no 0) (k : Nat) (type : ValueType) :
    Returns slot words above n n₃ (testing ++ testCode (.general k) type .equal (.code n) ++ yes ++
      line (.jmp (labelled (.code n₂))) :: .label (.code n) :: no ++ [.label (.code n₂)]) 0 := by
  have hi := ht.inner
  have h₁ := hi.mono
  have h₂ := hy.mono
  have h₃ := hn.mono
  refine ⟨by omega, fun j hj hj' => ?_, fun d => ?_⟩
  · simp only [List.mem_append, List.mem_cons, List.not_mem_nil, or_false, Item.label.injEq]
    rcases Nat.eq_or_lt_of_le hj with rfl | hj
    · exact .inl (.inr (.inr (.inl rfl)))
    · rcases Nat.lt_or_ge j n₁ with hlt | hge
      · exact .inl (.inl (.inl (.inl (hi.labels j hj hlt))))
      · rcases Nat.lt_or_ge j n₂ with hlt | hge₂
        · exact .inl (.inl (.inr (hy.labels j hge hlt)))
        · rcases Nat.eq_or_lt_of_le hge₂ with rfl | hgt
          · exact .inr rfl
          · exact .inl (.inr (.inr (.inr (hn.labels j hgt hj'))))
  · obtain ⟨depthTest, ht⟩ := ht.moves.2 d
    obtain ⟨depthYes, hy⟩ := hy.returning d
    obtain ⟨depthNo, hn⟩ := hn.returning d
    rw [Int32.add_zero] at hy hn ⊢
    let depth : Nat → Word := fun j => if j = n ∨ j = n₂ then d else if j < n₁ then depthTest j
      else if j < n₂ then depthYes j else depthNo j
    have hother : depth n = d := by simp [depth]
    have hdone : depth n₂ = d := by simp [depth]
    have hjump : Flows n n₃ depth d [line (.jmp (labelled (.code n₂))), .label (.code n)] d :=
      .cons (.jump_of hdone (by omega) (by omega))
        (.single (.label_of hother (by omega) (by omega)))
    have hall := Returning.append (.append (.append (.append (.append
      (.of_stays (ht.transfer (by omega) (by omega) (by grind)) hi.stays)
      (.of_stays (flows_testCode hother (by omega) (by omega) k type .equal)
        (inner_testCode (n := n) _ _ _ _).stays))
      (hy.transfer (by omega) (by omega) (by grind)))
      (.of_stays hjump (by simp [line, labelled])))
      (hn.transfer (by omega) (by omega) (by grind)))
      (.of_stays (.single (.label_of hdone (by omega) (by omega))) (by simp))
    exact ⟨depth, by simpa using hall⟩

theorem returns_loop (ht : Composed (n + 2) n₁ testing 1)
    (hb : Returns slot words above n₁ n₂ looped 0) (k : Nat) (type : ValueType) :
    Returns slot words above n n₂
    (.label (.code n) :: (testing ++ testCode (.general k) type .equal (.code (n + 1)) ++
      looped ++ [line (.jmp (labelled (.code n))), .label (.code (n + 1))])) 0 := by
  have hi := ht.inner
  have h₁ := hi.mono
  have h₂ := hb.mono
  refine ⟨by omega, fun j hj hj' => ?_, fun d => ?_⟩
  · simp only [List.mem_append, List.mem_cons, List.not_mem_nil, or_false, Item.label.injEq]
    rcases Nat.eq_or_lt_of_le hj with rfl | hj
    · exact .inl rfl
    · rcases Nat.eq_or_lt_of_le hj with rfl | hj
      · exact .inr (.inr (.inr rfl))
      · rcases Nat.lt_or_ge j n₁ with hlt | hge
        · exact .inr (.inl (.inl (.inl (hi.labels j hj hlt))))
        · exact .inr (.inl (.inr (hb.labels j hge hj')))
  · obtain ⟨depthTest, ht⟩ := ht.moves.2 d
    obtain ⟨depthBody, hb⟩ := hb.returning d
    rw [Int32.add_zero] at hb ⊢
    let depth : Nat → Word := fun j => if j < n + 2 then d else if j < n₁ then depthTest j
      else depthBody j
    have hstart : depth n = d := by simp [depth]
    have hdone : depth (n + 1) = d := by simp [depth]
    have hback : Flows n n₂ depth d [line (.jmp (labelled (.code n))), .label (.code (n + 1))] d :=
      .cons (.jump_of hstart (by omega) (by omega))
        (.single (.label_of hdone (by omega) (by omega)))
    have hall :=
      Returning.append (.of_stays (.single (.label_of hstart (by omega) (by omega))) (by simp))
      (.append (.append (.append (.of_stays (ht.transfer (by omega) (by omega) (by grind)) hi.stays)
      (.of_stays (flows_testCode hdone (by omega) (by omega) k type .equal)
        (inner_testCode (n := n) _ _ _ _).stays))
      (hb.transfer (by omega) (by omega) (by grind))) (.of_stays hback (by simp [line, labelled])))
    exact ⟨depth, by simpa using hall⟩

theorem depth_declare {frame : Frame}
    (h : Frame.declare (frame.push words) structs name type = .ok frame') :
    frame'.depth - frame.depth = words := by
  obtain ⟨_, _, _, rfl⟩ := Frame.declare_eq_ok h
  simp only [Frame.depth_push]
  omega

theorem depth_leave {frame frame₁ : Frame} (h : frame₁.leave = (words, frame)) :
    frame₁.depth - frame.enter.depth = words := by
  simp only [Frame.leave] at h
  split at h
  · simp only [Prod.mk.injEq] at h
    obtain ⟨rfl, rfl⟩ := h
    simp [Frame.enter]
  · simp only [Prod.mk.injEq] at h
    obtain ⟨rfl, rfl⟩ := h
    simp only [Frame.enter]
    omega

theorem EmitsCode.returnSlot (h : EmitsCode c pool frame n b code frame' n') :
    frame'.returnSlot = frame.returnSlot := by
  induction h with
  | declare resolved value accepted same declared =>
    obtain ⟨_, _, _, rfl⟩ := Frame.declare_eq_ok declared
    rfl
  | declareZero resolved declared =>
    obtain ⟨_, _, _, rfl⟩ := Frame.declare_eq_ok declared
    rfl
  | cons first rest ihf ihr => exact ihr.trans ihf
  | _ => rfl

/-- Behind code that control does not get past, `sp` may be anywhere. -/
theorem returns_halt (result : Composed n n' code v) :
    Returns slot words above n n' (code ++ [line .halt]) w where
  mono := result.inner.mono
  labels k hk hk' := List.mem_append_left _ (result.inner.labels k hk hk')
  returning d := by
    obtain ⟨depth, hflow⟩ := result.moves.2 d
    exact ⟨depth, .append (.of_stays hflow result.inner.stays)
      (.of_stays (.single .halt) (by simp [line]))⟩

theorem returns_leaveCode (result : Composed n n' code (.ofNat words))
    (apart : words ≠ 0 → k ≠ source) :
    Returns slot words above n n' (code ++ resultCode (slot - (above + words)) words (.general k)
      (.general source) ++
      leaveCode (above + words) (.general k)) w := by
  have hcode : code ++ resultCode (slot - (above + words)) words (.general k) (.general source) ++
      leaveCode (above + words) (.general k) =
      code ++ returnCode slot (above + words) words k source ++
      [line (.jmp (.register (.general k)))] := by
    simp [returnCode, leaveCode_eq]
  rw [hcode]
  have inner := result.inner
  refine ⟨inner.mono, fun j hj hj' => by simp [inner.labels j hj hj'], fun d => ?_⟩
  obtain ⟨depth, hflow⟩ := result.moves.2 d
  have hfront :=
    hflow.append (Assembly.flows_of_shift? (shift?_returnCode slot (above + words) words k source)
      _)
  refine ⟨depth, hfront.append (.single .leave), fun front r note after he => ?_⟩
  have hstays :=
    (inner.append (.straight (shift?_returnCode slot (above + words) words k source))).stays
  have hleaves : Leaves slot words (d - .ofInt above) (Flows n n' depth d)
      (code ++ returnCode slot (above + words) words k source) (.general k) := by
    refine ⟨?_, apart⟩
    have hlevel : d - .ofInt above + .ofInt (above + words) = d + .ofNat words := by
      rw [Int32.ofInt_add, Int32.ofInt_eq_ofNat]
      grind
    rwa [hlevel]
  rcases List.append_eq_append_iff.mp he with ⟨rest, rfl, hrest⟩ | ⟨rest, hfront, hrest⟩
  · rcases List.singleton_eq_append_iff.mp hrest with ⟨rfl, hline⟩ | ⟨-, hline⟩
    · cases hline
      simpa using hleaves
    · cases hline
  · cases rest with
    | nil =>
      cases hrest
      simpa [hfront] using hleaves
    | cons item rest =>
      obtain ⟨rfl, -⟩ := List.cons.inj hrest
      exact absurd (hfront ▸ by simp) (hstays r note)

/-- Code for statements moves `sp` as far as the frame grows, and returns as the frame says, if it
returns at all. -/
theorem EmitsCode.returns (h : EmitsCode c pool frame n b code frame' n')
    (inside : ∀ type, c.returns = some type → words = c.structs.words type)
    (position : ∀ slot', frame.returnSlot = some slot' → slot = slot') :
    Returns slot words frame.depth n n' code (.ofInt (frame'.depth - frame.depth)) := by
  induction h with
  | stop result => exact returns_halt result.composed
  | @ret frame n value type code n' expected k span slot' words' source result inside' accepted size
      same position' free
      freeSource =>
    obtain rfl : words' = words := size.trans (inside expected inside').symm
    have hreturns : Returns slot words' frame.depth n n' _ (.ofInt (frame.depth - frame.depth)) :=
      returns_leaveCode (result.composed.cast (congrArg Int32.ofNat same.symm)) fun h =>
        RegisterPool.ne_of_free_take free (freeSource h)
    by_cases h : words' = 0
    · simpa [resultCode, h] using hreturns
    · obtain rfl := position slot' (position' h)
      exact hreturns
  | expression value =>
    exact .of_composed ((value.composed.append (.straight (shift?_lowerSp _))).cast
      (by simp [Piece.words, Int32.add_right_neg]))
  | declare resolved value accepted same declared =>
    exact .of_composed (value.composed.cast
      (by rw [depth_declare declared, Int32.ofInt_eq_ofNat]; simp [Piece.words, same]))
  | declareZero resolved declared =>
    exact (Returns.straight (shift?_zerosCode _)).cast
      (by rw [depth_declare declared, Int32.ofInt_eq_ofNat])
  | block body left ih =>
    exact ((ih position).append (.straight (shift?_dropCode _ _))).cast
      (by rw [depth_leave left, Int32.ofInt_eq_ofNat]; simp [Int32.add_right_neg])
  | ifThen test single free yes ih =>
    exact (returns_ifThen (test.composed.cast (by simp [Piece.words, single]))
      ((ih position).cast (by simp)) _
      _).cast (by simp)
  | ifThenElse test single free yes no ihy ihn =>
    exact (returns_ifThenElse (test.composed.cast (by simp [Piece.words, single]))
      ((ihy position).cast (by simp))
      ((ihn position).cast (by simp)) _ _).cast (by simp)
  | loop test single free body ih =>
    exact (returns_loop (test.composed.cast (by simp [Piece.words, single]))
      ((ih position).cast (by simp)) _
      _).cast (by simp)
  | nil => exact (Returns.straight rfl).cast (by simp)
  | cons first rest ihf ihr =>
    exact ((ihf position).append (ihr (first.returnSlot ▸ position))).cast
      (by rw [← Int32.ofInt_add]; congr 1; omega)
  | bodyBlock block ih => exact ih position
  | bodyScoped single inner left ih =>
    exact ((ih position).append (.straight (shift?_dropCode _ _))).cast
      (by rw [depth_leave left, Int32.ofInt_eq_ofNat]; simp [Int32.add_right_neg])

theorem EmitsCode.moves (h : EmitsCode c pool frame n b code frame' n') :
    Moves n n' code (.ofInt (frame'.depth - frame.depth)) := by
  have hreturns : Returns (frame.returnSlot.getD 0) ((c.returns.map c.structs.words).getD 0)
      frame.depth n n' code _ :=
    h.returns (fun type htype => by rw [htype]; rfl) fun slot hslot => by rw [hslot]; rfl
  exact ⟨hreturns.mono, fun d => (hreturns.returning d).imp fun _ => Returning.flows⟩

end Emit

/-! ### Generated code -/

structure EmitContext.Serves (c : EmitContext) (p : Program) : Prop where
  structs : Structs.ofDecls p.structs = .ok c.structs
  functions : Functions.ofProgram c.structs p = .ok c.functions

theorem EmitContext.Serves.sound (h : EmitContext.Serves c p) (hp : p.WellNamed) : c.Sound where
  structs := Structs.ofDecls_sound (fun d hd => (hp.structs d hd).name.ne_empty) h.structs
  functions := Functions.ofProgram_sound h.functions

/-- Every path through the code moves `sp` by `w`, and nothing in the code sets `sp` to an unknown
value. -/
structure Assembly.Displaces (code : Assembly) (w : Word) : Prop where
  moves : ∀ i ∈ code.instructions, ∃ v, i.displacement? = some v
  paths : ∀ d, code.Path code.length d → d = w

theorem Moves.displaces (h : Moves n n' code w) : code.Displaces w := by
  obtain ⟨depth, hflow⟩ := h.2 0
  rw [Int32.zero_add] at hflow
  exact ⟨fun i hi => hflow.moves hi, fun d hd => hflow.path_end hd⟩

def Statement.declaredWords (structs : Structs) : Statement → Nat
  | .declare _ type _ _ => match structs.resolveStored type with
    | .ok type => structs.words type
    | .error _ => 0
  | _ => 0

namespace Emit

theorem EmitsCode.depth (h : EmitsCode c pool frame n (.one st) code frame' n') :
    frame'.depth = frame.depth + st.declaredWords c.structs := by
  cases h with
  | declare resolved value accepted same declared =>
    have := depth_declare declared
    simp only [Statement.declaredWords, resolved]
    omega
  | declareZero resolved declared =>
    have := depth_declare declared
    simp only [Statement.declaredWords, resolved]
    omega
  | _ => simp [Statement.declaredWords]

/-- A place is typed as it is emitted. -/
theorem place_typed {s s' : EmitState} (h : place c e s = .ok (code, r) s') :
    ∃ type, Typing.typeOf (c.at s.frame) e = .ok type := by
  cases e with
  | var span name =>
    simp only [place, bind_ok] at h
    obtain ⟨location, _, hv, -⟩ := h
    obtain ⟨type, hl, -⟩ := findVariable_ok hv
    exact ⟨type, by simp [Typing.typeOf, hl]⟩
  | field span base name =>
    simp only [place] at h
    cases ha : base.addressable with
    | false => simp [ha, bind_ok] at h
    | true =>
      simp only [ha, ↓reduceIte, bind_ok, typeHere_ok, ofCheck_ok] at h
      obtain ⟨inner, _, ⟨hinner, rfl⟩, field, _, ⟨hfield, rfl⟩, -⟩ := h
      exact ⟨field.type, by simp only [Typing.typeOf, bind_eq_ok, pure_eq_ok]; exact ⟨_, hinner,
        _, hfield, rfl⟩⟩
  | dereference span inner =>
    simp only [place, bind_ok, typeHere_ok] at h
    obtain ⟨pointer, _, ⟨hp, rfl⟩, h⟩ := h
    cases pointer with
    | reference type => exact ⟨type, by simp only [Typing.typeOf, bind_eq_ok]; exact ⟨_, hp, rfl⟩⟩
    | _ => simp at h
  | _ => simp [place] at h

end Emit

open Emit in
/-- Whatever state the generator is in, the code that it emits moves `sp` along every path as far as
it moves the depth of the frame: by the words of its type for an expression, by the words of its
variable for a declaration, and by nothing for a place, any other statement, and the body of a
branch or loop. -/
theorem stack_discipline (parsed : Program.ofSource source = .ok p)
    (serves : EmitContext.Serves c p) : (∀ e s code s', expr c e s = .ok code s' →
      ∃ type, Typing.typeOf (c.at s.frame) e = .ok type ∧
      code.Displaces (.ofNat (c.structs.words type)) ∧
        s'.frame.depth = s.frame.depth + c.structs.words type) ∧
    (∀ e s code r s', place c e s = .ok (code, r) s' →
      code.Displaces 0 ∧ s'.frame.depth = s.frame.depth) ∧
    (∀ st s code s', statement c st s = .ok code s' →
      code.Displaces (.ofNat (st.declaredWords c.structs)) ∧
        s'.frame.depth = s.frame.depth + st.declaredWords c.structs) ∧
    (∀ ss s code s', statements c ss s = .ok code s' →
      code.Displaces (.ofInt (s'.frame.depth - s.frame.depth))) ∧
    (∀ st s code s', asBody st (statement c st) s = .ok code s' →
      code.Displaces 0 ∧ s'.frame.depth = s.frame.depth) := by
  have hc := serves.sound (Program.ofSource_wellNamed parsed)
  refine ⟨?_, ?_, ?_, ?_, ?_⟩
  · rintro e ⟨frame, pool, ⟨n⟩⟩ code s' h
    obtain ⟨type, n', typed, rfl, he⟩ := expr_emits hc e _ _ _ _ _ h
    exact ⟨type, typed, he.moves.displaces, rfl⟩
  · rintro e ⟨frame, pool, ⟨n⟩⟩ code r s' h
    obtain ⟨type, typed⟩ := place_typed h
    obtain ⟨k, n', -, -, rfl, he⟩ := place_emits hc e _ _ _ _ _ _ _ typed h
    exact ⟨he.moves.displaces, rfl⟩
  · rintro st ⟨frame, pool, ⟨n⟩⟩ code s' h
    obtain ⟨frame', n', rfl, -, he⟩ := statement_emits hc st _ _ _ _ _ h
    have hdepth := he.depth
    refine ⟨(he.moves.cast ?_).displaces, hdepth⟩
    rw [hdepth, ← Int32.ofInt_eq_ofNat]
    congr 1
    omega
  · rintro ss ⟨frame, pool, ⟨n⟩⟩ code s' h
    obtain ⟨frame', n', rfl, -, he⟩ := statements_emits hc ss _ _ _ _ _ h
    exact he.moves.displaces
  · rintro st ⟨frame, pool, ⟨n⟩⟩ code s' h
    obtain ⟨n', rfl, he⟩ := asBody_emits (statement_emits hc st) h
    exact ⟨(he.moves.cast (by simp)).displaces, rfl⟩

def SourceText.twoCalls : SourceText :=
  .ofString "func int f(int a) \x7b return a + 1; \x7d f(2) and f(3);"

theorem stack_discipline_twoCalls : ∃ p c st code s', Program.ofSource .twoCalls = .ok p ∧
    EmitContext.Serves c p ∧ st ∈ p.body ∧
    Emit.statement c st ⟨.topLevel [], .empty, .start⟩ = .ok code s' ∧
    code.Displaces 0 ∧ s'.frame.depth = 0 := by
  have hrun : (do
      let p ← (Program.ofSource .twoCalls).toOption
      let structs ← (Structs.ofDecls p.structs).toOption
      let functions ← (Functions.ofProgram structs p).toOption
      let st ← p.body.find? (Statement.declaredWords structs · = 0)
      (Emit.statement ⟨structs, functions, .collect p, none⟩ st).run' ⟨.topLevel [], .empty,
        .start⟩).isSome = true := by decide +kernel
  obtain ⟨code, hrun⟩ := Option.isSome_iff_exists.mp hrun
  simp only [Option.bind_eq_bind, Option.bind_eq_some_iff, toOption_eq_some, run'_eq_some] at hrun
  obtain ⟨p, hp, structs, hs, functions, hf, st, hst, s', hcode⟩ := hrun
  have serves : EmitContext.Serves ⟨structs, functions, .collect p, none⟩ p := ⟨hs, hf⟩
  obtain ⟨-, -, hstatement, -⟩ := stack_discipline hp serves
  obtain ⟨hd, hdepth⟩ := hstatement _ _ _ _ hcode
  have hwords : st.declaredWords structs = 0 := by
    simpa using List.find?_some hst
  rw [hwords] at hd hdepth
  exact ⟨p, _, st, _, _, hp, serves, List.mem_of_find?_eq_some hst, hcode, hd, hdepth⟩

end WordScript
