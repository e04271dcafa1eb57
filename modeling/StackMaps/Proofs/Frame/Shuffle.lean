import Mathlib.Data.List.Basic
import StackMaps.Frame.Transfer
import StackMaps.Proofs.Answer
import StackMaps.Proofs.SlotSeq

/-! Instructions that only move stack entries about permute slots. A long or double is a pair of slots:
such an instruction succeeds if there are slots enough and it takes no pair apart, and then does to
slots what it would do to values of one slot each. -/

namespace StackMaps

inductive StackSlot
  | whole (t : FlowType)
  | upper (t : FlowType)
  | lower (t : FlowType)
deriving DecidableEq

def FlowType.stackSlots (t : FlowType) : List StackSlot :=
  if width t = 2 then [.upper t, .lower t] else [.whole t]

def stackSlots (stack : List FlowType) : List StackSlot := stack.flatMap FlowType.stackSlots

/-- A cut below the first `k` slots takes a pair apart: the next slot is the lower half of one, and its
upper half is the last of the `k`. -/
def CutsPair (k : Nat) (slots : List StackSlot) : Prop := ∃ t, slots[k]? = some (.lower t)

namespace StackOp

/-- How many slots from the top are removed, copied or moved down. -/
def taken : StackOp → Nat
  | pop | dup | dupX1 | dupX2 | swap => 1
  | pop2 | dup2 | dup2X1 | dup2X2 => 2

/-- How many slots further down they, or a copy of them, are put under. -/
def under : StackOp → Nat
  | pop | pop2 | dup | dup2 => 0
  | dupX1 | dup2X1 | swap => 1
  | dupX2 | dup2X2 => 2

/-- What becomes of values of one slot each, topmost first. -/
def shuffle {α : Type} : StackOp → List α → List α
  | pop, _ :: rest => rest
  | pop2, _ :: _ :: rest => rest
  | dup, z :: rest => z :: z :: rest
  | dupX1, z :: y :: rest => z :: y :: z :: rest
  | dupX2, z :: y :: x :: rest => z :: y :: x :: z :: rest
  | dup2, z :: y :: rest => z :: y :: z :: y :: rest
  | dup2X1, z :: y :: x :: rest => z :: y :: x :: z :: y :: rest
  | dup2X2, z :: y :: x :: w :: rest => z :: y :: x :: w :: z :: y :: rest
  | swap, z :: y :: rest => y :: z :: rest
  | _, slots => slots

def rearranged {α : Type} (op : StackOp) (top below : List α) : List α :=
  match op with
  | pop | pop2 => below
  | dup | dupX1 | dupX2 | dup2 | dup2X1 | dup2X2 => top ++ below ++ top
  | swap => below ++ top

theorem shuffle_append {α : Type} {op : StackOp} {top below : List α} (rest : List α)
    (taken : top.length = op.taken) (under : below.length = op.under) :
    op.shuffle (top ++ below ++ rest) = op.rearranged top below ++ rest := by
  match op, top, below, taken, under with
  | pop, [_], [], _, _ => rfl
  | pop2, [_, _], [], _, _ => rfl
  | dup, [_], [], _, _ => rfl
  | dupX1, [_], [_], _, _ => rfl
  | dupX2, [_], [_, _], _, _ => rfl
  | dup2, [_, _], [], _, _ => rfl
  | dup2X1, [_, _], [_], _, _ => rfl
  | dup2X2, [_, _], [_, _], _, _ => rfl
  | swap, [_], [_], _, _ => rfl

end StackOp

theorem FlowType.width_cases (t : FlowType) : width t = 1 ∨ width t = 2 := by
  cases t <;> simp [width]

theorem FlowType.length_stackSlots (t : FlowType) : t.stackSlots.length = width t := by
  unfold stackSlots
  obtain narrow | wide := t.width_cases
  · simp [narrow]
  · simp [wide]

theorem stackSlots_append (stack stack' : List FlowType) :
    stackSlots (stack ++ stack') = stackSlots stack ++ stackSlots stack' := List.flatMap_append

theorem length_stackSlots (stack : List FlowType) : (stackSlots stack).length = totalWidth stack := by
  induction stack with
  | nil => rfl
  | cons t stack ih =>
    rw [stackSlots, List.flatMap_cons, List.length_append, t.length_stackSlots, totalWidth]
    exact congrArg _ ih

theorem stackSlots_cons (t : FlowType) (stack : List FlowType) :
    stackSlots (t :: stack) = t.stackSlots ++ stackSlots stack := List.flatMap_cons

theorem not_cutsPair_zero (stack : List FlowType) : ¬ CutsPair 0 (stackSlots stack) := by
  rintro ⟨u, lower⟩
  cases stack with
  | nil => cases lower
  | cons t stack =>
    rw [stackSlots_cons, FlowType.stackSlots] at lower
    split at lower
    · cases lower
    · cases lower

theorem cutsPair_one {t : FlowType} (stack : List FlowType) (wide : width t = 2) :
    CutsPair 1 (stackSlots (t :: stack)) :=
  ⟨t, by simp [stackSlots_cons, FlowType.stackSlots, wide]⟩

theorem cutsPair_append (top rest : List FlowType) (k : Nat) :
    CutsPair (totalWidth top + k) (stackSlots (top ++ rest)) ↔ CutsPair k (stackSlots rest) := by
  simp only [CutsPair, stackSlots_append, ← length_stackSlots,
    List.getElem?_append_right (Nat.le_add_right ..), Nat.add_sub_cancel_left]

theorem exists_cut {stack : List FlowType} {k : Nat} :
    (∃ top rest, stack = top ++ rest ∧ totalWidth top = k) ↔
      k ≤ (stackSlots stack).length ∧ ¬ CutsPair k (stackSlots stack) := by
  constructor
  · rintro ⟨top, rest, rfl, rfl⟩
    refine ⟨?_, fun cut => not_cutsPair_zero rest ((cutsPair_append top rest 0).1 cut)⟩
    rw [length_stackSlots, totalWidth_append]
    omega
  · rintro ⟨enough, whole⟩
    induction stack generalizing k with
    | nil => exact ⟨[], [], rfl, (Nat.le_zero.1 enough).symm⟩
    | cons t stack ih =>
      by_cases fits : width t ≤ k
      · obtain ⟨j, rfl⟩ := Nat.exists_eq_add_of_le fits
        rw [length_stackSlots, totalWidth, ← length_stackSlots] at enough
        obtain ⟨top, rest, rfl, rfl⟩ := ih (k := j) (by omega) fun cut =>
          whole ((cutsPair_append [t] stack j).2 cut)
        exact ⟨t :: top, rest, rfl, rfl⟩
      · -- the cut is above the value, or goes through it
        obtain narrow | wide := t.width_cases
        · exact ⟨[], t :: stack, rfl, by simp only [totalWidth]; omega⟩
        · have first : k ≠ 1 := fun one => whole (one ▸ cutsPair_one stack wide)
          exact ⟨[], t :: stack, rfl, by simp only [totalWidth]; omega⟩

theorem totalWidth_eq_zero {ts : List FlowType} : totalWidth ts = 0 ↔ ts = [] := by
  cases ts with
  | nil => simp [totalWidth]
  | cons t ts =>
    have := t.width_cases
    simp only [totalWidth, reduceCtorEq, iff_false]
    omega

theorem totalWidth_eq_one {ts : List FlowType} : totalWidth ts = 1 ↔ ∃ a, width a = 1 ∧ ts = [a] := by
  constructor
  · intro total
    cases ts with
    | nil => cases total
    | cons a ts =>
      have := a.width_cases
      rw [totalWidth] at total
      obtain rfl := totalWidth_eq_zero.1 (show totalWidth ts = 0 by omega)
      exact ⟨a, by simpa [totalWidth] using total, rfl⟩
  · rintro ⟨a, narrow, rfl⟩
    simp [totalWidth, narrow]

theorem totalWidth_eq_two {ts : List FlowType} : totalWidth ts = 2 ↔
    (∃ a, width a = 2 ∧ ts = [a]) ∨ ∃ a b, width a = 1 ∧ width b = 1 ∧ ts = [a, b] := by
  constructor
  · intro total
    cases ts with
    | nil => cases total
    | cons a ts =>
      rw [totalWidth] at total
      obtain narrow | wide := a.width_cases
      · obtain ⟨b, narrow', rfl⟩ := totalWidth_eq_one.1 (show totalWidth ts = 1 by omega)
        exact .inr ⟨a, b, narrow, narrow', rfl⟩
      · obtain rfl := totalWidth_eq_zero.1 (show totalWidth ts = 0 by omega)
        exact .inl ⟨a, wide, rfl⟩
  · rintro (⟨a, wide, rfl⟩ | ⟨a, b, narrow, narrow', rfl⟩)
    · simp [totalWidth, wide]
    · simp [totalWidth, narrow, narrow']

namespace OperandStack

theorem pop_eq_ok {stack : List FlowType} {p : FlowType × List FlowType} :
    pop stack = .ok p ↔ stack = p.1 :: p.2 := by
  obtain ⟨t, rest⟩ := p
  cases stack with
  | nil => simp [pop]
  | cons => simp [pop]

theorem popNarrow_eq_ok {stack : List FlowType} {p : FlowType × List FlowType} :
    popNarrow stack = .ok p ↔ stack = p.1 :: p.2 ∧ width p.1 = 1 := by
  simp only [popNarrow, bind_eq_ok, pop_eq_ok]
  constructor
  · rintro ⟨q, rfl, ok⟩
    split at ok
    · cases ok
      exact ⟨rfl, ‹_›⟩
    · cases ok
  · rintro ⟨rfl, narrow⟩
    exact ⟨p, rfl, if_pos narrow⟩

def popSlots : Nat → List FlowType → Checked (List FlowType × List FlowType)
  | 0, stack => return ([], stack)
  | 1, stack => do
    let (a, stack) ← popNarrow stack
    return ([a], stack)
  | _, stack => do
    let (a, stack) ← pop stack
    if width a = 1 then
      let (b, stack) ← popNarrow stack
      return ([a, b], stack)
    else
      return ([a], stack)

theorem popSlots_eq_ok {k : Nat} (few : k ≤ 2) {stack : List FlowType}
    {p : List FlowType × List FlowType} :
    popSlots k stack = .ok p ↔ stack = p.1 ++ p.2 ∧ totalWidth p.1 = k := by
  obtain ⟨top, rest⟩ := p
  match k with
  | 0 =>
    rw [totalWidth_eq_zero]
    constructor
    · rintro ⟨⟩
      exact ⟨rfl, rfl⟩
    · rintro ⟨rfl, rfl⟩
      rfl
  | 1 =>
    rw [totalWidth_eq_one]
    simp only [popSlots, bind_eq_ok, popNarrow_eq_ok]
    constructor
    · rintro ⟨⟨a, _⟩, ⟨rfl, narrow⟩, ⟨⟩⟩
      exact ⟨rfl, a, narrow, rfl⟩
    · rintro ⟨rfl, a, narrow, rfl⟩
      exact ⟨(a, rest), ⟨rfl, narrow⟩, rfl⟩
  | 2 =>
    rw [totalWidth_eq_two]
    simp only [popSlots, bind_eq_ok, pop_eq_ok]
    constructor
    · rintro ⟨⟨a, _⟩, rfl, ok⟩
      split at ok
      next narrow =>
        obtain ⟨⟨b, _⟩, popped, ⟨⟩⟩ := bind_eq_ok.1 ok
        obtain ⟨rfl, narrow'⟩ := popNarrow_eq_ok.1 popped
        exact ⟨rfl, .inr ⟨a, b, narrow, narrow', rfl⟩⟩
      next apart =>
        cases ok
        exact ⟨rfl, .inl ⟨a, a.width_cases.resolve_left apart, rfl⟩⟩
    · rintro ⟨rfl, ⟨a, wide, rfl⟩ | ⟨a, b, narrow, narrow', rfl⟩⟩
      · exact ⟨(a, rest), rfl, if_neg (by simp [wide])⟩
      · refine ⟨(a, b :: rest), rfl, (if_pos narrow).trans ?_⟩
        exact bind_eq_ok.2 ⟨(b, rest), popNarrow_eq_ok.2 ⟨rfl, narrow'⟩, rfl⟩

end OperandStack

open OperandStack

namespace StackOp

/-- Each form of an instruction pops what takes up its slots, and pushes that back in its order. -/
theorem apply_eq (op : StackOp) (stack : List FlowType) : op.apply stack = (do
    let (top, stack) ← popSlots op.taken stack
    let (below, stack) ← popSlots op.under stack
    return op.rearranged top below ++ stack) := by
  have ite_bind {α β : Type} (p : Prop) [Decidable p] (x y : Checked α) (f : α → Checked β) :
      (if p then x else y) >>= f = if p then x >>= f else y >>= f := apply_ite (· >>= f) p x y
  cases op <;>
    simp only [apply, taken, under, popSlots, rearranged, pure_bind, bind_assoc, ite_bind,
      List.append_nil, List.nil_append, List.cons_append]

theorem apply_eq_ok {op : StackOp} {stack stack' : List FlowType} :
    op.apply stack = .ok stack' ↔ ∃ top below rest, stack = top ++ below ++ rest ∧
      totalWidth top = op.taken ∧ totalWidth below = op.under ∧
      stack' = op.rearranged top below ++ rest := by
  have taken_le : op.taken ≤ 2 := by cases op <;> decide
  have under_le : op.under ≤ 2 := by cases op <;> decide
  simp only [apply_eq, bind_eq_ok, popSlots_eq_ok taken_le, popSlots_eq_ok under_le]
  constructor
  · rintro ⟨⟨top, _⟩, ⟨rfl, taken⟩, ⟨below, rest⟩, ⟨rfl, under⟩, ⟨⟩⟩
    exact ⟨top, below, rest, (List.append_assoc ..).symm, taken, under, rfl⟩
  · rintro ⟨top, below, rest, rfl, taken, under, rfl⟩
    exact ⟨(top, below ++ rest), ⟨List.append_assoc .., taken⟩, (below, rest), ⟨rfl, under⟩, rfl⟩

/-- There are slots enough, and none of the cuts takes a pair apart. -/
def Fits (op : StackOp) (slots : List StackSlot) : Prop :=
  op.taken + op.under ≤ slots.length ∧ ¬ CutsPair op.taken slots ∧
    ¬ CutsPair (op.taken + op.under) slots

theorem exists_apply_iff (op : StackOp) (stack : List FlowType) :
    (∃ stack', op.apply stack = .ok stack') ↔ op.Fits (stackSlots stack) := by
  simp only [apply_eq_ok, Fits]
  constructor
  · rintro ⟨_, top, below, rest, rfl, taken, under, _⟩
    have upper := exists_cut.1 ⟨top, below ++ rest, List.append_assoc .., taken⟩
    have lower := exists_cut.1 ⟨top ++ below, rest, rfl, totalWidth_append top below⟩
    rw [taken, under] at lower
    exact ⟨lower.1, upper.2, lower.2⟩
  · rintro ⟨enough, upper, lower⟩
    obtain ⟨top, tail, rfl, taken⟩ := exists_cut.2 ⟨by omega, upper⟩
    rw [← taken, cutsPair_append] at lower
    rw [length_stackSlots, totalWidth_append] at enough
    obtain ⟨below, rest, rfl, under⟩ :=
      exists_cut.2 ⟨by rw [length_stackSlots]; omega, lower⟩
    exact ⟨_, top, below, rest, (List.append_assoc ..).symm, taken, under, rfl⟩

theorem stackSlots_apply {op : StackOp} {stack stack' : List FlowType}
    (ok : op.apply stack = .ok stack') : stackSlots stack' = op.shuffle (stackSlots stack) := by
  obtain ⟨top, below, rest, rfl, taken, under, rfl⟩ := apply_eq_ok.1 ok
  simp only [stackSlots_append]
  rw [shuffle_append _ ((length_stackSlots top).trans taken) ((length_stackSlots below).trans under)]
  congr 1
  cases op <;> simp only [rearranged, stackSlots_append]

end StackOp

namespace SlotSeq

def popValue (s : SlotSeq FlowType) : Checked (FlowType × SlotSeq FlowType) :=
  match s.pop? with
  | some ((_, _, t), rest) => .ok (t, rest)
  | none => .error .emptyStack

def popNarrow (s : SlotSeq FlowType) : Checked (FlowType × SlotSeq FlowType) := do
  let (t, rest) ← s.popValue
  if width t = 1 then return (t, rest) else throw (.invalidWidth (width t))

def ofStack (stack : List FlowType) : SlotSeq FlowType :=
  (startingAt 0).append stack.reverse

theorem ofStack_holds (stack : List FlowType) : (ofStack stack).Holds stack.reverse :=
  (holds_startingAt 0).append _

theorem append_ofStack (stack pushed : List FlowType) :
    (ofStack stack).append pushed = ofStack (pushed.reverse ++ stack) := by
  simp [ofStack, SlotSeq.append]

theorem popValue_ofStack (stack : List FlowType) :
    (ofStack stack).popValue = Prod.map id ofStack <$> pop stack := by
  cases stack with
  | nil => rfl
  | cons t stack =>
    have pushed : ofStack (t :: stack) = (ofStack stack).push t := (append_ofStack stack [t]).symm
    rw [popValue, pushed, pop?_push]
    rfl

theorem popNarrow_ofStack (stack : List FlowType) :
    (ofStack stack).popNarrow = Prod.map id ofStack <$> OperandStack.popNarrow stack := by
  rw [popNarrow, popValue_ofStack, OperandStack.popNarrow, map_bind, bind_map_left]
  congr 1
  funext ⟨t, rest⟩
  simp only [Prod.map, id_eq, apply_ite (Prod.map id ofStack <$> ·), map_pure]
  rfl

end SlotSeq

def StackOp.applyTo (op : StackOp) (s : SlotSeq FlowType) : Checked (SlotSeq FlowType) := do
  match op with
  | pop =>
    let (_, s) ← s.popNarrow
    return s
  | pop2 =>
    let (a, s) ← s.popValue
    if width a = 1 then
      let (_, s) ← s.popNarrow
      return s
    else
      return s
  | dup =>
    let (a, s) ← s.popNarrow
    return s.append [a, a]
  | dupX1 =>
    let (a, s) ← s.popNarrow
    let (b, s) ← s.popNarrow
    return s.append [a, b, a]
  | dupX2 =>
    let (a, s) ← s.popNarrow
    let (b, s) ← s.popValue
    if width b = 1 then
      let (c, s) ← s.popNarrow
      return s.append [a, c, b, a]
    else
      return s.append [a, b, a]
  | dup2 =>
    let (a, s) ← s.popValue
    if width a = 1 then
      let (b, s) ← s.popNarrow
      return s.append [b, a, b, a]
    else
      return s.append [a, a]
  | dup2X1 =>
    let (a, s) ← s.popValue
    if width a = 1 then
      let (b, s) ← s.popNarrow
      let (c, s) ← s.popNarrow
      return s.append [b, a, c, b, a]
    else
      let (b, s) ← s.popNarrow
      return s.append [a, b, a]
  | dup2X2 =>
    let (a, s) ← s.popValue
    if width a = 1 then
      let (b, s) ← s.popNarrow
      let (c, s) ← s.popValue
      if width c = 1 then
        let (d, s) ← s.popNarrow
        return s.append [b, a, d, c, b, a]
      else
        return s.append [b, a, c, b, a]
    else
      let (b, s) ← s.popValue
      if width b = 1 then
        let (c, s) ← s.popNarrow
        return s.append [a, c, b, a]
      else
        return s.append [a, b, a]
  | swap =>
    let (a, s) ← s.popNarrow
    let (b, s) ← s.popNarrow
    return s.append [a, b]

theorem StackOp.applyTo_ofStack (op : StackOp) (stack : List FlowType) :
    op.applyTo (.ofStack stack) = SlotSeq.ofStack <$> op.apply stack := by
  have map_ite {α β : Type} (p : Prop) [Decidable p] (x y : Checked α) (f : α → β) :
      (f <$> if p then x else y) = if p then f <$> x else f <$> y := apply_ite (f <$> ·) p x y
  cases op <;>
    simp only [applyTo, apply, SlotSeq.popValue_ofStack, SlotSeq.popNarrow_ofStack, map_bind,
      bind_map_left, map_ite, map_pure, Prod.map, id_eq, SlotSeq.append_ofStack, List.reverse_cons,
      List.reverse_nil, List.nil_append, List.cons_append]

/-- An instruction that only moves stack entries about succeeds if there are slots enough and none of
its cuts takes a pair apart. It then does to slots what it does to values of one slot each, with
every entry at the start of its slots, and leaves the locals alone. -/
theorem Frame.shuffles_slots (c : MethodContext) (offset : Nat) (op : StackOp) (f : Frame) :
    ((∃ g, straight c offset (.stack op) f = .ok g) ↔ op.Fits (stackSlots f.stack)) ∧
      (∀ g, straight c offset (.stack op) f = .ok g →
        stackSlots g.stack = op.shuffle (stackSlots f.stack) ∧ g.locals = f.locals) ∧
      op.applyTo (.ofStack f.stack) =
        (fun g => SlotSeq.ofStack g.stack) <$> straight c offset (.stack op) f ∧
      ∀ stack, (SlotSeq.ofStack stack).Holds stack.reverse := by
  have run : straight c offset (.stack op) f =
      (fun stack => ⟨f.locals, stack⟩) <$> op.apply f.stack :=
    (map_eq_pure_bind _ _).symm
  refine ⟨?_, ?_, ?_, SlotSeq.ofStack_holds⟩
  · rw [← op.exists_apply_iff f.stack, run]
    simp [map_eq_ok]
  · intro g ok
    rw [run] at ok
    obtain ⟨stack, applied, rfl⟩ := map_eq_ok.1 ok
    exact ⟨StackOp.stackSlots_apply applied, rfl⟩
  · rw [op.applyTo_ofStack, run, Functor.map_map]

theorem Frame.shuffles_slots_dup2X2 :
    straight ⟨.empty, .object .object, none⟩ 0 (.stack .dup2X2) ⟨[.float], [.int, .null, .long]⟩ =
        .ok ⟨[.float], [.int, .null, .long, .int, .null]⟩ ∧
      stackSlots [.int, .null, .long, .int, .null] =
        StackOp.dup2X2.shuffle (stackSlots [.int, .null, .long]) ∧
      ¬ ∃ g, straight ⟨.empty, .object .object, none⟩ 0 (.stack .dup2X2)
        ⟨[.float], [.int, .long, .null]⟩ = .ok g := by
  have copied : straight ⟨.empty, .object .object, none⟩ 0 (.stack .dup2X2)
      ⟨[.float], [.int, .null, .long]⟩ = .ok ⟨[.float], [.int, .null, .long, .int, .null]⟩ := rfl
  obtain ⟨_, slots, _⟩ :=
    shuffles_slots ⟨.empty, .object .object, none⟩ 0 .dup2X2 ⟨[.float], [.int, .null, .long]⟩
  obtain ⟨succeeds, _⟩ :=
    shuffles_slots ⟨.empty, .object .object, none⟩ 0 .dup2X2 ⟨[.float], [.int, .long, .null]⟩
  refine ⟨copied, (slots _ copied).1, fun done => ?_⟩
  obtain ⟨_, whole, _⟩ := succeeds.1 done
  exact whole ⟨.long, rfl⟩

end StackMaps
