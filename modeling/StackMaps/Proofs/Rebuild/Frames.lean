import StackMaps.Proofs.Flow.Carried
import StackMaps.Proofs.Flow.Explored
import StackMaps.Proofs.Frame.Simulation
import StackMaps.Proofs.Table.Stored

/-! The frames that go into a table: they are in the order of their offsets, and what is found for a
block has all the locals of the method, no half of a wide one, and no higher stack than was
recorded. -/

namespace StackMaps

variable {H : Hierarchy} {visits : Nat} {signature : Signature} {code : Code} {pool : Pool}
  {a : Analysis} {g : FlowGraph} {st : FlowState}

namespace Signature

theorem usable_entryTypes (s : Signature) : .top ∉ s.entryTypes := by
  have receiver : s.receiver ≠ .top := by
    unfold Signature.receiver
    split <;> exact nofun
  intro there
  obtain there | there := List.mem_append.1 there
  · split at there
    · cases there
    · exact receiver (List.mem_singleton.1 there).symm
  · obtain ⟨t, _, same⟩ := List.mem_map.1 there
    exact FlowType.ofField_ne_top t same

theorem initialFrame_eq {maxLocals : UInt16} {initial : Frame}
    (ok : signature.initialFrame maxLocals = .ok initial) :
    initial = ⟨VerificationType.fill maxLocals.toNat signature.entryTypes, []⟩ := by
  have slots : signature.entrySlots = signature.entryTypes.flatMap VerificationType.slots := by
    have narrow : signature.receiver.slots = [signature.receiver] := by
      unfold receiver
      split <;> rfl
    rw [entrySlots, entryTypes, List.flatMap_append, List.flatMap_map]
    split
    · rfl
    · simp only [List.flatMap_singleton, narrow]
      rfl
  obtain ⟨_, rfl⟩ := initialFrame_eq_ok.1 ok
  rw [slots]
  rfl

end Signature

namespace FlowGraph

theorem carries_paired (g : FlowGraph) (n : Nat) :
    g.Carries H fun f => Paired f.locals ∧ f.locals.length = n where
  step _ _ _ _ _ _ _ _ holds ok :=
    ⟨Frame.step_paired holds.1 (stepAt_eq_ok.1 ok),
      (Frame.step_near (stepAt_eq_ok.1 ok)).locals.trans holds.2⟩
  caught _ _ holds _ := holds
  merge _ f f' t holds holds' ok := by
    have merges := (Frame.merge_eq_ok (holds.2.trans holds'.2.symm)).1 ok
    exact ⟨merges.paired holds.1 holds'.1, merges.locals.length_merged.trans holds.2⟩

end FlowGraph

theorem FlowType.length_le_totalWidth (stack : List FlowType) : stack.length ≤ totalWidth stack := by
  induction stack with
  | nil => exact Nat.le_refl 0
  | cons t stack ih =>
    have own : 0 < width t := by cases t <;> simp [width]
    rw [List.length_cons, totalWidth]
    omega

namespace Analysis

structure Regular (locals height : Nat) (f : Frame) : Prop where
  paired : Paired f.locals
  locals : f.locals.length = locals
  stack : f.stack.length ≤ height

namespace Found

theorem regular (found : a.Found H visits signature code pool g st) {n : Nat} {f : Frame}
    (there : a.entry[n]? = some f) : Regular code.maxLocals.toNat a.maxStack f := by
  have initial := Signature.initialFrame_eq found.initial
  have length := (Signature.length_initialFrame found.initial).1
  have paired : Paired a.initial.locals := by
    rw [initial]
    exact Frame.fill_paired _ _
  have carried := FlowGraph.settle_carries (FlowGraph.isClosed_of_ofCode found.ofCode)
    (g.carries_paired code.maxLocals.toNat) ⟨paired, length⟩ found.settled
  have low := FlowGraph.settle_low (by rw [initial]; rfl) found.settled
  rw [found.entry] at there
  obtain ⟨⟨paired, length⟩, _⟩ := carried n f there
  have least := FlowType.length_le_totalWidth f.stack
  refine ⟨paired, length, ?_⟩
  rw [found.maxStack]
  exact Nat.le_trans least (low n f there).2

end Found

theorem mem_frames {p : Nat × Frame} : p ∈ a.frames ↔ ∃ b ∈ a.blocks, p.1 = b.start ∧
    (a.entryFrame b = some p.2 ∧ b.start ∈ a.frameTargets ∨
      a.entryFrame b = none ∧ p.2 = Frame.dead) := by
  obtain ⟨offset, f⟩ := p
  simp only [frames, List.mem_filterMap]
  refine exists_congr fun b => and_congr_right fun _ => ?_
  cases entry : a.entryFrame b with
  | none => simp [eq_comm]
  | some f' =>
    simp only [Option.ite_none_right_eq_some, Option.some.injEq, Prod.mk.injEq, reduceCtorEq,
      false_and, or_false, Std.TreeSet.contains_iff_mem]
    constructor
    · rintro ⟨target, rfl, rfl⟩
      exact ⟨rfl, rfl, target⟩
    · rintro ⟨rfl, rfl, target⟩
      exact ⟨target, rfl, rfl⟩

def written? (a : Analysis) (b : Block) : Option (Nat × Frame) :=
  match a.entryFrame b with
  | some f => if a.frameTargets.contains b.start then some (b.start, f) else none
  | none => some (b.start, Frame.dead)

theorem written?_start {b : Block} {p : Nat × Frame} (written : a.written? b = some p) :
    p.1 = b.start := by
  unfold written? at written
  split at written
  · split at written <;> cases written
    rfl
  · cases written
    rfl

theorem frames_sorted (found : a.Found H visits signature code pool g st) :
    a.frames.Pairwise (·.1 < ·.1) := by
  refine found.explored.starts.1.filterMap _ fun b b' less p here p' here' => ?_
  rw [written?_start here, written?_start here']
  exact less

theorem length_le_of_sorted {α : Type} {offset : α → Nat} {xs : List α} {least bound : Nat}
    (sorted : xs.Pairwise fun x y => offset x < offset y)
    (inside : ∀ x ∈ xs, least ≤ offset x ∧ offset x < bound) : xs.length ≤ bound - least := by
  induction xs generalizing least with
  | nil => exact Nat.zero_le _
  | cons x xs ih =>
    obtain ⟨first, sorted⟩ := List.pairwise_cons.1 sorted
    obtain ⟨own, rest⟩ := List.forall_mem_cons.1 inside
    have inside (y : α) (there : y ∈ xs) : offset x + 1 ≤ offset y ∧ offset y < bound :=
      ⟨first y there, (rest y there).2⟩
    have later := ih sorted inside
    rw [List.length_cons]
    omega

namespace Found

theorem offset_lt (found : a.Found H visits signature code pool g st) {p : Nat × Frame}
    (there : p ∈ a.frames) : p.1 < code.bytes.length := by
  obtain ⟨b, block, start, _⟩ := mem_frames.1 there
  rw [start]
  exact found.explored.starts.2 b block

theorem length_frames (found : a.Found H visits signature code pool g st) :
    a.frames.length ≤ code.bytes.length := by
  have inside (p : Nat × Frame) (there : p ∈ a.frames) : 0 ≤ p.1 ∧ p.1 < code.bytes.length :=
    ⟨Nat.zero_le _, found.offset_lt there⟩
  exact length_le_of_sorted (frames_sorted found) inside

theorem frame_cases (found : a.Found H visits signature code pool g st) {p : Nat × Frame}
    (there : p ∈ a.frames) : Regular code.maxLocals.toNat a.maxStack p.2 ∨ p.2 = .dead := by
  obtain ⟨b, _, _, ⟨entry, _⟩ | ⟨_, dead⟩⟩ := mem_frames.1 there
  · exact .inl (found.regular entry)
  · exact .inr dead

end Found

end Analysis

end StackMaps
