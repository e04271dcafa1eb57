import StackMaps.Flow.Analysis
import StackMaps.Proofs.SlotSeq

/-! The frame on entry to a method. The slots that the parameters of a descriptor are said to take up are
those that they are given, one after the other behind the receiver. -/

namespace StackMaps

theorem VerificationType.width_ofField (t : FieldType) : width (.ofField t : FlowType) = width t := by
  cases t with
  | base b => cases b <;> rfl
  | ref r => rfl

theorem FieldType.width_eq_two {t : FieldType} :
    width t = 2 ↔ t = .base .long ∨ t = .base .double := by
  rcases t with b | r
  · cases b <;> simp [width]
  · simp [width]

theorem FieldType.width_cases (t : FieldType) : width t = 1 ∨ width t = 2 := by
  rcases t with b | r
  · cases b <;> simp [width]
  · simp [width]

namespace Signature

variable {s : Signature} {ps : List FieldType} {t : FieldType} {k i : Nat} {maxLocals : UInt16}
  {f : Frame}

theorem length_slotsOf (t : FlowType) : (slotsOf t).length = width t := by
  cases t <;> rfl

theorem getElem?_slotsOf_zero (t : FlowType) : (slotsOf t)[0]? = some t := by
  cases t <;> rfl

theorem getElem?_slotsOf_one {t : FlowType} (wide : width t = 2) : (slotsOf t)[1]? = some .top := by
  rw [slotsOf, if_pos wide]
  rfl

def parameterSlots (ps : List FieldType) : List FlowType := ps.flatMap fun t => slotsOf (.ofField t)

theorem length_parameterSlots (ps : List FieldType) : (parameterSlots ps).length = totalWidth ps := by
  induction ps with
  | nil => rfl
  | cons t ps ih =>
    rw [parameterSlots, List.flatMap_cons, List.length_append, ← parameterSlots, ih, length_slotsOf,
      VerificationType.width_ofField, totalWidth]

theorem getElem?_parameterSlots (there : ps[k]? = some t) (own : i < width t) :
    (parameterSlots ps)[totalWidth (ps.take k) + i]? = (slotsOf (.ofField t))[i]? := by
  obtain ⟨short, rfl⟩ := List.getElem?_eq_some_iff.1 there
  have split : parameterSlots ps = parameterSlots (ps.take k) ++
      (slotsOf (.ofField ps[k]) ++ parameterSlots (ps.drop (k + 1))) := by
    unfold parameterSlots
    rw [← List.flatMap_cons (f := fun t => slotsOf (.ofField t)), ← List.drop_eq_getElem_cons short,
      ← List.flatMap_append, List.take_append_drop]
  rw [split, List.getElem?_append_right (by rw [length_parameterSlots]; omega), length_parameterSlots,
    Nat.add_sub_cancel_left,
    List.getElem?_append_left (by rwa [length_slotsOf, VerificationType.width_ofField])]

def receiverSlots (s : Signature) : Nat := if s.isStatic then 0 else 1

def parameterSlot (s : Signature) (k : Nat) : Nat :=
  s.receiverSlots + totalWidth (s.descriptor.parameters.take k)

structure IsEntryFrame (s : Signature) (maxLocals : Nat) (f : Frame) : Prop where
  length : f.locals.length = maxLocals
  receiver : s.isStatic = false → f.locals[0]? = some s.receiver
  parameter : ∀ k t, s.descriptor.parameters[k]? = some t →
    f.locals[s.parameterSlot k]? = some (.ofField t)
  second : ∀ k t, s.descriptor.parameters[k]? = some t → t = .base .long ∨ t = .base .double →
    f.locals[s.parameterSlot k + 1]? = some .top
  unused : ∀ i < maxLocals, (s.isStatic = false → i ≠ 0) →
    (∀ k < s.descriptor.parameters.length, i ≠ s.parameterSlot k) → f.locals[i]? = some .top
  stack : f.stack = []

theorem slots_eq (s : Signature) : s.descriptor.slots (!s.isStatic) =
    s.receiverSlots + totalWidth s.descriptor.parameters := by
  cases static : s.isStatic <;> simp [MethodDescriptor.slots, receiverSlots, static]

theorem entrySlots_eq (s : Signature) : ∃ first, s.entrySlots =
    first ++ parameterSlots s.descriptor.parameters ∧ first.length = s.receiverSlots ∧
      (s.isStatic = false → first = [s.receiver]) := by
  refine ⟨_, rfl, ?_, fun dynamic => if_neg (by simp [dynamic])⟩
  unfold receiverSlots
  split <;> rfl

theorem length_entrySlots (s : Signature) :
    s.entrySlots.length = s.descriptor.slots (!s.isStatic) := by
  obtain ⟨first, split, length, _⟩ := s.entrySlots_eq
  rw [split, List.length_append, length, length_parameterSlots, slots_eq]

theorem initialFrame_eq_ok : s.initialFrame maxLocals = .ok f ↔
    s.descriptor.slots (!s.isStatic) ≤ maxLocals.toNat ∧
      f = ⟨s.entrySlots ++ List.replicate (maxLocals.toNat - s.entrySlots.length) .top, []⟩ := by
  simp only [initialFrame, ← length_entrySlots]
  split
  next less => simp [Nat.not_le.2 less]
  next enough =>
    rw [Except.ok.injEq, eq_comm]
    simp [Nat.not_lt.1 enough]

theorem getElem?_entrySlots (there : s.descriptor.parameters[k]? = some t) (own : i < width t)
    (more : List FlowType) :
    (s.entrySlots ++ more)[s.parameterSlot k + i]? = (slotsOf (.ofField t))[i]? := by
  obtain ⟨first, split, length, _⟩ := s.entrySlots_eq
  have next := totalWidth_take_le s.descriptor.parameters (k + 1)
  rw [totalWidth_take_succ there] at next
  rw [List.getElem?_append_left (by rw [length_entrySlots, slots_eq, parameterSlot]; omega), split,
    List.getElem?_append_right (by rw [length, parameterSlot]; omega), length, parameterSlot,
    Nat.add_assoc, Nat.add_sub_cancel_left, getElem?_parameterSlots there own]

theorem exists_second (given : i < s.entrySlots.length) (other : s.isStatic = false → i ≠ 0)
    (apart : ∀ k < s.descriptor.parameters.length, i ≠ s.parameterSlot k) :
    ∃ k t, s.descriptor.parameters[k]? = some t ∧ width t = 2 ∧ i = s.parameterSlot k + 1 := by
  have behind : s.receiverSlots ≤ i := by
    unfold receiverSlots
    split
    next => exact Nat.zero_le i
    next dynamic => exact Nat.pos_of_ne_zero (other (by simpa using dynamic))
  rw [length_entrySlots, slots_eq] at given
  obtain ⟨k, t, there, low, high⟩ := exists_of_lt_totalWidth
    (show i - s.receiverSlots < totalWidth s.descriptor.parameters by omega)
  -- Of the slots of this parameter the first is ruled out, and there are at most two.
  have start := apart k (List.getElem?_eq_some_iff.1 there).1
  have narrow := t.width_cases
  rw [parameterSlot] at start
  exact ⟨k, t, there, by omega, by rw [parameterSlot]; omega⟩

theorem isEntryFrame_of_ok (ok : s.initialFrame maxLocals = .ok f) :
    s.IsEntryFrame maxLocals.toNat f := by
  obtain ⟨enough, rfl⟩ := initialFrame_eq_ok.1 ok
  have second {k : Nat} {t : FieldType} (there : s.descriptor.parameters[k]? = some t)
      (wide : width t = 2) (more : List FlowType) :
      (s.entrySlots ++ more)[s.parameterSlot k + 1]? = some .top := by
    rw [getElem?_entrySlots there (by omega),
      getElem?_slotsOf_one (by rwa [VerificationType.width_ofField])]
  refine ⟨?_, ?_, fun k t there => ?_, fun k t there wide => second there (FieldType.width_eq_two.2 wide) _,
    fun i inside other apart => ?_, rfl⟩
  · rw [← length_entrySlots] at enough
    rw [List.length_append, List.length_replicate]
    omega
  · intro dynamic
    obtain ⟨first, split, _, receiver⟩ := s.entrySlots_eq
    rw [split, receiver dynamic]
    rfl
  · have some : 0 < width t := by
      have := t.width_cases
      omega
    simpa only [getElem?_slotsOf_zero, Nat.add_zero] using
      getElem?_entrySlots (s := s) there some _
  · by_cases given : i < s.entrySlots.length
    · obtain ⟨k, t, there, wide, rfl⟩ := exists_second given other apart
      exact second there wide _
    · rw [List.getElem?_append_right (by omega)]
      exact List.getElem?_replicate_of_lt (by omega)

/-- The frame on entry exists if and only if the slots of the parameters, with the receiver if there is
one, are no more than the locals. -/
theorem initialFrame_fits (s : Signature) (maxLocals : UInt16) :
    ((∃ f, s.initialFrame maxLocals = .ok f) ↔
      s.descriptor.slots (!s.isStatic) ≤ maxLocals.toNat) ∧
    (maxLocals.toNat < s.descriptor.slots (!s.isStatic) →
      s.initialFrame maxLocals = .error (.type 0 .methodEntry (.invalidSlot maxLocals))) ∧
    ∀ f, s.initialFrame maxLocals = .ok f → s.IsEntryFrame maxLocals.toNat f := by
  refine ⟨?_, fun less => ?_, fun f => isEntryFrame_of_ok⟩
  · simp [initialFrame_eq_ok]
  · rw [← length_entrySlots] at less
    rw [initialFrame, if_pos less]

def building : Signature where
  owner := .throwable
  name := "<init>"
  descriptor := ⟨[.base .long, .ref (.object .string), .base .double], none⟩
  isStatic := false

theorem initialFrame_fits_building :
    building.IsEntryFrame 7 ⟨[.uninitializedThis, .long, .top, .object (.object .string), .double, .top,
      .top], []⟩ ∧
    building.initialFrame 5 = .error (.type 0 .methodEntry (.invalidSlot 5)) ∧
    ∃ f, building.initialFrame 6 = .ok f :=
  ⟨(initialFrame_fits building 7).2.2 _ rfl, (initialFrame_fits building 5).2.1 (by decide),
    (initialFrame_fits building 6).1.2 (by decide)⟩

end Signature

end StackMaps
