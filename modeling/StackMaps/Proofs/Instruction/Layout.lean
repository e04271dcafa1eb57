import Mathlib.Tactic.IntervalCases
import StackMaps.Proofs.Instruction.Code
import StackMaps.Proofs.Instruction.Operands

/-! A code array is read as the instructions it is a layout of, and every layout is read, as long as
its jumps lead to the starts of instructions. -/

namespace StackMaps

namespace Straight

variable {s : Straight} {opcode : UInt8}

theorem opcode?_of_ofOpcode? (found : ofOpcode? opcode = some s) : s.opcode? = some opcode := by
  have all : ∀ n < 256, ∀ s ∈ ofOpcode? (UInt8.ofNat n), s.opcode? = some (UInt8.ofNat n) := by
    decide +kernel
  have each := all opcode.toNat opcode.toNat_lt
  rw [UInt8.ofNat_toNat] at each
  exact each s found

theorem ofOpcode?_const {kind : Numeric} {value : Int}
    (found : kind.constOpcode? value = some opcode) :
    ofOpcode? opcode = some (.const kind value) := by
  unfold Numeric.constOpcode? at found
  cases kind <;> simp only [Option.ite_none_right_eq_some, Option.some.injEq] at found <;>
    (obtain ⟨⟨least, most⟩, rfl⟩ := found; interval_cases value <;> rfl)

theorem ofOpcode?_of_opcode? (found : s.opcode? = some opcode) : ofOpcode? opcode = some s := by
  have short : ∀ slot : UInt16, slot < 4 → slot = 0 ∨ slot = 1 ∨ slot = 2 ∨ slot = 3 := by
    intro slot less
    simp only [← UInt16.toNat_inj, UInt16.lt_iff_toNat_lt] at less ⊢
    simp at less ⊢
    omega
  cases s with
  | const kind value => exact ofOpcode?_const found
  | load kind slot | store kind slot =>
    simp only [opcode?, Option.ite_none_right_eq_some, Option.some.injEq] at found
    obtain ⟨less, rfl⟩ := found
    obtain rfl | rfl | rfl | rfl := short slot less <;>
      (cases kind with
        | reference => rfl
        | numeric n => cases n <;> rfl)
  | arrayLoad kind | arrayStore kind =>
    cases found
    cases kind with
    | numeric n => cases n <;> rfl
    | _ => rfl
  | stack op | negate op | narrow op => cases found; cases op <;> rfl
  | arithmetic kind op | shift kind op | bitwise kind op | compareFloating kind op =>
    cases found
    cases kind <;> cases op <;> rfl
  | convert source target => cases source <;> cases target <;> cases found <;> rfl
  | nop | constNull | compareLong | arrayLength | monitorEnter | monitorExit =>
    cases found
    rfl
  | _ => cases found

theorem slotted?_of_ofSlotOpcode? {slot : UInt16} (found : ofSlotOpcode? slot opcode = some s) :
    s.slotted? = some (opcode, slot) := by
  unfold ofSlotOpcode? at found
  split at found <;> cases found <;> rfl

end Straight

theorem Branch.opcode?_of_ofOpcode? {b : Branch} {opcode : UInt8}
    (found : ofOpcode? opcode = some b) : b.opcode? = some opcode := by
  unfold ofOpcode? at found
  split at found <;> cases found <;> rfl

theorem Comparison.ordinal_of_ofOpcode? {c : Comparison} {opcode first : UInt8}
    (found : ofOpcode? (opcode - first) = some c) : first + c.ordinal = opcode := by
  have same : c.ordinal = opcode - first := by
    generalize opcode - first = difference at found
    unfold ofOpcode? at found
    split at found <;> cases found <;> rfl
  rw [same, UInt8.add_comm, UInt8.sub_add_cancel]

theorem BaseType.arrayCode_of_ofArrayCode? {element : BaseType} {code : UInt8}
    (found : ofArrayCode? code = some element) : element.arrayCode = code := by
  unfold ofArrayCode? at found
  split at found <;> cases found <;> rfl

theorem encodeInt32_of_nonneg {count : Int32} (least : 0 ≤ count.toInt) :
    encodeInt32 count = bigEndian 4 count.toInt.toNat := by
  have same : count.toUInt32.toNat = count.toInt.toNat := by
    have bits : count.toInt = (count.toUInt32.toNat : Int).bmod (2 ^ 32) := by
      rw [← Int32.toInt_toBitVec, BitVec.toInt_eq_toNat_bmod]
      rfl
    have small := count.toUInt32.toNat_lt
    rw [Int.bmod_def] at bits
    omega
  rw [encodeInt32, encodeUInt32, same]

theorem length_flatMap_of_forall {α : Type} {encode : α → List UInt8} {width : Nat}
    (wide : ∀ a, (encode a).length = width) (as : List α) :
    (as.flatMap encode).length = as.length * width := by
  simp [List.length_flatMap, wide]

theorem forall₂_and_of_mem {α β : Type} {R : α → β → Prop} {P : β → Prop} {as : List α}
    {bs : List β} (each : List.Forall₂ R as bs) (holds : ∀ b ∈ bs, P b) :
    List.Forall₂ (fun a b => R a b ∧ P b) as bs := by
  induction each with
  | nil => exact .nil
  | cons first _ ih =>
    obtain ⟨own, holds⟩ := List.forall_mem_cons.1 holds
    exact .cons ⟨first, own⟩ (ih holds)

namespace Instruction

open CodeReader

variable {length here offset next : Nat} {opcode : UInt8} {input rest : List UInt8} {s : Straight}
  {b : Branch} {i : Instruction}

theorem wideReader_written (ok : wideReader ⟨offset, input⟩ = .ok (s, ⟨next, rest⟩)) :
    ∃ operands, input = operands ++ rest ∧ next = offset + operands.length ∧
      s.Written (0xc4 :: operands) := by
  obtain ⟨_, ⟨_, _⟩, first, ok⟩ := IsLocal.bind_eq_ok.1 ok
  obtain ⟨opcode, rfl, rfl, rfl⟩ := readsAs_uint8.1 first
  by_cases increment : opcode = 0x84
  · subst increment
    obtain ⟨_, ⟨_, _⟩, second, ok⟩ := IsLocal.bind_eq_ok.1 ok
    obtain ⟨slot, rfl, rfl, rfl⟩ := readsAs_uint16.1 second
    obtain ⟨_, ⟨_, _⟩, third, ok⟩ := IsLocal.bind_eq_ok.1 ok
    obtain ⟨amount, rfl, rfl, rfl⟩ := readsAs_int16.1 third
    cases ok
    exact ⟨0x84 :: (encodeUInt16 slot ++ encodeInt16 amount), by simp, by simp; omega,
      .wideIncrement slot amount⟩
  · rw [if_neg increment] at ok
    by_cases ret : opcode = 0xa9
    · rw [if_pos ret] at ok
      cases ok
    · rw [if_neg ret] at ok
      cases known : Straight.ofSlotOpcode? 0 opcode with
      | none =>
        rw [known] at ok
        cases ok
      | some _ =>
        rw [known] at ok
        obtain ⟨_, ⟨_, _⟩, second, ok⟩ := IsLocal.bind_eq_ok.1 ok
        obtain ⟨slot, rfl, rfl, rfl⟩ := readsAs_uint16.1 second
        cases found : Straight.ofSlotOpcode? slot opcode with
        | none =>
          rw [found] at ok
          cases ok
        | some s =>
          rw [found] at ok
          cases ok
          exact ⟨opcode :: encodeUInt16 slot, rfl, by simp,
            .wideSlotted (Straight.slotted?_of_ofSlotOpcode? found)⟩

theorem newArrayReader_written (ok : newArrayReader ⟨offset, input⟩ = .ok (s, ⟨next, rest⟩)) :
    ∃ operands, input = operands ++ rest ∧ next = offset + operands.length ∧
      s.Written (0xbc :: operands) := by
  obtain ⟨_, ⟨_, _⟩, first, ok⟩ := IsLocal.bind_eq_ok.1 ok
  obtain ⟨code, rfl, rfl, rfl⟩ := readsAs_uint8.1 first
  cases found : BaseType.ofArrayCode? code with
  | none =>
    rw [found] at ok
    cases ok
  | some element =>
    rw [found] at ok
    cases ok
    obtain rfl := BaseType.arrayCode_of_ofArrayCode? found
    exact ⟨[element.arrayCode], rfl, rfl, .newArray element⟩

theorem straight_written {r : CodeReader Straight} (is : straightReader? opcode = some r)
    (ok : r ⟨offset, input⟩ = .ok (s, ⟨next, rest⟩)) :
    ∃ operands, input = operands ++ rest ∧ next = offset + operands.length ∧
      s.Written (opcode :: operands) := by
  have indexed {opcode} {f : ConstantIndex → Straight} (is : ∀ i, (f i).indexed? = some (opcode, i))
      (ok : (f <$> uint16) ⟨offset, input⟩ = .ok (s, ⟨next, rest⟩)) :
      ∃ operands, input = operands ++ rest ∧ next = offset + operands.length ∧
        s.Written (opcode :: operands) := by
    obtain ⟨i, ⟨_, rfl, rfl⟩, taken, place⟩ := (readsAs_uint16.map f).1 ok
    exact ⟨_, taken, place, .indexed (is i)⟩
  unfold straightReader? at is
  split at is <;> cases is
  -- most operands are the index of a constant
  all_goals try exact indexed (fun _ => rfl) ok
  next =>
    obtain ⟨v, ⟨_, rfl, rfl⟩, taken, place⟩ := (readsAs_int8.map _).1 ok
    exact ⟨_, taken, place, .pushByte v⟩
  next =>
    obtain ⟨v, ⟨_, rfl, rfl⟩, taken, place⟩ := (readsAs_int16.map _).1 ok
    exact ⟨_, taken, place, .pushShort v⟩
  next =>
    obtain ⟨v, ⟨_, rfl, rfl⟩, taken, place⟩ := (readsAs_uint8.map _).1 ok
    exact ⟨_, taken, place, .loadConstant v⟩
  next =>
    have reads := readsAs_uint8.bind fun slot => readsAs_int8.map fun amount : Int8 =>
      Straight.increment slot.toUInt16 amount.toInt16
    obtain ⟨⟨slot, amount⟩, ⟨_, rfl, _, rfl, rfl⟩, taken, place⟩ := reads.1 ok
    exact ⟨_, taken, place, .increment slot amount⟩
  next =>
    have reads := readsAs_uint16.bind fun method => readsAs_uint8.bind fun slots =>
      readsAs_uint8.map fun _ : UInt8 => Straight.invoke (.interface slots) method
    obtain ⟨⟨method, slots, ignored⟩, ⟨_, rfl, _, rfl, _, rfl, rfl⟩, taken, place⟩ := reads.1 ok
    exact ⟨_, taken, place, .invokeInterface method slots ignored⟩
  next =>
    have reads := readsAs_uint16.bind fun site =>
      readsAs_uint16.map fun _ : UInt16 => Straight.invokeDynamic site
    obtain ⟨⟨site, ignored⟩, ⟨_, rfl, _, rfl, rfl⟩, taken, place⟩ := reads.1 ok
    exact ⟨_, taken, place, .invokeDynamic site ignored⟩
  next => exact newArrayReader_written ok
  next => exact wideReader_written ok
  next =>
    have reads := readsAs_uint16.bind fun type => readsAs_uint8.map fun dimensions : UInt8 =>
      Straight.newMultiArray type dimensions
    obtain ⟨⟨type, dimensions⟩, ⟨_, rfl, _, rfl, rfl⟩, taken, place⟩ := reads.1 ok
    exact ⟨_, taken, place, .newMultiArray type dimensions⟩

theorem tableSwitch_written (ok : tableSwitchReader length here ⟨here + 1, input⟩ = .ok (b, ⟨next, rest⟩)) :
    ∃ operands, input = operands ++ rest ∧ next = here + 1 + operands.length ∧
      b.Written here (0xaa :: operands) := by
  obtain ⟨_, ⟨_, _⟩, aligned, ok⟩ := IsLocal.bind_eq_ok.1 ok
  obtain ⟨padding, pads, rfl, rfl⟩ := align_eq_ok.1 aligned
  obtain ⟨default, ⟨_, _⟩, first, ok⟩ := IsLocal.bind_eq_ok.1 ok
  obtain ⟨distance, ⟨leads, _⟩, rfl, rfl⟩ := readsAs_wideTarget.1 first
  obtain ⟨_, ⟨_, _⟩, second, ok⟩ := IsLocal.bind_eq_ok.1 ok
  obtain ⟨low, rfl, rfl, rfl⟩ := readsAs_int32.1 second
  obtain ⟨_, ⟨_, _⟩, third, ok⟩ := IsLocal.bind_eq_ok.1 ok
  obtain ⟨high, rfl, rfl, rfl⟩ := readsAs_int32.1 third
  by_cases order : high < low
  · rw [if_pos order] at ok
    cases ok
  · rw [if_neg order] at ok
    obtain ⟨_, ⟨_, _⟩, required, ok⟩ := IsLocal.bind_eq_ok.1 ok
    obtain ⟨_, same⟩ := require_eq_ok.1 required
    cases same
    obtain ⟨targets, ⟨_, _⟩, items, ok⟩ := IsLocal.bind_eq_ok.1 ok
    obtain ⟨distances, ⟨size, each⟩, rfl, rfl⟩ := (readsAs_wideTarget.times _).1 items
    cases ok
    have order : low ≤ high := Int32.not_lt.1 order
    have signed := Int32.le_iff_toInt_le.1 order
    refine ⟨padding ++ (encodeInt32 distance ++ (encodeInt32 low ++ (encodeInt32 high ++
      distances.flatMap encodeInt32))), by simp, ?_,
      .tableSwitch pads leads order (by omega) (each.imp fun _ _ => And.left)⟩
    simp only [List.length_append]
    omega

theorem lookupSwitch_written
    (ok : lookupSwitchReader length here ⟨here + 1, input⟩ = .ok (b, ⟨next, rest⟩)) :
    ∃ operands, input = operands ++ rest ∧ next = here + 1 + operands.length ∧
      b.Written here (0xab :: operands) := by
  obtain ⟨_, ⟨_, _⟩, aligned, ok⟩ := IsLocal.bind_eq_ok.1 ok
  obtain ⟨padding, pads, rfl, rfl⟩ := align_eq_ok.1 aligned
  obtain ⟨default, ⟨_, _⟩, first, ok⟩ := IsLocal.bind_eq_ok.1 ok
  obtain ⟨distance, ⟨leads, _⟩, rfl, rfl⟩ := readsAs_wideTarget.1 first
  obtain ⟨_, ⟨_, _⟩, second, ok⟩ := IsLocal.bind_eq_ok.1 ok
  obtain ⟨count, rfl, rfl, rfl⟩ := readsAs_int32.1 second
  by_cases negative : count < 0
  · rw [if_pos negative] at ok
    cases ok
  · rw [if_neg negative] at ok
    obtain ⟨_, ⟨_, _⟩, required, ok⟩ := IsLocal.bind_eq_ok.1 ok
    obtain ⟨_, same⟩ := require_eq_ok.1 required
    cases same
    obtain ⟨targets, ⟨_, _⟩, items, ok⟩ := IsLocal.bind_eq_ok.1 ok
    obtain ⟨distances, ⟨size, each⟩, rfl, rfl⟩ := (readsAs_lookupCase.times _).1 items
    cases ok
    have least : 0 ≤ count.toInt := Int32.le_iff_toInt_le.1 (Int32.not_lt.1 negative)
    have most := count.toInt_lt
    refine ⟨padding ++ (encodeInt32 distance ++ (bigEndian 4 distances.length ++
      distances.flatMap fun d => encodeInt32 d.1 ++ encodeInt32 d.2)), ?_, ?_,
      .lookupSwitch pads leads (by omega) (each.imp fun _ _ => And.left)⟩
    · simp [size, encodeInt32_of_nonneg least]
    · simp only [List.length_append, size, encodeInt32_of_nonneg least]
      omega

theorem branch_written {r : CodeReader Branch} (is : branchReader? length here opcode = some r)
    (ok : r ⟨here + 1, input⟩ = .ok (b, ⟨next, rest⟩)) :
    ∃ operands, input = operands ++ rest ∧ next = here + 1 + operands.length ∧
      b.Written here (opcode :: operands) := by
  have jump {opcode} {f : Nat → Branch} (is : ∀ target, (f target).jump? = some (opcode, target))
      (ok : (f <$> shortTarget length here) ⟨here + 1, input⟩ = .ok (b, ⟨next, rest⟩)) :
      ∃ operands, input = operands ++ rest ∧ next = here + 1 + operands.length ∧
        b.Written here (opcode :: operands) := by
    obtain ⟨distance, ⟨target, ⟨leads, _⟩, rfl⟩, taken, place⟩ := (readsAs_shortTarget.map f).1 ok
    exact ⟨_, taken, place, .jump (is target) leads⟩
  unfold branchReader? at is
  split at is
  next =>
    obtain ⟨c, found, rfl⟩ := Option.map_eq_some_iff.1 is
    obtain rfl := Comparison.ordinal_of_ofOpcode? found
    exact jump (fun _ => rfl) ok
  next =>
    split at is
    next =>
      obtain ⟨c, found, rfl⟩ := Option.map_eq_some_iff.1 is
      obtain rfl := Comparison.ordinal_of_ofOpcode? found
      exact jump (fun _ => rfl) ok
    next =>
      split at is <;> cases is
      all_goals try exact jump (fun _ => rfl) ok
      next => exact tableSwitch_written ok
      next => exact lookupSwitch_written ok
      next =>
        obtain ⟨distance, ⟨target, ⟨leads, _⟩, rfl⟩, taken, place⟩ :=
          (readsAs_wideTarget.map _).1 ok
        exact ⟨_, taken, place, .wideGoto leads⟩

theorem reader_written (ok : reader length here ⟨here, input⟩ = .ok (i, ⟨next, rest⟩)) :
    ∃ taken, input = taken ++ rest ∧ next = here + taken.length ∧ i.Written here taken := by
  obtain ⟨_, ⟨_, _⟩, first, ok⟩ := IsLocal.bind_eq_ok.1 ok
  obtain ⟨opcode, rfl, rfl, rfl⟩ := readsAs_uint8.1 first
  have whole {operands : List UInt8} (written : i.Written here (opcode :: operands))
      (place : next = here + 1 + operands.length) : ∃ taken, opcode :: (operands ++ rest) =
        taken ++ rest ∧ next = here + taken.length ∧ i.Written here taken :=
    ⟨opcode :: operands, rfl, by rw [place, List.length_cons]; omega, written⟩
  -- the kinds of opcodes in the order in which they are tried
  cases plain : Straight.ofOpcode? opcode with
  | some s =>
    rw [plain] at ok
    cases ok
    exact ⟨[opcode], rfl, rfl, .straight (.plain (Straight.opcode?_of_ofOpcode? plain))⟩
  | none =>
    rw [plain] at ok
    cases leaves : Branch.ofOpcode? opcode with
    | some b =>
      rw [leaves] at ok
      cases ok
      exact ⟨[opcode], rfl, rfl, .branch (.plain (Branch.opcode?_of_ofOpcode? leaves))⟩
    | none =>
      rw [leaves] at ok
      cases slotted : Straight.ofSlotOpcode? 0 opcode with
      | some _ =>
        rw [slotted] at ok
        obtain ⟨_, ⟨_, _⟩, second, ok⟩ := IsLocal.bind_eq_ok.1 ok
        obtain ⟨slot, rfl, rfl, rfl⟩ := readsAs_uint8.1 second
        cases found : Straight.ofSlotOpcode? slot.toUInt16 opcode with
        | none =>
          rw [found] at ok
          cases ok
        | some s =>
          rw [found] at ok
          cases ok
          exact ⟨[opcode, slot], rfl, rfl,
            .straight (.slotted (Straight.slotted?_of_ofSlotOpcode? found))⟩
      | none =>
        rw [slotted] at ok
        cases straight : straightReader? opcode with
        | some r =>
          rw [straight] at ok
          obtain ⟨s, ran, rfl⟩ := CodeReader.map_eq_ok.1 ok
          obtain ⟨operands, rfl, rfl, written⟩ := straight_written straight ran
          exact whole (.straight written) rfl
        | none =>
          rw [straight] at ok
          cases branch : branchReader? length here opcode with
          | some r =>
            rw [branch] at ok
            obtain ⟨b, ran, rfl⟩ := CodeReader.map_eq_ok.1 ok
            obtain ⟨operands, rfl, rfl, written⟩ := branch_written branch ran
            exact whole (.branch written) rfl
          | none =>
            rw [branch] at ok
            simp only at ok
            split at ok <;> cases ok

variable {taken operands : List UInt8}

theorem reader_straight {r : CodeReader Straight} (is : straightReader? opcode = some r)
    (ok : r ⟨here + 1, operands ++ rest⟩ = .ok (s, ⟨here + 1 + operands.length, rest⟩)) :
    reader length here ⟨here, opcode :: operands ++ rest⟩ =
      .ok (.straight s, ⟨here + (opcode :: operands).length, rest⟩) := by
  have same : reader length here ⟨here, opcode :: operands ++ rest⟩ =
      (Instruction.straight <$> r) ⟨here + 1, operands ++ rest⟩ := by
    unfold straightReader? at is
    split at is <;> cases is <;> rfl
  rw [Nat.add_right_comm] at ok
  rw [same]
  exact CodeReader.map_eq_ok.2 ⟨s, ok, rfl⟩

theorem straight_read (written : s.Written taken) :
    reader length here ⟨here, taken ++ rest⟩ = .ok (.straight s, ⟨here + taken.length, rest⟩) := by
  cases written with
  | @plain _ opcode is =>
    refine IsLocal.bind_eq_ok.2 ⟨opcode, ⟨here + 1, rest⟩, rfl, ?_⟩
    rw [Straight.ofOpcode?_of_opcode? is]
    rfl
  | @slotted _ opcode slot is =>
    cases s with
    | load kind slot | store kind slot =>
      cases is
      cases kind with
      | numeric n => cases n <;> rfl
      | reference => rfl
    | _ => cases is
  | @indexed _ opcode index is =>
    have ok {f : ConstantIndex → Straight} : (f <$> uint16) ⟨here + 1, encodeUInt16 index ++ rest⟩ =
        .ok (f index, ⟨here + 1 + (encodeUInt16 index).length, rest⟩) :=
      (readsAs_uint16.map f).2 ⟨index, ⟨index, rfl, rfl⟩, rfl, rfl⟩
    unfold Straight.indexed? at is
    split at is <;> cases is <;> exact reader_straight rfl ok
  | pushByte v => exact reader_straight rfl ((readsAs_int8.map _).2 ⟨v, ⟨_, rfl, rfl⟩, rfl, rfl⟩)
  | pushShort v => exact reader_straight rfl ((readsAs_int16.map _).2 ⟨v, ⟨_, rfl, rfl⟩, rfl, rfl⟩)
  | loadConstant index =>
    exact reader_straight rfl ((readsAs_uint8.map _).2 ⟨index, ⟨_, rfl, rfl⟩, rfl, rfl⟩)
  | @wideSlotted _ opcode slot is =>
    have operand : uint16 ⟨here + 2, encodeUInt16 slot ++ rest⟩ =
        .ok (slot, ⟨here + 2 + (encodeUInt16 slot).length, rest⟩) :=
      readsAs_uint16.2 ⟨slot, rfl, rfl, rfl⟩
    refine reader_straight rfl (IsLocal.bind_eq_ok.2 ⟨opcode, ⟨here + 2, _⟩, rfl, ?_⟩)
    cases s with
    | load kind slot | store kind slot =>
      cases is
      cases kind with
      | numeric n => cases n <;> exact IsLocal.bind_eq_ok.2 ⟨slot, _, operand, rfl⟩
      | reference => exact IsLocal.bind_eq_ok.2 ⟨slot, _, operand, rfl⟩
    | _ => cases is
  | increment slot amount =>
    have reads := readsAs_uint8.bind fun slot => readsAs_int8.map fun amount : Int8 =>
      Straight.increment slot.toUInt16 amount.toInt16
    exact reader_straight rfl (reads.2 ⟨(slot, amount), ⟨_, rfl, _, rfl, rfl⟩, rfl, rfl⟩)
  | wideIncrement slot amount =>
    have reads := readsAs_uint16.bind fun slot => readsAs_int16.map (Straight.increment slot)
    refine reader_straight rfl (IsLocal.bind_eq_ok.2 ⟨0x84, ⟨here + 2, _⟩, rfl, ?_⟩)
    exact reads.2 ⟨(slot, amount), ⟨_, rfl, _, rfl, rfl⟩, rfl, rfl⟩
  | invokeInterface method slots ignored =>
    have reads := readsAs_uint16.bind fun method => readsAs_uint8.bind fun slots =>
      readsAs_uint8.map fun _ : UInt8 => Straight.invoke (.interface slots) method
    exact reader_straight rfl
      (reads.2 ⟨(method, slots, ignored), ⟨_, rfl, _, rfl, _, rfl, rfl⟩, rfl, rfl⟩)
  | invokeDynamic site ignored =>
    have reads := readsAs_uint16.bind fun site =>
      readsAs_uint16.map fun _ : UInt16 => Straight.invokeDynamic site
    exact reader_straight rfl (reads.2 ⟨(site, ignored), ⟨_, rfl, _, rfl, rfl⟩, rfl, rfl⟩)
  | newArray element => cases element <;> rfl
  | newMultiArray type dimensions =>
    have reads := readsAs_uint16.bind fun type => readsAs_uint8.map fun dimensions : UInt8 =>
      Straight.newMultiArray type dimensions
    exact reader_straight rfl (reads.2 ⟨(type, dimensions), ⟨_, rfl, _, rfl, rfl⟩, rfl, rfl⟩)

theorem reader_branch {r : CodeReader Branch} (plain : Straight.ofOpcode? opcode = none)
    (leaves : Branch.ofOpcode? opcode = none) (slotted : Straight.ofSlotOpcode? 0 opcode = none)
    (straight : straightReader? opcode = none) (is : branchReader? length here opcode = some r)
    (ok : r ⟨here + 1, operands ++ rest⟩ = .ok (b, ⟨here + 1 + operands.length, rest⟩)) :
    reader length here ⟨here, opcode :: operands ++ rest⟩ =
      .ok (.branch b, ⟨here + (opcode :: operands).length, rest⟩) := by
  refine IsLocal.bind_eq_ok.2 ⟨opcode, ⟨here + 1, operands ++ rest⟩, rfl, ?_⟩
  rw [plain, leaves, slotted, straight, is]
  rw [Nat.add_right_comm] at ok
  exact CodeReader.map_eq_ok.2 ⟨b, ok, rfl⟩

theorem jump_read {target : Nat} {distance : Int16} (is : b.jump? = some (opcode, target))
    (leads : Leads here distance.toInt target) (inside : target < length) :
    reader length here ⟨here, opcode :: encodeInt16 distance ++ rest⟩ =
      .ok (.branch b, ⟨here + (opcode :: encodeInt16 distance).length, rest⟩) := by
  have ok {f : Nat → Branch} : (f <$> shortTarget length here) ⟨here + 1, encodeInt16 distance ++ rest⟩ =
      .ok (f target, ⟨here + 1 + (encodeInt16 distance).length, rest⟩) :=
    (readsAs_shortTarget.map f).2 ⟨distance, ⟨target, ⟨leads, inside⟩, rfl⟩, rfl, rfl⟩
  cases b with
  | ifInt c target | ifInts c target | ifReferences c target | ifNull c target =>
    cases is
    cases c <;> exact reader_branch rfl rfl rfl rfl rfl ok
  | goto target =>
    cases is
    exact reader_branch rfl rfl rfl rfl rfl ok
  | _ => cases is

theorem tableSwitch_read {padding : List UInt8} {default : Nat} {distance low high : Int32}
    {targets : List Nat} {distances : List Int32} (pads : Pads (here + 1) padding)
    (leads : Leads here distance.toInt default) (order : low ≤ high)
    (count : (distances.length : Int) = high.toInt - low.toInt + 1)
    (each : List.Forall₂ (fun d t => Leads here d.toInt t) distances targets)
    (inside : ∀ target ∈ default :: targets, target < length)
    (written : operands = padding ++ (encodeInt32 distance ++ (encodeInt32 low ++
      (encodeInt32 high ++ distances.flatMap encodeInt32))))
    (room : here + 1 + operands.length ≤ length) :
    tableSwitchReader length here ⟨here + 1, operands ++ rest⟩ =
      .ok (.tableSwitch default low targets, ⟨here + 1 + operands.length, rest⟩) := by
  obtain ⟨first, inside⟩ := List.forall_mem_cons.1 inside
  have items : (distances.flatMap encodeInt32).length = distances.length * 4 :=
    length_flatMap_of_forall (fun _ => length_bigEndian 4 _) _
  have place : here + 1 + operands.length = here + 1 + padding.length +
      (encodeInt32 distance).length + (encodeInt32 low).length + (encodeInt32 high).length +
        (distances.flatMap encodeInt32).length := by
    simp only [written, List.length_append]
    omega
  have signed := Int32.le_iff_toInt_le.1 order
  rw [place] at room ⊢
  rw [written]
  simp only [List.append_assoc]
  refine IsLocal.bind_eq_ok.2 ⟨(), ⟨_, _⟩, align_eq_ok.2 ⟨padding, pads, rfl, rfl⟩, ?_⟩
  refine IsLocal.bind_eq_ok.2 ⟨default, ⟨_, _⟩,
    readsAs_wideTarget.2 ⟨distance, ⟨leads, first⟩, rfl, rfl⟩, ?_⟩
  refine IsLocal.bind_eq_ok.2 ⟨low, ⟨_, _⟩, readsAs_int32.2 ⟨low, rfl, rfl, rfl⟩, ?_⟩
  refine IsLocal.bind_eq_ok.2 ⟨high, ⟨_, _⟩, readsAs_int32.2 ⟨high, rfl, rfl, rfl⟩, ?_⟩
  rw [if_neg (Int32.not_lt.2 order)]
  refine IsLocal.bind_eq_ok.2 ⟨(), _, require_eq_ok.2 ⟨by simp only; omega, rfl⟩, ?_⟩
  have landing : List.Forall₂ (fun d t => Leads here d.toInt t ∧ t < length) distances targets :=
    forall₂_and_of_mem each inside
  exact IsLocal.bind_eq_ok.2 ⟨targets, ⟨_, _⟩,
    (readsAs_wideTarget.times _).2 ⟨distances, ⟨by omega, landing⟩, rfl, rfl⟩, rfl⟩

theorem lookupSwitch_read {padding : List UInt8} {default : Nat} {distance : Int32}
    {targets : List (Int32 × Nat)} {distances : List (Int32 × Int32)}
    (pads : Pads (here + 1) padding) (leads : Leads here distance.toInt default)
    (few : distances.length < 2 ^ 31)
    (each : List.Forall₂ (fun d t => d.1 = t.1 ∧ Leads here d.2.toInt t.2) distances targets)
    (inside : ∀ target ∈ default :: targets.map (·.2), target < length)
    (written : operands = padding ++ (encodeInt32 distance ++ (bigEndian 4 distances.length ++
      distances.flatMap fun d => encodeInt32 d.1 ++ encodeInt32 d.2)))
    (room : here + 1 + operands.length ≤ length) :
    lookupSwitchReader length here ⟨here + 1, operands ++ rest⟩ =
      .ok (.lookupSwitch default targets, ⟨here + 1 + operands.length, rest⟩) := by
  obtain ⟨first, inside⟩ := List.forall_mem_cons.1 inside
  have number : (Int32.ofNat distances.length).toInt = distances.length := Int32.toInt_ofNat_of_lt few
  have count : bigEndian 4 distances.length = encodeInt32 (Int32.ofNat distances.length) := by
    rw [encodeInt32_of_nonneg (by omega), number, Int.toNat_natCast]
  have items : (distances.flatMap fun d => encodeInt32 d.1 ++ encodeInt32 d.2).length =
      distances.length * 8 := by
    refine length_flatMap_of_forall (fun d => ?_) _
    rw [List.length_append]
    exact congrArg₂ (· + ·) (length_bigEndian 4 _) (length_bigEndian 4 _)
  have place : here + 1 + operands.length = here + 1 + padding.length +
      (encodeInt32 distance).length + (encodeInt32 (Int32.ofNat distances.length)).length +
        (distances.flatMap fun d => encodeInt32 d.1 ++ encodeInt32 d.2).length := by
    simp only [written, count, List.length_append]
    omega
  have least : ¬ Int32.ofNat distances.length < 0 := by
    rw [Int32.not_lt, Int32.le_iff_toInt_le, number]
    exact Int.natCast_nonneg _
  rw [place] at room ⊢
  rw [written, count]
  simp only [List.append_assoc]
  refine IsLocal.bind_eq_ok.2 ⟨(), ⟨_, _⟩, align_eq_ok.2 ⟨padding, pads, rfl, rfl⟩, ?_⟩
  refine IsLocal.bind_eq_ok.2 ⟨default, ⟨_, _⟩,
    readsAs_wideTarget.2 ⟨distance, ⟨leads, first⟩, rfl, rfl⟩, ?_⟩
  refine IsLocal.bind_eq_ok.2 ⟨Int32.ofNat distances.length, ⟨_, _⟩,
    readsAs_int32.2 ⟨_, rfl, rfl, rfl⟩, ?_⟩
  rw [if_neg least, number, Int.toNat_natCast]
  refine IsLocal.bind_eq_ok.2 ⟨(), _, require_eq_ok.2 ⟨by simp only; omega, rfl⟩, ?_⟩
  have landing : List.Forall₂ (fun (d : Int32 × Int32) (t : Int32 × Nat) =>
      (d.1 = t.1 ∧ Leads here d.2.toInt t.2) ∧ t.2 < length) distances targets :=
    forall₂_and_of_mem each fun t there => inside _ (List.mem_map_of_mem there)
  exact IsLocal.bind_eq_ok.2 ⟨targets, ⟨_, _⟩,
    (readsAs_lookupCase.times _).2 ⟨distances, ⟨rfl, landing⟩, rfl, rfl⟩, rfl⟩

theorem branch_read (written : b.Written here taken) (inside : ∀ target ∈ b.targets, target < length)
    (room : here + taken.length ≤ length) :
    reader length here ⟨here, taken ++ rest⟩ = .ok (.branch b, ⟨here + taken.length, rest⟩) := by
  cases written with
  | @plain _ opcode is =>
    cases b with
    | returnValue kind =>
      cases is
      cases kind with
      | numeric n => cases n <;> rfl
      | reference => rfl
    | returnVoid | throw => cases is; rfl
    | _ => cases is
  | @jump _ opcode target distance is leads =>
    have jumps : target ∈ b.targets := by
      unfold Branch.jump? at is
      split at is <;> cases is <;> exact List.mem_cons_self
    exact jump_read is leads (inside target jumps)
  | @wideGoto target distance leads =>
    have below := inside target List.mem_cons_self
    exact reader_branch rfl rfl rfl rfl rfl ((readsAs_wideTarget.map Branch.goto).2
      ⟨distance, ⟨target, ⟨leads, below⟩, rfl⟩, rfl, rfl⟩)
  | tableSwitch pads leads order count each =>
    rw [List.length_cons, ← Nat.add_assoc, Nat.add_right_comm] at room
    exact reader_branch rfl rfl rfl rfl rfl
      (tableSwitch_read pads leads order count each inside rfl room)
  | lookupSwitch pads leads few each =>
    rw [List.length_cons, ← Nat.add_assoc, Nat.add_right_comm] at room
    exact reader_branch rfl rfl rfl rfl rfl
      (lookupSwitch_read pads leads few each inside rfl room)

theorem reader_read (written : i.Written here taken) (inside : ∀ target ∈ i.targets, target < length)
    (room : here + taken.length ≤ length) :
    reader length here ⟨here, taken ++ rest⟩ = .ok (i, ⟨here + taken.length, rest⟩) := by
  cases written with
  | straight written => exact straight_read written
  | branch written => exact branch_read written inside room

end Instruction

variable {offset length : Nat} {bytes : List UInt8} {code : List Located}

theorem Straight.Written.ne_nil {s : Straight} (written : s.Written bytes) : bytes ≠ [] := by
  cases written <;> simp

theorem Branch.Written.ne_nil {b : Branch} {here : Nat} (written : b.Written here bytes) :
    bytes ≠ [] := by
  cases written <;> simp

theorem Instruction.Written.ne_nil {i : Instruction} {here : Nat} (written : i.Written here bytes) :
    bytes ≠ [] := by
  cases written with
  | straight written => exact written.ne_nil
  | branch written => exact written.ne_nil

theorem Decodes.laid (decodes : Decodes length offset bytes code) : Laid offset bytes code := by
  induction decodes with
  | nil => exact .nil _
  | cons _ reads _ ih =>
    obtain ⟨taken', same, _, written⟩ := Instruction.reader_written (reads [])
    obtain rfl := List.append_inj_left' same rfl
    exact .cons written ih

theorem Laid.decodes (laid : Laid offset bytes code) (room : offset + bytes.length ≤ length)
    (inside : ∀ located ∈ code, ∀ target ∈ located.instruction.targets, target < length) :
    Decodes length offset bytes code := by
  induction laid with
  | nil => exact .nil _
  | cons written _ ih =>
    rw [List.length_append] at room
    have first := inside _ List.mem_cons_self
    refine .cons written.ne_nil (fun more => ?_) (ih (by omega) fun located there =>
      inside located (List.mem_cons_of_mem _ there))
    exact Instruction.reader_read written first (by omega)

theorem Laid.offset_lt (laid : Laid offset bytes code) {located : Located} (there : located ∈ code) :
    located.offset < offset + bytes.length := by
  induction laid with
  | nil => cases there
  | cons written _ ih =>
    have size := List.length_pos_iff.2 written.ne_nil
    rw [List.length_append]
    obtain rfl | there := List.mem_cons.1 there
    · simp only
      omega
    · have := ih there
      omega

theorem Laid.eq_nil_iff (laid : Laid offset bytes code) : bytes = [] ↔ code = [] := by
  cases laid with
  | nil => simp
  | cons written _ => simp [written.ne_nil]

/-- A code array is read as these instructions, at these offsets and with these targets, exactly if
they are laid out in it, one after the other from the start, and every jump leads to one of them. -/
theorem Instruction.decodeAll_iff_laid : decodeAll bytes = .ok code ↔
    code ≠ [] ∧ Laid 0 bytes code ∧
      ∀ located ∈ code, ∀ target ∈ located.instruction.targets,
        ∃ other ∈ code, other.offset = target := by
  rw [decodeAll_eq_ok]
  constructor
  · rintro ⟨nonempty, decodes, lands⟩
    exact ⟨fun none => nonempty (decodes.laid.eq_nil_iff.2 none), decodes.laid, lands⟩
  · rintro ⟨nonempty, laid, lands⟩
    refine ⟨fun none => nonempty (laid.eq_nil_iff.1 none), ?_, lands⟩
    refine laid.decodes (Nat.le_of_eq (Nat.zero_add _)) fun located there target jumps => ?_
    obtain ⟨other, there', rfl⟩ := lands located there target jumps
    exact Nat.zero_add bytes.length ▸ laid.offset_lt there'

end StackMaps
