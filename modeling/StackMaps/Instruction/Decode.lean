import Std.Data.TreeSet
import StackMaps.Instruction.Basic

/-!
Reading the instructions of a code array. An instruction is read from its first byte on; jumps are
written relative to it and switches are aligned to the start of the code.
-/

namespace StackMaps

inductive CodeFault
  | empty
  | truncated
  | unknownOpcode (opcode : UInt8)
  | badWideOpcode (opcode : UInt8)
  | badArrayType (code : UInt8)
  | badSwitchRange (low high : Int32)
  | badBranchTarget (target : Int)
  | unsupported (opcode : UInt8)
deriving DecidableEq, Repr

structure CodeError where
  offset : Nat
  fault : CodeFault
deriving DecidableEq, Repr

def CodeFault.text : CodeFault → String
  | empty => "EmptyCode"
  | truncated => "Truncated"
  | unknownOpcode opcode => s!"UnknownOpcode({opcode.toNat})"
  | badWideOpcode opcode => s!"BadWideOpcode({opcode.toNat})"
  | badArrayType code => s!"BadArrayType({code.toNat})"
  | badSwitchRange low high =>
    "BadSwitchRange \x7b low: " ++ toString low.toInt ++ ", high: " ++ toString high.toInt ++
      " \x7d"
  | badBranchTarget target => s!"BadBranchTarget({target})"
  | unsupported opcode => s!"Unsupported({opcode.toNat})"

structure CodeCursor where
  offset : Nat
  rest : List UInt8

abbrev CodeReader (α : Type) := StateT CodeCursor (Except CodeFault) α

namespace CodeReader

def fail {α : Type} (fault : CodeFault) : CodeReader α := fun _ => .error fault

def uint8 : CodeReader UInt8
  | ⟨_, []⟩ => .error .truncated
  | ⟨offset, b :: rest⟩ => .ok (b, ⟨offset + 1, rest⟩)

def int8 : CodeReader Int8 := UInt8.toInt8 <$> uint8
def uint16 : CodeReader UInt16 := UInt16.ofNat <$> readNumber uint8 2
def int16 : CodeReader Int16 := UInt16.toInt16 <$> uint16
def int32 : CodeReader Int32 := (UInt32.toInt32 ∘ UInt32.ofNat) <$> readNumber uint8 4

def align : CodeReader Unit := do
  let cursor ← get
  let _ ← readTimes uint8 ((4 - cursor.offset % 4) % 4)
  return ()

def require (length count : Nat) : CodeReader Unit := do
  if (← get).offset + count > length then fail .truncated

/-- The offset that a jump from `here` leads to, which has to be below `length`. -/
def absolute (length here : Nat) (relative : Int) : CodeReader Nat :=
  let target := (here : Int) + relative
  if target < 0 ∨ (length : Int) ≤ target then fail (.badBranchTarget target)
  else return target.toNat

def shortTarget (length here : Nat) : CodeReader Nat := do
  absolute length here (← int16).toInt

def wideTarget (length here : Nat) : CodeReader Nat := do
  absolute length here (← int32).toInt

end CodeReader

def Straight.ofOpcode? : UInt8 → Option Straight
  | 0x00 => some .nop
  | 0x01 => some .constNull
  | 0x02 => some (.const .int (-1))
  | 0x03 => some (.const .int 0)
  | 0x04 => some (.const .int 1)
  | 0x05 => some (.const .int 2)
  | 0x06 => some (.const .int 3)
  | 0x07 => some (.const .int 4)
  | 0x08 => some (.const .int 5)
  | 0x09 => some (.const .long 0)
  | 0x0a => some (.const .long 1)
  | 0x0b => some (.const .float 0)
  | 0x0c => some (.const .float 1)
  | 0x0d => some (.const .float 2)
  | 0x0e => some (.const .double 0)
  | 0x0f => some (.const .double 1)
  | 0x1a => some (.load (.numeric .int) 0)
  | 0x1b => some (.load (.numeric .int) 1)
  | 0x1c => some (.load (.numeric .int) 2)
  | 0x1d => some (.load (.numeric .int) 3)
  | 0x1e => some (.load (.numeric .long) 0)
  | 0x1f => some (.load (.numeric .long) 1)
  | 0x20 => some (.load (.numeric .long) 2)
  | 0x21 => some (.load (.numeric .long) 3)
  | 0x22 => some (.load (.numeric .float) 0)
  | 0x23 => some (.load (.numeric .float) 1)
  | 0x24 => some (.load (.numeric .float) 2)
  | 0x25 => some (.load (.numeric .float) 3)
  | 0x26 => some (.load (.numeric .double) 0)
  | 0x27 => some (.load (.numeric .double) 1)
  | 0x28 => some (.load (.numeric .double) 2)
  | 0x29 => some (.load (.numeric .double) 3)
  | 0x2a => some (.load .reference 0)
  | 0x2b => some (.load .reference 1)
  | 0x2c => some (.load .reference 2)
  | 0x2d => some (.load .reference 3)
  | 0x2e => some (.arrayLoad (.numeric .int))
  | 0x2f => some (.arrayLoad (.numeric .long))
  | 0x30 => some (.arrayLoad (.numeric .float))
  | 0x31 => some (.arrayLoad (.numeric .double))
  | 0x32 => some (.arrayLoad .reference)
  | 0x33 => some (.arrayLoad .byte)
  | 0x34 => some (.arrayLoad .char)
  | 0x35 => some (.arrayLoad .short)
  | 0x3b => some (.store (.numeric .int) 0)
  | 0x3c => some (.store (.numeric .int) 1)
  | 0x3d => some (.store (.numeric .int) 2)
  | 0x3e => some (.store (.numeric .int) 3)
  | 0x3f => some (.store (.numeric .long) 0)
  | 0x40 => some (.store (.numeric .long) 1)
  | 0x41 => some (.store (.numeric .long) 2)
  | 0x42 => some (.store (.numeric .long) 3)
  | 0x43 => some (.store (.numeric .float) 0)
  | 0x44 => some (.store (.numeric .float) 1)
  | 0x45 => some (.store (.numeric .float) 2)
  | 0x46 => some (.store (.numeric .float) 3)
  | 0x47 => some (.store (.numeric .double) 0)
  | 0x48 => some (.store (.numeric .double) 1)
  | 0x49 => some (.store (.numeric .double) 2)
  | 0x4a => some (.store (.numeric .double) 3)
  | 0x4b => some (.store .reference 0)
  | 0x4c => some (.store .reference 1)
  | 0x4d => some (.store .reference 2)
  | 0x4e => some (.store .reference 3)
  | 0x4f => some (.arrayStore (.numeric .int))
  | 0x50 => some (.arrayStore (.numeric .long))
  | 0x51 => some (.arrayStore (.numeric .float))
  | 0x52 => some (.arrayStore (.numeric .double))
  | 0x53 => some (.arrayStore .reference)
  | 0x54 => some (.arrayStore .byte)
  | 0x55 => some (.arrayStore .char)
  | 0x56 => some (.arrayStore .short)
  | 0x57 => some (.stack .pop)
  | 0x58 => some (.stack .pop2)
  | 0x59 => some (.stack .dup)
  | 0x5a => some (.stack .dupX1)
  | 0x5b => some (.stack .dupX2)
  | 0x5c => some (.stack .dup2)
  | 0x5d => some (.stack .dup2X1)
  | 0x5e => some (.stack .dup2X2)
  | 0x5f => some (.stack .swap)
  | 0x60 => some (.arithmetic .int .add)
  | 0x61 => some (.arithmetic .long .add)
  | 0x62 => some (.arithmetic .float .add)
  | 0x63 => some (.arithmetic .double .add)
  | 0x64 => some (.arithmetic .int .sub)
  | 0x65 => some (.arithmetic .long .sub)
  | 0x66 => some (.arithmetic .float .sub)
  | 0x67 => some (.arithmetic .double .sub)
  | 0x68 => some (.arithmetic .int .mul)
  | 0x69 => some (.arithmetic .long .mul)
  | 0x6a => some (.arithmetic .float .mul)
  | 0x6b => some (.arithmetic .double .mul)
  | 0x6c => some (.arithmetic .int .div)
  | 0x6d => some (.arithmetic .long .div)
  | 0x6e => some (.arithmetic .float .div)
  | 0x6f => some (.arithmetic .double .div)
  | 0x70 => some (.arithmetic .int .rem)
  | 0x71 => some (.arithmetic .long .rem)
  | 0x72 => some (.arithmetic .float .rem)
  | 0x73 => some (.arithmetic .double .rem)
  | 0x74 => some (.negate .int)
  | 0x75 => some (.negate .long)
  | 0x76 => some (.negate .float)
  | 0x77 => some (.negate .double)
  | 0x78 => some (.shift .int .left)
  | 0x79 => some (.shift .long .left)
  | 0x7a => some (.shift .int .arithmeticRight)
  | 0x7b => some (.shift .long .arithmeticRight)
  | 0x7c => some (.shift .int .logicalRight)
  | 0x7d => some (.shift .long .logicalRight)
  | 0x7e => some (.bitwise .int .and)
  | 0x7f => some (.bitwise .long .and)
  | 0x80 => some (.bitwise .int .or)
  | 0x81 => some (.bitwise .long .or)
  | 0x82 => some (.bitwise .int .xor)
  | 0x83 => some (.bitwise .long .xor)
  | 0x85 => some (.convert .int .long)
  | 0x86 => some (.convert .int .float)
  | 0x87 => some (.convert .int .double)
  | 0x88 => some (.convert .long .int)
  | 0x89 => some (.convert .long .float)
  | 0x8a => some (.convert .long .double)
  | 0x8b => some (.convert .float .int)
  | 0x8c => some (.convert .float .long)
  | 0x8d => some (.convert .float .double)
  | 0x8e => some (.convert .double .int)
  | 0x8f => some (.convert .double .long)
  | 0x90 => some (.convert .double .float)
  | 0x91 => some (.narrow .byte)
  | 0x92 => some (.narrow .char)
  | 0x93 => some (.narrow .short)
  | 0x94 => some .compareLong
  | 0x95 => some (.compareFloating .float .less)
  | 0x96 => some (.compareFloating .float .greater)
  | 0x97 => some (.compareFloating .double .less)
  | 0x98 => some (.compareFloating .double .greater)
  | 0xbe => some .arrayLength
  | 0xc2 => some .monitorEnter
  | 0xc3 => some .monitorExit
  | _ => none

def Branch.ofOpcode? : UInt8 → Option Branch
  | 0xac => some (.returnValue (.numeric .int))
  | 0xad => some (.returnValue (.numeric .long))
  | 0xae => some (.returnValue (.numeric .float))
  | 0xaf => some (.returnValue (.numeric .double))
  | 0xb0 => some (.returnValue .reference)
  | 0xb1 => some .returnVoid
  | 0xbf => some .throw
  | _ => none

def Straight.ofSlotOpcode? (slot : UInt16) : UInt8 → Option Straight
  | 0x15 => some (.load (.numeric .int) slot)
  | 0x16 => some (.load (.numeric .long) slot)
  | 0x17 => some (.load (.numeric .float) slot)
  | 0x18 => some (.load (.numeric .double) slot)
  | 0x19 => some (.load .reference slot)
  | 0x36 => some (.store (.numeric .int) slot)
  | 0x37 => some (.store (.numeric .long) slot)
  | 0x38 => some (.store (.numeric .float) slot)
  | 0x39 => some (.store (.numeric .double) slot)
  | 0x3a => some (.store .reference slot)
  | _ => none

def Comparison.ofOpcode? : UInt8 → Option Comparison
  | 0 => some eq
  | 1 => some ne
  | 2 => some lt
  | 3 => some ge
  | 4 => some gt
  | 5 => some le
  | _ => none

def BaseType.ofArrayCode? : UInt8 → Option BaseType
  | 4 => some boolean
  | 5 => some char
  | 6 => some float
  | 7 => some double
  | 8 => some byte
  | 9 => some short
  | 10 => some int
  | 11 => some long
  | _ => none

namespace Instruction

open CodeReader

def wideReader : CodeReader Straight := do
  let opcode ← uint8
  if opcode = 0x84 then
    return .increment (← uint16) (← int16)
  else if opcode = 0xa9 then
    fail (.unsupported opcode)
  else
    match Straight.ofSlotOpcode? 0 opcode with
    | none => fail (.badWideOpcode opcode)
    | some _ =>
      let slot ← uint16
      match Straight.ofSlotOpcode? slot opcode with
      | some s => return s
      | none => fail (.badWideOpcode opcode)

def tableSwitchReader (length here : Nat) : CodeReader Branch := do
  align
  let default ← wideTarget length here
  let low ← int32
  let high ← int32
  if high < low then
    fail (.badSwitchRange low high)
  else
    let count := (high.toInt - low.toInt + 1).toNat
    require length (count * 4)
    return .tableSwitch default low (← readTimes (wideTarget length here) count)

def lookupCase (length here : Nat) : CodeReader (Int32 × Nat) := do
  let key ← int32
  return (key, ← wideTarget length here)

def lookupSwitchReader (length here : Nat) : CodeReader Branch := do
  align
  let default ← wideTarget length here
  let count ← int32
  if count < 0 then
    fail .truncated
  else
    require length (count.toInt.toNat * 8)
    return .lookupSwitch default (← readTimes (lookupCase length here) count.toInt.toNat)

def branchReader? (length here : Nat) (opcode : UInt8) : Option (CodeReader Branch) :=
  if 0x99 ≤ opcode ∧ opcode ≤ 0x9e then
    (Comparison.ofOpcode? (opcode - 0x99)).map fun c => .ifInt c <$> shortTarget length here
  else if 0x9f ≤ opcode ∧ opcode ≤ 0xa4 then
    (Comparison.ofOpcode? (opcode - 0x9f)).map fun c => .ifInts c <$> shortTarget length here
  else
    match opcode with
    | 0xa5 => some (.ifReferences .eq <$> shortTarget length here)
    | 0xa6 => some (.ifReferences .ne <$> shortTarget length here)
    | 0xa7 => some (.goto <$> shortTarget length here)
    | 0xaa => some (tableSwitchReader length here)
    | 0xab => some (lookupSwitchReader length here)
    | 0xc6 => some (.ifNull .eq <$> shortTarget length here)
    | 0xc7 => some (.ifNull .ne <$> shortTarget length here)
    | 0xc8 => some (.goto <$> wideTarget length here)
    | _ => none

def newArrayReader : CodeReader Straight := do
  let code ← uint8
  match BaseType.ofArrayCode? code with
  | some element => return .newArray element
  | none => fail (.badArrayType code)

def straightReader? (opcode : UInt8) : Option (CodeReader Straight) :=
  match opcode with
  | 0x10 => some (.pushByte <$> int8)
  | 0x11 => some (.pushShort <$> int16)
  | 0x12 => some ((fun index => .loadConstant index.toUInt16) <$> uint8)
  | 0x13 => some (.loadConstant <$> uint16)
  | 0x14 => some (.loadWideConstant <$> uint16)
  | 0x84 => some (do return .increment (← uint8).toUInt16 (← int8).toInt16)
  | 0xb2 => some (.getStatic <$> uint16)
  | 0xb3 => some (.putStatic <$> uint16)
  | 0xb4 => some (.getField <$> uint16)
  | 0xb5 => some (.putField <$> uint16)
  | 0xb6 => some (.invoke .virtual <$> uint16)
  | 0xb7 => some (.invoke .special <$> uint16)
  | 0xb8 => some (.invoke .static <$> uint16)
  | 0xb9 => some (do
    let method ← uint16
    let slots ← uint8
    let _ ← uint8
    return .invoke (.interface slots) method)
  | 0xba => some (do
    let site ← uint16
    let _ ← uint16
    return .invokeDynamic site)
  | 0xbb => some (.new <$> uint16)
  | 0xbc => some newArrayReader
  | 0xbd => some (.newReferenceArray <$> uint16)
  | 0xc0 => some (.checkCast <$> uint16)
  | 0xc1 => some (.instanceOf <$> uint16)
  | 0xc4 => some wideReader
  | 0xc5 => some (do return .newMultiArray (← uint16) (← uint8))
  | _ => none

/-- Reads the instruction at `here` in a code array of `length` bytes. Subroutines (`jsr`, `jsr_w`
and `ret`) have no place beside stack maps. -/
def reader (length here : Nat) : CodeReader Instruction := do
  let opcode ← uint8
  if let some s := Straight.ofOpcode? opcode then
    return .straight s
  else if let some b := Branch.ofOpcode? opcode then
    return .branch b
  else if let some _ := Straight.ofSlotOpcode? 0 opcode then
    let slot ← uint8
    match Straight.ofSlotOpcode? slot.toUInt16 opcode with
    | some s => return .straight s
    | none => fail (.unknownOpcode opcode)
  else if let some operands := straightReader? opcode then
    .straight <$> operands
  else if let some operands := branchReader? length here opcode then
    .branch <$> operands
  else if opcode = 0xa8 ∨ opcode = 0xa9 ∨ opcode = 0xc9 then
    fail (.unsupported opcode)
  else
    fail (.unknownOpcode opcode)

/-- Reads the instructions from the cursor on, after those collected, last first, in `done`. Each is
a byte or longer, so the number of bytes left is fuel enough. -/
def readOnto (length : Nat) (done : List Located) : (fuel : Nat) → CodeCursor →
    Except CodeError (List Located)
  | _, ⟨_, []⟩ => .ok done.reverse
  | 0, ⟨offset, _⟩ => .error ⟨offset, .truncated⟩
  | fuel + 1, cursor =>
    match Instruction.reader length cursor.offset cursor with
    | .error fault => .error ⟨cursor.offset, fault⟩
    | .ok (instruction, after) =>
      readOnto length (⟨cursor.offset, after.offset, instruction⟩ :: done) fuel after

def starts (code : List Located) : Std.TreeSet Nat :=
  code.foldl (fun offsets located => offsets.insert located.offset) ∅

/-- The first jump, in code order, that does not lead to the start of an instruction. -/
def strayJump? (code : List Located) : Option CodeError :=
  let offsets := starts code
  code.findSome? fun located =>
    (located.instruction.targets.find? (!offsets.contains ·)).map fun (target : Nat) =>
      ⟨located.offset, .badBranchTarget target⟩

def decodeAll (bytes : List UInt8) : Except CodeError (List Located) :=
  if bytes.isEmpty then .error ⟨0, .empty⟩
  else
    match readOnto bytes.length [] bytes.length ⟨0, bytes⟩ with
    | .error e => .error e
    | .ok code =>
      match strayJump? code with
      | some e => .error e
      | none => .ok code

end Instruction

end StackMaps
