import Mathlib.Algebra.Ring.Nat
import Mathlib.Data.List.Forall2
import StackMaps.Instruction.Basic

/-! How instructions are written in a code array, after the instruction set of the virtual machine:
opcodes count through the kinds of operands, the same instruction can have forms of different length,
jumps are relative to the instruction and switches are aligned to the start of the code. Nothing here
is taken from the reader. -/

namespace StackMaps

def Numeric.ordinal : Numeric → UInt8
  | int => 0
  | long => 1
  | float => 2
  | double => 3

def Integral.ordinal : Integral → UInt8
  | int => 0
  | long => 1

def Floating.ordinal : Floating → UInt8
  | float => 0
  | double => 1

def ValueKind.ordinal : ValueKind → UInt8
  | numeric n => n.ordinal
  | reference => 4

def ArrayKind.ordinal : ArrayKind → UInt8
  | numeric n => n.ordinal
  | reference => 4
  | byte => 5
  | char => 6
  | short => 7

def StackOp.ordinal : StackOp → UInt8
  | pop => 0
  | pop2 => 1
  | dup => 2
  | dupX1 => 3
  | dupX2 => 4
  | dup2 => 5
  | dup2X1 => 6
  | dup2X2 => 7
  | swap => 8

def Arithmetic.ordinal : Arithmetic → UInt8
  | add => 0
  | sub => 1
  | mul => 2
  | div => 3
  | rem => 4

def Bitwise.ordinal : Bitwise → UInt8
  | and => 0
  | or => 1
  | xor => 2

def Shift.ordinal : Shift → UInt8
  | left => 0
  | arithmeticRight => 1
  | logicalRight => 2

def Narrow.ordinal : Narrow → UInt8
  | byte => 0
  | char => 1
  | short => 2

def Unordered.ordinal : Unordered → UInt8
  | less => 0
  | greater => 1

def Comparison.ordinal : Comparison → UInt8
  | eq => 0
  | ne => 1
  | lt => 2
  | ge => 3
  | gt => 4
  | le => 5

def Equality.ordinal : Equality → UInt8
  | eq => 0
  | ne => 1

def BaseType.arrayCode : BaseType → UInt8
  | boolean => 4
  | char => 5
  | float => 6
  | double => 7
  | byte => 8
  | short => 9
  | int => 10
  | long => 11

def Numeric.constOpcode? (kind : Numeric) (value : Int) : Option UInt8 :=
  let (first, least, most) : UInt8 × Int × Int := match kind with
    | int => (0x02, -1, 5)
    | long => (0x09, 0, 1)
    | float => (0x0b, 0, 2)
    | double => (0x0e, 0, 1)
  if least ≤ value ∧ value ≤ most then some (first + UInt8.ofNat (value - least).toNat) else none

def Numeric.convertOpcode? (source target : Numeric) : Option UInt8 :=
  if source = target then none
  else some (0x85 + 3 * source.ordinal +
    if target.ordinal < source.ordinal then target.ordinal else target.ordinal - 1)

namespace Straight

def opcode? : Straight → Option UInt8
  | nop => some 0x00
  | constNull => some 0x01
  | const kind value => kind.constOpcode? value
  | load kind slot => if slot < 4 then some (0x1a + 4 * kind.ordinal + slot.toUInt8) else none
  | arrayLoad kind => some (0x2e + kind.ordinal)
  | store kind slot => if slot < 4 then some (0x3b + 4 * kind.ordinal + slot.toUInt8) else none
  | arrayStore kind => some (0x4f + kind.ordinal)
  | stack op => some (0x57 + op.ordinal)
  | arithmetic kind op => some (0x60 + 4 * op.ordinal + kind.ordinal)
  | negate kind => some (0x74 + kind.ordinal)
  | shift kind op => some (0x78 + 2 * op.ordinal + kind.ordinal)
  | bitwise kind op => some (0x7e + 2 * op.ordinal + kind.ordinal)
  | convert source target => source.convertOpcode? target
  | narrow target => some (0x91 + target.ordinal)
  | compareLong => some 0x94
  | compareFloating kind unordered => some (0x95 + 2 * kind.ordinal + unordered.ordinal)
  | arrayLength => some 0xbe
  | monitorEnter => some 0xc2
  | monitorExit => some 0xc3
  | _ => none

def slotted? : Straight → Option (UInt8 × UInt16)
  | load kind slot => some (0x15 + kind.ordinal, slot)
  | store kind slot => some (0x36 + kind.ordinal, slot)
  | _ => none

def indexed? : Straight → Option (UInt8 × ConstantIndex)
  | loadConstant index => some (0x13, index)
  | loadWideConstant index => some (0x14, index)
  | getStatic field => some (0xb2, field)
  | putStatic field => some (0xb3, field)
  | getField field => some (0xb4, field)
  | putField field => some (0xb5, field)
  | invoke .virtual method => some (0xb6, method)
  | invoke .special method => some (0xb7, method)
  | invoke .static method => some (0xb8, method)
  | new type => some (0xbb, type)
  | newReferenceArray element => some (0xbd, element)
  | checkCast type => some (0xc0, type)
  | instanceOf type => some (0xc1, type)
  | _ => none

end Straight

namespace Branch

def opcode? : Branch → Option UInt8
  | returnValue kind => some (0xac + kind.ordinal)
  | returnVoid => some 0xb1
  | throw => some 0xbf
  | _ => none

def jump? : Branch → Option (UInt8 × Nat)
  | ifInt c target => some (0x99 + c.ordinal, target)
  | ifInts c target => some (0x9f + c.ordinal, target)
  | ifReferences c target => some (0xa5 + c.ordinal, target)
  | goto target => some (0xa7, target)
  | ifNull c target => some (0xc6 + c.ordinal, target)
  | _ => none

end Branch

def encodeInt16 (value : Int16) : List UInt8 := encodeUInt16 value.toUInt16

def encodeInt32 (value : Int32) : List UInt8 := encodeUInt32 value.toUInt32

def Leads (here : Nat) (distance : Int) (target : Nat) : Prop := (target : Int) = here + distance

def Pads (offset : Nat) (padding : List UInt8) : Prop :=
  padding.length < 4 ∧ (offset + padding.length) % 4 = 0

inductive Straight.Written : Straight → List UInt8 → Prop
  | plain {s : Straight} {opcode : UInt8} (is : s.opcode? = some opcode) : Written s [opcode]
  | pushByte (value : Int8) : Written (.pushByte value) [0x10, value.toUInt8]
  | pushShort (value : Int16) : Written (.pushShort value) (0x11 :: encodeInt16 value)
  | loadConstant (index : UInt8) : Written (.loadConstant index.toUInt16) [0x12, index]
  | indexed {s : Straight} {opcode : UInt8} {index : ConstantIndex}
      (is : s.indexed? = some (opcode, index)) : Written s (opcode :: encodeUInt16 index)
  | slotted {s : Straight} {opcode slot : UInt8} (is : s.slotted? = some (opcode, slot.toUInt16)) :
      Written s [opcode, slot]
  | wideSlotted {s : Straight} {opcode : UInt8} {slot : UInt16}
      (is : s.slotted? = some (opcode, slot)) : Written s (0xc4 :: opcode :: encodeUInt16 slot)
  | increment (slot : UInt8) (amount : Int8) :
      Written (.increment slot.toUInt16 amount.toInt16) [0x84, slot, amount.toUInt8]
  | wideIncrement (slot : UInt16) (amount : Int16) :
      Written (.increment slot amount) (0xc4 :: 0x84 :: (encodeUInt16 slot ++ encodeInt16 amount))
  | invokeInterface (method : ConstantIndex) (slots ignored : UInt8) :
      Written (.invoke (.interface slots) method) (0xb9 :: (encodeUInt16 method ++ [slots, ignored]))
  | invokeDynamic (site : ConstantIndex) (ignored : UInt16) :
      Written (.invokeDynamic site) (0xba :: (encodeUInt16 site ++ encodeUInt16 ignored))
  | newArray (element : BaseType) : Written (.newArray element) [0xbc, element.arrayCode]
  | newMultiArray (type : ConstantIndex) (dimensions : UInt8) :
      Written (.newMultiArray type dimensions) (0xc5 :: (encodeUInt16 type ++ [dimensions]))

inductive Branch.Written (here : Nat) : Branch → List UInt8 → Prop
  | plain {b : Branch} {opcode : UInt8} (is : b.opcode? = some opcode) : Written here b [opcode]
  | jump {b : Branch} {opcode : UInt8} {target : Nat} {distance : Int16}
      (is : b.jump? = some (opcode, target)) (leads : Leads here distance.toInt target) :
      Written here b (opcode :: encodeInt16 distance)
  | wideGoto {target : Nat} {distance : Int32} (leads : Leads here distance.toInt target) :
      Written here (.goto target) (0xc8 :: encodeInt32 distance)
  | tableSwitch {padding : List UInt8} {default : Nat} {distance low high : Int32}
      {targets : List Nat} {distances : List Int32} (pads : Pads (here + 1) padding)
      (leads : Leads here distance.toInt default) (order : low ≤ high)
      (count : (distances.length : Int) = high.toInt - low.toInt + 1)
      (each : List.Forall₂ (fun d t => Leads here d.toInt t) distances targets) :
      Written here (.tableSwitch default low targets)
        (0xaa :: (padding ++ (encodeInt32 distance ++ (encodeInt32 low ++ (encodeInt32 high ++
          distances.flatMap encodeInt32)))))
  | lookupSwitch {padding : List UInt8} {default : Nat} {distance : Int32}
      {targets : List (Int32 × Nat)} {distances : List (Int32 × Int32)}
      (pads : Pads (here + 1) padding) (leads : Leads here distance.toInt default)
      (few : distances.length < 2 ^ 31)
      (each : List.Forall₂ (fun d t => d.1 = t.1 ∧ Leads here d.2.toInt t.2) distances targets) :
      Written here (.lookupSwitch default targets)
        (0xab :: (padding ++ (encodeInt32 distance ++ (bigEndian 4 distances.length ++
          distances.flatMap fun d => encodeInt32 d.1 ++ encodeInt32 d.2))))

inductive Instruction.Written (here : Nat) : Instruction → List UInt8 → Prop
  | straight {s : Straight} {bytes : List UInt8} (written : s.Written bytes) :
      Written here (.straight s) bytes
  | branch {b : Branch} {bytes : List UInt8} (written : b.Written here bytes) :
      Written here (.branch b) bytes

/-- The bytes from `offset` on are these instructions, one after the other, each in one of its
forms. -/
inductive Laid : (offset : Nat) → List UInt8 → List Located → Prop
  | nil (offset : Nat) : Laid offset [] []
  | cons {offset : Nat} {taken rest : List UInt8} {i : Instruction} {code : List Located}
      (written : i.Written offset taken) (further : Laid (offset + taken.length) rest code) :
      Laid offset (taken ++ rest) (⟨offset, offset + taken.length, i⟩ :: code)

end StackMaps
