import StackMaps.Descriptor
import StackMaps.ClassFile.Constant

/-!
Verification types, what a local variable or a stack entry can hold at one point of a method. The
analysis names classes by their type; a class file refers to class constants, and to an object whose
constructor has not run by the offset of the `new` that made it.
-/

namespace StackMaps

/-- `top` is a slot that cannot be used: never written, the second slot of a long or double, or a
merge of types that have nothing in common. -/
inductive VerificationType (κ υ : Type)
  | top
  | int
  | float
  | double
  | long
  | null
  | uninitializedThis
  | object (type : κ)
  | uninitialized (made : υ)
deriving DecidableEq

/-- An object whose constructor has not run, made by the `new` at `offset`. -/
structure NewObject where
  offset : UInt16
  type : RefType
deriving DecidableEq

abbrev FlowType := VerificationType RefType NewObject

abbrev StoredType := VerificationType ConstantIndex UInt16

namespace VerificationType

variable {κ υ : Type}

instance : SlotWidth (VerificationType κ υ) where
  width
    | double | long => 2
    | _ => 1

def isReference : VerificationType κ υ → Bool
  | null | uninitializedThis | object _ | uninitialized _ => true
  | top | int | float | double | long => false

/-- What a local or a stack entry holding a value of a field type holds. -/
def ofField : FieldType → VerificationType RefType υ
  | .base .float => float
  | .base .long => long
  | .base .double => double
  | .base .int | .base .char | .base .short | .base .byte | .base .boolean => int
  | .ref r => object r

end VerificationType

def FlowType.describe : FlowType → String
  | .top => "top"
  | .int => "int"
  | .float => "float"
  | .double => "double"
  | .long => "long"
  | .null => "null"
  | .uninitializedThis => "uninitializedThis"
  | .object r => r.className
  | .uninitialized made => s!"uninitialized({made.offset.toNat}, {made.type.className})"

namespace StoredType

def encode : StoredType → List UInt8
  | .top => [0]
  | .int => [1]
  | .float => [2]
  | .double => [3]
  | .long => [4]
  | .null => [5]
  | .uninitializedThis => [6]
  | .object index => 7 :: encodeUInt16 index
  | .uninitialized offset => 8 :: encodeUInt16 offset

def decoder : Decoder StoredType := do
  let tag ← Decoder.uint8
  match tag with
  | 0 => return .top
  | 1 => return .int
  | 2 => return .float
  | 3 => return .double
  | 4 => return .long
  | 5 => return .null
  | 6 => return .uninitializedThis
  | 7 => return .object (← Decoder.uint16)
  | 8 => return .uninitialized (← Decoder.uint16)
  | _ => Decoder.fail (.unknownVerificationTag tag)

end StoredType

end StackMaps
