import StackMaps.Bytes
import StackMaps.SlotSeq

/-!
The entries of a constant pool. Constants refer to each other by index, and a long or double takes
two indices.
-/

namespace StackMaps

abbrev ConstantIndex := UInt16

inductive HandleKind
  | getField
  | getStatic
  | putField
  | putStatic
  | invokeVirtual
  | invokeStatic
  | invokeSpecial
  | newInvokeSpecial
  | invokeInterface
deriving DecidableEq, Repr

namespace HandleKind

def code : HandleKind → UInt8
  | getField => 1
  | getStatic => 2
  | putField => 3
  | putStatic => 4
  | invokeVirtual => 5
  | invokeStatic => 6
  | invokeSpecial => 7
  | newInvokeSpecial => 8
  | invokeInterface => 9

def ofCode? : UInt8 → Option HandleKind
  | 1 => some getField
  | 2 => some getStatic
  | 3 => some putField
  | 4 => some putStatic
  | 5 => some invokeVirtual
  | 6 => some invokeStatic
  | 7 => some invokeSpecial
  | 8 => some newInvokeSpecial
  | 9 => some invokeInterface
  | _ => none

def decoder : Decoder HandleKind := do
  let kind ← Decoder.uint8
  match ofCode? kind with
  | some k => return k
  | none => Decoder.fail (.unknownHandleKind kind)

end HandleKind

/-- Floating point numbers are kept as their bits, and text as its modified UTF-8 bytes. -/
inductive Constant
  | utf8 (bytes : List UInt8)
  | integer (value : Int32)
  | float (bits : UInt32)
  | long (value : Int64)
  | double (bits : UInt64)
  | cls (name : ConstantIndex)
  | string (text : ConstantIndex)
  | fieldRef (owner nameAndType : ConstantIndex)
  | methodRef (owner nameAndType : ConstantIndex) (ofInterface : Bool)
  | nameAndType (name descriptor : ConstantIndex)
  | methodHandle (kind : HandleKind) (member : ConstantIndex)
  | methodType (descriptor : ConstantIndex)
  | dynamic (bootstrap nameAndType : UInt16)
  | invokeDynamic (bootstrap nameAndType : UInt16)
  | moduleName (name : ConstantIndex)
  | packageName (name : ConstantIndex)
deriving DecidableEq

namespace Constant

instance : SlotWidth Constant where
  width
    | long _ | double _ => 2
    | _ => 1

def tag : Constant → UInt8
  | utf8 _ => 1
  | integer _ => 3
  | float _ => 4
  | long _ => 5
  | double _ => 6
  | cls _ => 7
  | string _ => 8
  | fieldRef .. => 9
  | methodRef _ _ ofInterface => if ofInterface then 11 else 10
  | nameAndType .. => 12
  | methodHandle .. => 15
  | methodType _ => 16
  | dynamic .. => 17
  | invokeDynamic .. => 18
  | moduleName _ => 19
  | packageName _ => 20

def payload : Constant → List UInt8
  | utf8 bytes => bytes
  | integer value => encodeUInt32 value.toUInt32
  | float bits => encodeUInt32 bits
  | long value => encodeUInt64 value.toUInt64
  | double bits => encodeUInt64 bits
  | cls i | string i | methodType i | moduleName i | packageName i => encodeUInt16 i
  | fieldRef i j | methodRef i j _ | nameAndType i j | dynamic i j | invokeDynamic i j =>
    encodeUInt16 i ++ encodeUInt16 j
  | methodHandle kind member => encodeUInt8 kind.code ++ encodeUInt16 member

def encode (c : Constant) : List UInt8 :=
  c.tag :: (match c with
    | utf8 bytes => bigEndian 2 bytes.length ++ bytes
    | _ => c.payload)

/-- Tag and payload tell constants apart, so that a pool can be searched by content. -/
def key (c : Constant) : List UInt8 := c.tag :: c.payload

def decoder (index : ConstantIndex) : Decoder Constant := do
  let tag ← Decoder.uint8
  match tag with
  | 1 =>
    let length ← Decoder.number 2
    return utf8 (← Decoder.bytes length)
  | 3 => return integer (← Decoder.uint32).toInt32
  | 4 => return float (← Decoder.uint32)
  | 5 => return long (← Decoder.uint64).toInt64
  | 6 => return double (← Decoder.uint64)
  | 7 => return cls (← Decoder.uint16)
  | 8 => return string (← Decoder.uint16)
  | 9 => return fieldRef (← Decoder.uint16) (← Decoder.uint16)
  | 10 => return methodRef (← Decoder.uint16) (← Decoder.uint16) false
  | 11 => return methodRef (← Decoder.uint16) (← Decoder.uint16) true
  | 12 => return nameAndType (← Decoder.uint16) (← Decoder.uint16)
  | 15 => return methodHandle (← HandleKind.decoder) (← Decoder.uint16)
  | 16 => return methodType (← Decoder.uint16)
  | 17 => return dynamic (← Decoder.uint16) (← Decoder.uint16)
  | 18 => return invokeDynamic (← Decoder.uint16) (← Decoder.uint16)
  | 19 => return moduleName (← Decoder.uint16)
  | 20 => return packageName (← Decoder.uint16)
  | _ => Decoder.fail (.unknownConstantTag index tag)

end Constant

end StackMaps
