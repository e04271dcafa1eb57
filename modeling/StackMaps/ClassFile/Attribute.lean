import StackMaps.ClassFile.Pool
import StackMaps.Frame.StackMapFrame

/-!
Attributes, which are kept as bytes, and the two whose bytes are looked into: the code of a method,
and the stack map table in it.
-/

namespace StackMaps

structure Attribute where
  name : ConstantIndex
  body : List UInt8
deriving DecidableEq

namespace Attribute

def encode (a : Attribute) : List UInt8 := encodeUInt16 a.name ++ encodeBody a.body

def decoder : Decoder Attribute := do
  let name ← Decoder.uint16
  let body ← Decoder.body
  return ⟨name, body⟩

def hasName (pool : Pool) (name : String) (a : Attribute) : Bool :=
  match pool.utf8Bytes a.name with
  | .ok bytes => bytes == ModifiedUtf8.encode name
  | .error _ => false

def decodeBody {α : Type} (name : String) (decoder : Decoder α) (body : List UInt8) :
    Except FormatError α :=
  match decoder body with
  | .error e => .error e
  | .ok (x, []) => .ok x
  | .ok (_, rest) =>
    .error (.badAttributeLength name body.length (body.length - rest.length))

def adding (name : String) (body : List UInt8) : Pool.Adding Attribute := do
  let name ← Pool.indexOfUtf8 name
  return ⟨name, body⟩

end Attribute

/-- An entry of an exception table: what `start ..< stop` throws goes to `target`. Without a class
everything is caught. -/
structure Handler where
  start : UInt16
  stop : UInt16
  target : UInt16
  catchType : Option ConstantIndex
deriving DecidableEq, Repr

/-- An index that is written as zero when there is none. -/
def encodeOptionalIndex (index : Option ConstantIndex) : List UInt8 :=
  encodeUInt16 (index.getD 0)

def Decoder.optionalIndex : Decoder (Option ConstantIndex) := do
  let index ← Decoder.uint16
  return if index = 0 then none else some index

namespace Handler

def encode (h : Handler) : List UInt8 :=
  encodeUInt16 h.start ++ encodeUInt16 h.stop ++ encodeUInt16 h.target ++
    encodeOptionalIndex h.catchType

def decoder : Decoder Handler := do
  let start ← Decoder.uint16
  let stop ← Decoder.uint16
  let target ← Decoder.uint16
  let catchType ← Decoder.optionalIndex
  return ⟨start, stop, target, catchType⟩

end Handler

structure Code where
  maxStack : UInt16
  maxLocals : UInt16
  bytes : List UInt8
  handlers : List Handler
  attributes : List Attribute
deriving DecidableEq

namespace Code

def attributeName : String := "Code"

def encode (c : Code) : List UInt8 :=
  encodeUInt16 c.maxStack ++ encodeUInt16 c.maxLocals ++ encodeBody c.bytes ++
    encodeList Handler.encode c.handlers ++ encodeList Attribute.encode c.attributes

def decoder : Decoder Code := do
  let maxStack ← Decoder.uint16
  let maxLocals ← Decoder.uint16
  let bytes ← Decoder.body
  let handlers ← Decoder.list Handler.decoder
  let attributes ← Decoder.list Attribute.decoder
  return ⟨maxStack, maxLocals, bytes, handlers, attributes⟩

def ofBody (body : List UInt8) : Except FormatError Code :=
  Attribute.decodeBody attributeName decoder body

end Code

namespace StackMapTable

def attributeName : String := "StackMapTable"

def ofBody (body : List UInt8) : Except FormatError StackMapTable :=
  Attribute.decodeBody attributeName decoder body

end StackMapTable

namespace Code

def tableIndex? (c : Code) (pool : Pool) : Option Nat :=
  c.attributes.findIdx? (Attribute.hasName pool StackMapTable.attributeName)

/-- Replaces, adds or removes the stack map table. A replaced one keeps its place and a new one goes
last. -/
def withTable (c : Code) (pool : Pool) (table : Option Attribute) : Code :=
  match c.tableIndex? pool, table with
  | some i, some a => { c with attributes := c.attributes.set i a }
  | some i, none => { c with attributes := c.attributes.eraseIdx i }
  | none, some a => { c with attributes := c.attributes ++ [a] }
  | none, none => c

end Code

end StackMaps
