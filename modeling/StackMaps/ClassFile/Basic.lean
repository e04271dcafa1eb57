import StackMaps.ClassFile.AccessFlags
import StackMaps.ClassFile.Attribute

/-!
Class files. What a class is and what it declares is kept as indices into its constant pool, so
that writing a class file gives back the bytes it was read from.
-/

namespace StackMaps

structure Member (mask : UInt16) where
  flags : AccessFlags mask
  name : ConstantIndex
  descriptor : ConstantIndex
  attributes : List Attribute
deriving DecidableEq

abbrev Field := Member 0x50DF
abbrev Method := Member 0x1DFF

namespace Member

variable {mask : UInt16}

def encode (m : Member mask) : List UInt8 :=
  m.flags.encode ++ encodeUInt16 m.name ++ encodeUInt16 m.descriptor ++
    encodeList Attribute.encode m.attributes

def decoder : Decoder (Member mask) := do
  let flags ← AccessFlags.decoder
  let name ← Decoder.uint16
  let descriptor ← Decoder.uint16
  let attributes ← Decoder.list Attribute.decoder
  return ⟨flags, name, descriptor, attributes⟩

end Member

namespace Method

def isStatic (m : Method) : Bool := MethodFlags.isStatic m.flags

def codeIndex? (m : Method) (pool : Pool) : Option Nat :=
  m.attributes.findIdx? (Attribute.hasName pool Code.attributeName)

def code? (m : Method) (pool : Pool) : Except FormatError (Option Code) :=
  match m.attributes.find? (Attribute.hasName pool Code.attributeName) with
  | none => .ok none
  | some a => (Code.ofBody a.body).map some

def withCode (m : Method) (pool : Pool) (code : Attribute) : Method :=
  match m.codeIndex? pool with
  | some i => { m with attributes := m.attributes.set i code }
  | none => { m with attributes := m.attributes ++ [code] }

end Method

/-- Only `java/lang/Object` has no superclass. -/
structure ClassFile where
  version : Version
  pool : Pool
  flags : ClassFlags
  thisClass : ConstantIndex
  superclass : Option ConstantIndex
  interfaces : List ConstantIndex
  fields : List Field
  methods : List Method
  attributes : List Attribute

namespace ClassFile

def magic : UInt32 := 0xCAFEBABE

def encode (c : ClassFile) : List UInt8 :=
  encodeUInt32 magic ++ c.version.encode ++ c.pool.encode ++ c.flags.encode ++
    encodeUInt16 c.thisClass ++ encodeOptionalIndex c.superclass ++
    encodeList encodeUInt16 c.interfaces ++ encodeList Member.encode c.fields ++
    encodeList Member.encode c.methods ++ encodeList Attribute.encode c.attributes

def decoder : Decoder ClassFile := do
  let word ← Decoder.uint32
  if word ≠ magic then Decoder.fail (.badMagic word)
  let version ← Version.decoder
  let pool ← Pool.decoder
  let flags ← AccessFlags.decoder
  let thisClass ← Decoder.uint16
  let superclass ← Decoder.optionalIndex
  let interfaces ← Decoder.list Decoder.uint16
  let fields ← Decoder.list Member.decoder
  let methods ← Decoder.list Member.decoder
  let attributes ← Decoder.list Attribute.decoder
  return ⟨version, pool, flags, thisClass, superclass, interfaces, fields, methods, attributes⟩

def parse (bytes : List UInt8) : Except FormatError ClassFile :=
  match decoder bytes with
  | .error e => .error e
  | .ok (c, []) => .ok c
  | .ok (_, rest) => .error (.trailingBytes rest.length)

def thisName (c : ClassFile) : Except Error BinaryName := c.pool.classBinaryName c.thisClass

def superName (c : ClassFile) : Except Error (Option BinaryName) :=
  match c.superclass with
  | none => .ok none
  | some i => (c.pool.classBinaryName i).map some

def interfaceNames (c : ClassFile) : Except Error (List BinaryName) :=
  c.interfaces.mapM c.pool.classBinaryName

end ClassFile

end StackMaps
