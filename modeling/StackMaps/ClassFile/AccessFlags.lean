import StackMaps.Bytes

/-!
Access flags of classes, methods and fields, and the version of a class file. Bits without a meaning
are dropped on reading.
-/

namespace StackMaps

/-- A set of flags among those of a mask. -/
structure AccessFlags (mask : UInt16) where
  bits : UInt16
  known : bits &&& mask = bits
deriving DecidableEq

/-- `public`, `final`, `super`, `interface`, `abstract`, `synthetic`, `annotation`, `enum` and
`module`. -/
abbrev ClassFlags := AccessFlags 0xF631

/-- `public`, `private`, `protected`, `static`, `final`, `synchronized`, `bridge`, `varargs`,
`native`, `abstract`, `strict` and `synthetic`. -/
abbrev MethodFlags := AccessFlags 0x1DFF

/-- `public`, `private`, `protected`, `static`, `final`, `volatile`, `transient`, `synthetic` and
`enum`. -/
abbrev FieldFlags := AccessFlags 0x50DF

namespace AccessFlags

variable {mask : UInt16}

def ofBits (bits : UInt16) : AccessFlags mask :=
  ⟨bits &&& mask, by rw [UInt16.and_assoc, UInt16.and_self]⟩

def encode (flags : AccessFlags mask) : List UInt8 := encodeUInt16 flags.bits

def decoder : Decoder (AccessFlags mask) := ofBits <$> Decoder.uint16

end AccessFlags

def ClassFlags.isInterface (flags : ClassFlags) : Bool := flags.bits &&& 0x0200 != 0

def MethodFlags.isStatic (flags : MethodFlags) : Bool := flags.bits &&& 0x0008 != 0

structure Version where
  major : UInt16
  minor : UInt16
deriving DecidableEq, Repr

namespace Version

/-- From 50.0 on a class file may hold stack map tables. -/
def usesStackMaps (v : Version) : Bool := 50 ≤ v.major

def encode (v : Version) : List UInt8 := encodeUInt16 v.minor ++ encodeUInt16 v.major

def decoder : Decoder Version := do
  let minor ← Decoder.uint16
  let major ← Decoder.uint16
  return ⟨major, minor⟩

end Version

end StackMaps
