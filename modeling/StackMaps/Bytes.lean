/-!
Readers and writers for the big-endian words, counted lists and length-prefixed bodies of a
class file. A reader takes its value from the front of the bytes and leaves the rest.
-/

namespace StackMaps

inductive ExpectedConstant
  | utf8
  | cls
  | nameAndType
  | member
deriving DecidableEq, Repr

def ExpectedConstant.text : ExpectedConstant → String
  | utf8 => "Utf8"
  | cls => "Class"
  | nameAndType => "NameAndType"
  | member => "Fieldref or Methodref"

inductive FormatError
  | truncated
  | badMagic (word : UInt32)
  | unknownConstantTag (index : UInt16) (tag : UInt8)
  | badConstantIndex (index : UInt16) (expected : ExpectedConstant)
  | badModifiedUtf8 (index : UInt16)
  | unknownHandleKind (kind : UInt8)
  | unknownFrameType (tag : UInt8)
  | unknownVerificationTag (tag : UInt8)
  | badAttributeLength (name : String) (declared consumed : Nat)
  | trailingBytes (count : Nat)
deriving DecidableEq, Repr

def FormatError.text : FormatError → String
  | truncated => "Truncated"
  | badMagic word => s!"BadMagic({word.toNat})"
  | unknownConstantTag index tag =>
    "UnknownConstantTag \x7b index: " ++ toString index.toNat ++ ", tag: " ++
      toString tag.toNat ++ " \x7d"
  | badConstantIndex index expected =>
    "BadConstantIndex \x7b index: " ++ toString index.toNat ++ ", expected: \"" ++
      expected.text ++ "\" \x7d"
  | badModifiedUtf8 index => "BadModifiedUtf8 \x7b index: " ++ toString index.toNat ++ " \x7d"
  | unknownHandleKind kind => s!"UnknownHandleKind({kind.toNat})"
  | unknownFrameType tag => s!"UnknownFrameType({tag.toNat})"
  | unknownVerificationTag tag => s!"UnknownVerificationTag({tag.toNat})"
  | badAttributeLength name declared consumed =>
    "BadAttributeLength \x7b name: \"" ++ name ++ "\", declared: " ++ toString declared ++
      ", consumed: " ++ toString consumed ++ " \x7d"
  | trailingBytes count => s!"TrailingBytes({count})"

/-- The big-endian digits of the number in base 256, least significant last; higher digits are
dropped. -/
def bigEndian : (width : Nat) → Nat → List UInt8
  | 0, _ => []
  | width + 1, n => UInt8.ofNat (n / 256 ^ width) :: bigEndian width n

def encodeUInt8 (n : UInt8) : List UInt8 := [n]
def encodeUInt16 (n : UInt16) : List UInt8 := bigEndian 2 n.toNat
def encodeUInt32 (n : UInt32) : List UInt8 := bigEndian 4 n.toNat
def encodeUInt64 (n : UInt64) : List UInt8 := bigEndian 8 n.toNat

def encodeList {α : Type} (encode : α → List UInt8) (xs : List α) : List UInt8 :=
  bigEndian 2 xs.length ++ xs.flatMap encode

def encodeBody (body : List UInt8) : List UInt8 :=
  bigEndian 4 body.length ++ body

@[specialize] def readNumber {m : Type → Type} [Monad m] (byte : m UInt8) : (width : Nat) → m Nat
  | 0 => pure 0
  | width + 1 => do
    let high ← byte
    let low ← readNumber byte width
    return high.toNat * 256 ^ width + low

@[specialize] def readTimesOnto {m : Type → Type} {α : Type} [Monad m] (item : m α) :
    (count : Nat) → (done : List α) → m (List α)
  | 0, done => pure done.reverse
  | count + 1, done => do
    let x ← item
    readTimesOnto item count (x :: done)

@[inline] def readTimes {m : Type → Type} {α : Type} [Monad m] (item : m α) (count : Nat) :
    m (List α) :=
  readTimesOnto item count []

abbrev Decoder (α : Type) := StateT (List UInt8) (Except FormatError) α

namespace Decoder

def uint8 : Decoder UInt8
  | [] => .error .truncated
  | b :: rest => .ok (b, rest)

def number (width : Nat) : Decoder Nat := readNumber uint8 width

def uint16 : Decoder UInt16 := UInt16.ofNat <$> number 2
def uint32 : Decoder UInt32 := UInt32.ofNat <$> number 4
def uint64 : Decoder UInt64 := UInt64.ofNat <$> number 8

def bytes (count : Nat) : Decoder (List UInt8) := fun input =>
  let front := input.take count
  if front.length < count then .error .truncated else .ok (front, input.drop count)

@[inline] def times {α : Type} (item : Decoder α) (count : Nat) : Decoder (List α) :=
  readTimes item count

@[inline] def list {α : Type} (item : Decoder α) : Decoder (List α) := do
  let count ← number 2
  times item count

def body : Decoder (List UInt8) := do
  let count ← number 4
  bytes count

def fail {α : Type} (e : FormatError) : Decoder α := fun _ => .error e

end Decoder

end StackMaps
