import Std.Data.TreeMap
import StackMaps.ClassFile.Constant
import StackMaps.Error
import StackMaps.Text.ModifiedUtf8

/-!
Constant pools. A pool that was read is kept as it was; constants are only ever added at its end,
and one that is already there is used again.
-/

namespace StackMaps

/-- The constants by index, from 1, and the first index of each by its key. -/
structure Pool where
  entries : SlotSeq Constant
  index : Std.TreeMap (List UInt8) ConstantIndex

namespace Pool

def empty : Pool := ⟨.startingAt 1, ∅⟩

def push : Pool → Constant → Pool
  | ⟨entries, index⟩, c =>
    let index := index.insertIfNew c.key (UInt16.ofNat entries.next)
    ⟨entries.push c, index⟩

/-- The count that a class file declares, one more than the largest index, in 16 bits. -/
def count (pool : Pool) : UInt16 := UInt16.ofNat pool.entries.next

def get? (pool : Pool) (i : ConstantIndex) : Option Constant :=
  (pool.entries.lookup i.toNat).toOption

def items (pool : Pool) : List (ConstantIndex × Constant) :=
  pool.entries.entries.toList.map fun (offset, c) => (UInt16.ofNat offset, c)

def longestText (pool : Pool) : Nat :=
  pool.entries.entries.foldl
    (fun longest (_, c) =>
      match c with
      | .utf8 bytes => max longest bytes.length
      | _ => longest)
    0

def utf8Bytes (pool : Pool) (i : ConstantIndex) : Except FormatError (List UInt8) :=
  match pool.get? i with
  | some (.utf8 bytes) => .ok bytes
  | _ => .error (.badConstantIndex i .utf8)

def utf8 (pool : Pool) (i : ConstantIndex) : Except FormatError String := do
  let bytes ← pool.utf8Bytes i
  match ModifiedUtf8.decode bytes with
  | some text => .ok text
  | none => .error (.badModifiedUtf8 i)

def className (pool : Pool) (i : ConstantIndex) : Except FormatError String :=
  match pool.get? i with
  | some (.cls name) => pool.utf8 name
  | _ => .error (.badConstantIndex i .cls)

def classType (pool : Pool) (i : ConstantIndex) : Except Error RefType :=
  match pool.className i with
  | .error e => .error (.format e)
  | .ok name => (RefType.ofClassName name).mapError .badName

def classBinaryName (pool : Pool) (i : ConstantIndex) : Except Error BinaryName :=
  match pool.className i with
  | .error e => .error (.format e)
  | .ok name => (BinaryName.ofString name).mapError fun e => .badName (.badName e)

def nameAndType (pool : Pool) (i : ConstantIndex) : Except FormatError (String × String) :=
  match pool.get? i with
  | some (.nameAndType name descriptor) => do
    let name ← pool.utf8 name
    let descriptor ← pool.utf8 descriptor
    return (name, descriptor)
  | _ => .error (.badConstantIndex i .nameAndType)

def member (pool : Pool) (i : ConstantIndex) :
    Except FormatError (ConstantIndex × String × String) :=
  match pool.get? i with
  | some (.fieldRef owner nameAndType) | some (.methodRef owner nameAndType _) => do
    let (name, descriptor) ← pool.nameAndType nameAndType
    return (owner, name, descriptor)
  | _ => .error (.badConstantIndex i .member)

abbrev Adding (α : Type) := ExceptT Error (StateM Pool) α

/-- The index of a constant, which is added if the pool does not hold it. Index 65535 is the last,
and a wide constant needs the one after its own too. -/
def indexOf (c : Constant) : Adding ConstantIndex := ExceptT.mk fun pool =>
  match pool.index[c.key]? with
  | some i => (.ok i, pool)
  | none =>
    let next := pool.entries.next
    if next + width c > 65535 then (.error (.poolFull next), pool)
    else (.ok (UInt16.ofNat next), pool.push c)

def indexOfUtf8 (text : String) : Adding ConstantIndex :=
  indexOf (.utf8 (ModifiedUtf8.encode text))

def indexOfClass (name : String) : Adding ConstantIndex := do
  indexOf (.cls (← indexOfUtf8 name))

def indexOfString (text : String) : Adding ConstantIndex := do
  indexOf (.string (← indexOfUtf8 text))

def indexOfInteger (value : Int32) : Adding ConstantIndex := indexOf (.integer value)

def indexOfLong (value : Int64) : Adding ConstantIndex := indexOf (.long value)

def indexOfNameAndType (name descriptor : String) : Adding ConstantIndex := do
  let name ← indexOfUtf8 name
  let descriptor ← indexOfUtf8 descriptor
  indexOf (.nameAndType name descriptor)

def indexOfField (owner name descriptor : String) : Adding ConstantIndex := do
  let owner ← indexOfClass owner
  let member ← indexOfNameAndType name descriptor
  indexOf (.fieldRef owner member)

def indexOfMethod (owner name descriptor : String) (ofInterface : Bool) :
    Adding ConstantIndex := do
  let owner ← indexOfClass owner
  let member ← indexOfNameAndType name descriptor
  indexOf (.methodRef owner member ofInterface)

def encode (pool : Pool) : List UInt8 :=
  bigEndian 2 pool.entries.next ++ pool.entries.toList.flatMap Constant.encode

/-- Reads constants until the next index reaches `count`, which each brings nearer by one or two. -/
def readOnto (count : Nat) : (fuel : Nat) → Pool → Decoder Pool
  | 0, pool => pure pool
  | fuel + 1, pool =>
    if pool.entries.next < count then do
      let c ← Constant.decoder (UInt16.ofNat pool.entries.next)
      readOnto count fuel (pool.push c)
    else pure pool

def decoder : Decoder Pool := do
  let count ← Decoder.number 2
  readOnto count count empty

end Pool

end StackMaps
