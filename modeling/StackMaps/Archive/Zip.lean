import StackMaps.Archive.CodePage437
import StackMaps.Archive.Crc32
import StackMaps.Archive.Deflate
import StackMaps.Files.System
import StackMaps.Text.LossyUtf8

/-!
A reader of archives of the zip format, for a program that runs. A directory at the end of an archive
says what it holds; other data may stand before the archive, and offsets are counted from where it
starts.
-/

namespace StackMaps

structure ZipMember where
  name : String
  encrypted : Bool
  method : Nat
  checksum : UInt32
  packedSize : Nat
  header : Nat

structure Zip where
  bytes : ByteArray
  members : List ZipMember

namespace Zip

def malformed : ArchiveFault := .unusable "not a readable archive"
def damaged : FileFault := .unusable "damaged file in archive"

def word (bytes : ByteArray) (offset : Nat) : (width : Nat) → Option Nat
  | 0 => some 0
  | width + 1 => do
    let low ← bytes[offset]?
    let high ← word bytes (offset + 1) width
    return low.toNat + 256 * high

def slice (bytes : ByteArray) (offset length : Nat) : Option ByteArray :=
  if offset + length ≤ bytes.size then some (bytes.extract offset (offset + length)) else none

def firstSignature (bytes : ByteArray) (signature lowest : Nat) : (count : Nat) → Option Nat
  | 0 => none
  | count + 1 =>
    if word bytes lowest 4 = some signature then some lowest
    else firstSignature bytes signature (lowest + 1) count

def lastSignature (bytes : ByteArray) (signature lowest : Nat) : (count : Nat) → Option Nat
  | 0 => none
  | count + 1 =>
    if word bytes (lowest + count) 4 = some signature then some (lowest + count)
    else lastSignature bytes signature lowest count

structure EndRecord where
  offset : Nat
  disk : Nat
  directoryDisk : Nat
  count : Nat
  total : Nat
  directorySize : Nat
  directoryOffset : Nat
  commentSize : Nat

namespace EndRecord

def signature : Nat := 0x06054b50
def size : Nat := 22
def commentLimit : Nat := 65535

def atOffset? (bytes : ByteArray) (offset : Nat) : Option EndRecord := do
  let disk ← word bytes (offset + 4) 2
  let directoryDisk ← word bytes (offset + 6) 2
  let count ← word bytes (offset + 8) 2
  let total ← word bytes (offset + 10) 2
  let directorySize ← word bytes (offset + 12) 4
  let directoryOffset ← word bytes (offset + 16) 4
  let commentSize ← word bytes (offset + 20) 2
  guard (offset + size + commentSize ≤ bytes.size)
  return ⟨offset, disk, directoryDisk, count, total, directorySize, directoryOffset, commentSize⟩

def find? (bytes : ByteArray) : Option EndRecord := do
  guard (size ≤ bytes.size)
  let highest := bytes.size - size
  let lowest := highest - commentLimit
  atOffset? bytes (← lastSignature bytes signature lowest (highest - lowest + 1))

def isFull (r : EndRecord) : Bool :=
  r.disk = 0xFFFF || r.directoryDisk = 0xFFFF || r.count = 0xFFFF || r.total = 0xFFFF ||
    r.directorySize = 0xFFFFFFFF || r.directoryOffset = 0xFFFFFFFF

end EndRecord

structure ZipIndex where
  origin : Nat
  offset : Nat
  count : Nat

namespace ZipIndex

/-- The directory ends where the end record starts, which shows what stands before the archive. -/
def ofEndRecord? (r : EndRecord) : Option ZipIndex := do
  guard (r.directorySize + r.directoryOffset ≤ r.offset)
  let origin := r.offset - r.directorySize - r.directoryOffset
  return ⟨origin, origin + r.directoryOffset, r.count⟩

def locatorSignature : Nat := 0x07064b50
def locatorSize : Nat := 20
def largeSignature : Nat := 0x06064b50

/-- Where the locator of a large record starts, if there is one. It is looked for from the end of
the file, past the end record and its comment. -/
def locator? (bytes : ByteArray) (r : EndRecord) : Option Nat := do
  let distance := locatorSize + EndRecord.size + r.commentSize
  guard (distance ≤ bytes.size)
  guard ((← word bytes (bytes.size - distance) 4) = locatorSignature)
  return bytes.size - distance

/-- The directory that a large record tells of, which is where its locator says or, with data before
the archive, later. It leaves room for itself and the locator but for a signature. -/
def ofLocator? (bytes : ByteArray) (r : EndRecord) (locator : Nat) : Option ZipIndex := do
  let locatorDisk ← word bytes (locator + 4) 4
  guard (r.isFull || r.disk = locatorDisk)
  let nominal ← word bytes (locator + 8) 8
  let reserve := 60
  guard (nominal + reserve ≤ r.offset)
  let large ← firstSignature bytes largeSignature nominal (r.offset - reserve - nominal + 1)
  let disk ← word bytes (large + 16) 4
  let directoryDisk ← word bytes (large + 20) 4
  guard (disk = directoryDisk)
  let count ← word bytes (large + 32) 8
  let offset ← word bytes (large + 48) 8
  let origin := large - nominal
  return ⟨origin, origin + offset, count⟩

def ofBytes? (bytes : ByteArray) : Option ZipIndex := do
  let r ← EndRecord.find? bytes
  guard (r.isFull || r.disk = r.directoryDisk)
  match locator? bytes r with
  | none => ofEndRecord? r
  | some locator => ofLocator? bytes r locator

end ZipIndex

/-- What an extra field can say in place of the directory entry that it belongs to. A sealed file is
encrypted in a way that only its extra field tells. -/
structure Extent where
  method : Nat
  unpackedSize : Nat
  packedSize : Nat
  header : Nat
  isSealed : Bool

inductive ExtraFault
  | cutOff
  | unusable
deriving DecidableEq, Repr

abbrev ExtraReader (α : Type) := ExceptT ExtraFault (StateM Extent) α

namespace ExtraReader

def word (extra : ByteArray) (offset width : Nat) : ExtraReader Nat :=
  match Zip.word extra offset width with
  | some n => return n
  | none => throw .cutOff

/-- The greatest value of a size or an offset, which says that an extra field has the true one. -/
def full : Nat := 0xFFFFFFFF

def large (extra : ByteArray) (offset : Nat) : ExtraReader Nat := do
  let e ← get
  let offset ←
    if e.unpackedSize = full then do
      let size ← word extra offset 8
      modify fun e => { e with unpackedSize := size }
      pure (offset + 8)
    else pure offset
  let offset ←
    if e.packedSize = full then do
      let size ← word extra offset 8
      modify fun e => { e with packedSize := size }
      pure (offset + 8)
    else pure offset
  if e.header = full then
    let header ← word extra offset 8
    modify fun e => { e with header := header }
    return offset + 8
  else
    return offset

def sealSize : Nat := 7
def sealVendor : Nat := 0x4541

def sealing (extra : ByteArray) (offset : Nat) : ExtraReader Unit := do
  let version ← word extra offset 2
  let vendor ← word extra (offset + 2) 2
  let strength ← word extra (offset + 4) 1
  let method ← word extra (offset + 5) 2
  if vendor ≠ sealVendor || version = 0 || 2 < version || strength = 0 || 3 < strength then
    throw .unusable
  modify fun e => { e with method, isSealed := true }

def largeKind : Nat := 0x0001
def sealKind : Nat := 0x9901

def field (extra : ByteArray) (offset : Nat) : ExtraReader Nat := do
  let kind ← word extra offset 2
  let size ← word extra (offset + 2) 2
  let start := offset + 4
  if kind = largeKind then
    let stop ← large extra start
    return max stop (start + size)
  else if kind = sealKind then
    if size ≠ sealSize then throw .unusable
    sealing extra start
    return start + size
  else return start + size

def fields (extra : ByteArray) : (fuel offset : Nat) → ExtraReader Unit
  | 0, _ => return ()
  | fuel + 1, offset => do
    if offset < extra.size then fields extra fuel (← field extra offset)

end ExtraReader

def Extent.withExtra? (e : Extent) (extra : ByteArray) : Option Extent :=
  match (ExtraReader.fields extra extra.size 0).run.run e with
  | (.error .unusable, _) => none
  | (.error .cutOff, e) | (.ok (), e) => some e

def entrySignature : Nat := 0x02014b50
def entrySize : Nat := 46

/-- The method of a sealed file, unless its extra field tells of another. -/
def sealedMethod : Nat := 99

def offsetLimit : Nat := 0x10000000000000000

def memberAt (bytes : ByteArray) (origin offset : Nat) : Option (ZipMember × Nat) := do
  guard ((← word bytes offset 4) = entrySignature)
  let flags ← word bytes (offset + 8) 2
  let method ← word bytes (offset + 10) 2
  let checksum ← word bytes (offset + 16) 4
  let packedSize ← word bytes (offset + 20) 4
  let unpackedSize ← word bytes (offset + 24) 4
  let nameSize ← word bytes (offset + 28) 2
  let extraSize ← word bytes (offset + 30) 2
  let commentSize ← word bytes (offset + 32) 2
  let header ← word bytes (offset + 42) 4
  let rest ← slice bytes (offset + entrySize) (nameSize + extraSize + commentSize)
  let rawName := (rest.extract 0 nameSize).data.toList
  let name := if flags.testBit 11 then LossyUtf8.decode rawName else CodePage437.decode rawName
  let e ← Extent.withExtra? ⟨method, unpackedSize, packedSize, header, false⟩
    (rest.extract nameSize (nameSize + extraSize))
  guard (e.isSealed || e.method ≠ sealedMethod)
  guard (origin + e.header < offsetLimit)
  let member : ZipMember :=
    { name
      encrypted := flags.testBit 0 || e.isSealed
      method := e.method
      checksum := UInt32.ofNat checksum
      packedSize := e.packedSize
      header := origin + e.header }
  return (member, offset + entrySize + rest.size)

def membersOnto (bytes : ByteArray) (origin : Nat) (done : List ZipMember) :
    (count offset : Nat) → Option (List ZipMember)
  | 0, _ => some done.reverse
  | count + 1, offset => do
    let (member, next) ← memberAt bytes origin offset
    membersOnto bytes origin (member :: done) count next

def ofBytes? (bytes : ByteArray) : Option Zip := do
  let index ← ZipIndex.ofBytes? bytes
  return ⟨bytes, ← membersOnto bytes index.origin [] index.count index.offset⟩

/-- Of several files of one name the last counts. -/
def find? (z : Zip) (name : String) : Option ZipMember :=
  z.members.reverse.find? fun member => member.name = name

def contentsOffset? (z : Zip) (member : ZipMember) : Option Nat := do
  guard ((← word z.bytes member.header 4) = 0x04034b50)
  let nameSize ← word z.bytes (member.header + 26) 2
  let extraSize ← word z.bytes (member.header + 28) 2
  return member.header + 30 + nameSize + extraSize

def checked (member : ZipMember) : Option ByteArray → Except FileFault ByteArray
  | some contents =>
    if Crc32.sum contents = member.checksum then .ok contents else .error damaged
  | none => .error damaged

def extract (z : Zip) (member : ZipMember) : Except ArchiveFault (Except FileFault ByteArray) :=
  if member.encrypted then .error malformed
  else
    match z.contentsOffset? member with
    | none => .error malformed
    | some start =>
      let packed := z.bytes.extract start (start + member.packedSize)
      match member.method with
      | 0 => .ok (checked member (some packed))
      | 8 => .ok (checked member (Deflate.inflate? packed))
      | _ => .error malformed

def archive (z : Zip) : Archive where
  file name :=
    match z.find? name with
    | none => .error .missing
    | some member => z.extract member

def reader : ArchiveReader where
  openArchive bytes :=
    match ofBytes? bytes with
    | none => .error malformed
    | some z => .ok z.archive
  limit := offsetLimit

end Zip

end StackMaps
