import StackMaps.Frame.VerificationType

/-!
The entries of a stack map table. Each says where its frame is, relative to the previous one, and
how its frame differs from that one.
-/

namespace StackMaps

/-- `chop` drops the last `count` locals and `append` adds some; the stack is empty in both and in
`same`, and has one entry in `sameLocals`. -/
inductive StackMapFrame
  | same (delta : UInt16)
  | sameLocals (delta : UInt16) (stack : StoredType)
  | chop (delta : UInt16) (count : UInt8)
  | append (delta : UInt16) (locals : List StoredType)
  | full (delta : UInt16) (locals stack : List StoredType)
deriving DecidableEq

abbrev StackMapTable := List StackMapFrame

namespace StackMapFrame

def delta : StackMapFrame → UInt16
  | same delta | sameLocals delta _ | chop delta _ | append delta _ | full delta _ _ => delta

inductive Fault
  | chopCount
  | appendCount
deriving DecidableEq, Repr

def Fault.message : Fault → String
  | chopCount => "ChopLocalsNoStack chops 1-3 locals"
  | appendCount => "AppendLocalsNoStack adds 1-3 locals"

def fault? : StackMapFrame → Option Fault
  | chop _ count => if 0 < count ∧ count < 4 then none else some .chopCount
  | append _ locals =>
    if 0 < locals.length ∧ locals.length < 4 then none else some .appendCount
  | same _ | sameLocals .. | full .. => none

/-- A delta below 64 is part of the tag where the form allows it. -/
def encode : StackMapFrame → List UInt8
  | same delta =>
    if delta < 64 then [delta.toUInt8] else 251 :: encodeUInt16 delta
  | sameLocals delta stack =>
    (if delta < 64 then [64 + delta.toUInt8] else 247 :: encodeUInt16 delta) ++ stack.encode
  | chop delta count => (251 - count) :: encodeUInt16 delta
  | append delta locals =>
    (251 + UInt8.ofNat locals.length) :: encodeUInt16 delta ++ locals.flatMap StoredType.encode
  | full delta locals stack =>
    255 :: encodeUInt16 delta ++ encodeList StoredType.encode locals ++
      encodeList StoredType.encode stack

def decoder : Decoder StackMapFrame := do
  let tag ← Decoder.uint8
  if tag < 64 then
    return same tag.toUInt16
  else if tag < 128 then
    return sameLocals (tag.toUInt16 - 64) (← StoredType.decoder)
  else if tag < 247 then
    Decoder.fail (.unknownFrameType tag)
  else
    let delta ← Decoder.uint16
    if tag = 247 then
      return sameLocals delta (← StoredType.decoder)
    else if tag < 251 then
      return chop delta (251 - tag)
    else if tag = 251 then
      return same delta
    else if tag < 255 then
      return append delta (← Decoder.times StoredType.decoder (tag.toNat - 251))
    else
      return full delta (← Decoder.list StoredType.decoder) (← Decoder.list StoredType.decoder)

end StackMapFrame

namespace StackMapTable

def encode (table : StackMapTable) : List UInt8 := encodeList StackMapFrame.encode table

def decoder : Decoder StackMapTable := Decoder.list StackMapFrame.decoder

end StackMapTable

end StackMaps
