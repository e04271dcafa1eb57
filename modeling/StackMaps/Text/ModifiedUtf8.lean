/-!
Modified UTF-8, the text encoding of class files: every UTF-16 unit is written in one, two or three
bytes, and U+0000 takes two so that no byte is zero.
-/

namespace StackMaps.ModifiedUtf8

def units (c : Char) : List Nat :=
  if c.toNat < 0x10000 then [c.toNat]
  else [0xD800 + (c.toNat - 0x10000) / 0x400, 0xDC00 + (c.toNat - 0x10000) % 0x400]

def encodeUnit (unit : Nat) : List UInt8 :=
  if 0 < unit ∧ unit < 0x80 then [UInt8.ofNat unit]
  else if unit < 0x800 then [UInt8.ofNat (0xC0 + unit / 64), UInt8.ofNat (0x80 + unit % 64)]
  else
    [UInt8.ofNat (0xE0 + unit / 4096), UInt8.ofNat (0x80 + unit / 64 % 64),
      UInt8.ofNat (0x80 + unit % 64)]

def encode (text : String) : List UInt8 :=
  (text.toList.flatMap units).flatMap encodeUnit

def isContinuation (b : UInt8) : Bool := 0x80 ≤ b.toNat && b.toNat < 0xC0

/-- The units of the bytes, after those collected, newest first, in `done`. Groups that are longer
than they need to be are read too. -/
def unitsOnto (done : List Nat) : List UInt8 → Option (List Nat)
  | [] => some done.reverse
  | b :: rest =>
    let lead := b.toNat
    if 0 < lead ∧ lead < 0x80 then unitsOnto (lead :: done) rest
    else if 0xC0 ≤ lead ∧ lead < 0xE0 then
      match rest with
      | c :: rest =>
        if isContinuation c then
          unitsOnto ((lead % 32 * 64 + c.toNat % 64) :: done) rest
        else none
      | _ => none
    else if 0xE0 ≤ lead ∧ lead < 0xF0 then
      match rest with
      | c :: d :: rest =>
        if isContinuation c ∧ isContinuation d then
          unitsOnto ((lead % 16 * 4096 + c.toNat % 64 * 64 + d.toNat % 64) :: done) rest
        else none
      | _ => none
    else none

def isHighSurrogate (unit : Nat) : Bool := 0xD800 ≤ unit && unit < 0xDC00
def isLowSurrogate (unit : Nat) : Bool := 0xDC00 ≤ unit && unit < 0xE000

/-- The characters of UTF-16 units, after those collected in `done`; an unpaired surrogate is
refused. -/
def charsOnto (done : List Char) : List Nat → Option (List Char)
  | [] => some done.reverse
  | u :: rest =>
    if isHighSurrogate u then
      match rest with
      | v :: rest =>
        if isLowSurrogate v then
          charsOnto (Char.ofNat (0x10000 + (u - 0xD800) * 0x400 + (v - 0xDC00)) :: done) rest
        else none
      | _ => none
    else if isLowSurrogate u then none
    else charsOnto (Char.ofNat u :: done) rest

def decode (bytes : List UInt8) : Option String := do
  let units ← unitsOnto [] bytes
  let chars ← charsOnto [] units
  return String.ofList chars

end StackMaps.ModifiedUtf8
