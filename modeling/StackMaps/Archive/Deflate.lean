/-!
Reading compressed data of the deflate format: blocks of bytes as they are, or of literals and
references to earlier output, written in prefix codes.
-/

namespace StackMaps.Deflate

/-- Reads at a position, counted in bits; what cannot be read is malformed or cut off. -/
abbrev BitReader (α : Type) := StateT Nat Option α

def malformed {α : Type} : BitReader α := fun _ => none

def bit (bytes : ByteArray) : BitReader Nat := fun position =>
  match bytes[position / 8]? with
  | some b => some ((b.toNat >>> (position % 8)) % 2, position + 1)
  | none => none

def bits (bytes : ByteArray) : (width : Nat) → BitReader Nat
  | 0 => pure 0
  | width + 1 => do
    let low ← bit bytes
    let high ← bits bytes width
    return low + 2 * high

/-- A code in which shorter words come first and words of one length count up. `counts` says how
many words there are of length 1, 2 and so on, and `symbols` is in the order of the words. -/
structure PrefixCode where
  counts : List Nat
  symbols : Array Nat

namespace PrefixCode

def wordLimit : Nat := 15

def leftOver (free : Nat) : List Nat → Option Nat
  | [] => some free
  | count :: rest => if 2 * free < count then none else leftOver (2 * free - count) rest

/-- The code with words of given lengths, zero for symbols that have none. No word may be left over,
but in a code of no words and in one of a single word that is one bit long. -/
def ofLengths? (lengths : List Nat) : Option PrefixCode :=
  let counts := (List.range wordLimit).map fun i => lengths.count (i + 1)
  let symbols := (List.range wordLimit).flatMap fun i =>
    lengths.zipIdx.filterMap fun (length, symbol) =>
      if length = i + 1 then some symbol else none
  let isShort := symbols.isEmpty || (symbols.length = 1 && lengths.contains 1)
  match leftOver 1 counts with
  | none => none
  | some free => if free = 0 || isShort then some ⟨counts, symbols.toArray⟩ else none

/-- Reads a word bit by bit. Of the words of each length, `first` is the lowest and `index` the
number of words before it. -/
def readFrom (bytes : ByteArray) (symbols : Array Nat) :
    (counts : List Nat) → (word first index : Nat) → BitReader Nat
  | [], _, _, _ => malformed
  | count :: rest, word, first, index => do
    let word := word + (← bit bytes)
    if word < first + count then
      match symbols[index + (word - first)]? with
      | some symbol => return symbol
      | none => malformed
    else readFrom bytes symbols rest (2 * word) (2 * (first + count)) (index + count)

def read (c : PrefixCode) (bytes : ByteArray) : BitReader Nat :=
  readFrom bytes c.symbols c.counts 0 0 0

end PrefixCode

def lengthTable : Array (Nat × Nat) :=
  #[(3, 0), (4, 0), (5, 0), (6, 0), (7, 0), (8, 0), (9, 0), (10, 0), (11, 1), (13, 1), (15, 1),
    (17, 1), (19, 2), (23, 2), (27, 2), (31, 2), (35, 3), (43, 3), (51, 3), (59, 3), (67, 4),
    (83, 4), (99, 4), (115, 4), (131, 5), (163, 5), (195, 5), (227, 5), (258, 0)]

def distanceTable : Array (Nat × Nat) :=
  #[(1, 0), (2, 0), (3, 0), (4, 0), (5, 1), (7, 1), (9, 2), (13, 2), (17, 3), (25, 3), (33, 4),
    (49, 4), (65, 5), (97, 5), (129, 6), (193, 6), (257, 7), (385, 7), (513, 8), (769, 8),
    (1025, 9), (1537, 9), (2049, 10), (3073, 10), (4097, 11), (6145, 11), (8193, 12), (12289, 12),
    (16385, 13), (24577, 13)]

def extended (bytes : ByteArray) (table : Array (Nat × Nat)) (symbol : Nat) : BitReader Nat :=
  match table[symbol]? with
  | none => malformed
  | some (least, width) => do return least + (← bits bytes width)

/-- Repeats output from `distance` back; what is repeated can be part of what it adds. Zeros stand
before the output. -/
def repeatOutput (distance : Nat) : (length : Nat) → ByteArray → ByteArray
  | 0, out => out
  | length + 1, out =>
    let b := if distance ≤ out.size then (out[out.size - distance]?).getD 0 else 0
    repeatOutput distance length (out.push b)

def readSymbols (bytes : ByteArray) (literals distances : PrefixCode) :
    (fuel : Nat) → ByteArray → BitReader ByteArray
  | 0, _ => malformed
  | fuel + 1, out => do
    let symbol ← literals.read bytes
    if symbol < 256 then
      readSymbols bytes literals distances fuel (out.push (UInt8.ofNat symbol))
    else if symbol = 256 then return out
    else
      let length ← extended bytes lengthTable (symbol - 257)
      let distance ← extended bytes distanceTable (← distances.read bytes)
      readSymbols bytes literals distances fuel (repeatOutput distance length out)

def readStored (bytes out : ByteArray) : BitReader ByteArray := do
  modify fun position => (position + 7) / 8 * 8
  let length ← bits bytes 16
  let complement ← bits bytes 16
  let start := (← get) / 8
  if length + complement ≠ 65535 || bytes.size < start + length then malformed
  else
    set ((start + length) * 8)
    return out ++ bytes.extract start (start + length)

def fixedLiterals : Option PrefixCode :=
  PrefixCode.ofLengths? (List.replicate 144 8 ++ List.replicate 112 9 ++ List.replicate 24 7 ++
    List.replicate 8 8)

def fixedDistances : Option PrefixCode := PrefixCode.ofLengths? (List.replicate 32 5)

def lengthOrder : List Nat :=
  [16, 17, 18, 0, 8, 7, 9, 6, 10, 5, 11, 4, 12, 3, 13, 2, 14, 1, 15]

/-- Reads lengths of words until there are `total`, after those read, last first. Symbols from 16 on
repeat the last length or none. -/
def readLengths (bytes : ByteArray) (code : PrefixCode) (total : Nat) :
    (fuel : Nat) → List Nat → BitReader (List Nat)
  | 0, _ => malformed
  | fuel + 1, done => do
    if total < done.length then malformed
    else if done.length = total then return done.reverse
    else
      let symbol ← code.read bytes
      if symbol < 16 then readLengths bytes code total fuel (symbol :: done)
      else if symbol = 16 then
        match done with
        | [] => malformed
        | last :: _ =>
          let count := 3 + (← bits bytes 2)
          readLengths bytes code total fuel (List.replicate count last ++ done)
      else
        let count ← if symbol = 17 then (3 + ·) <$> bits bytes 3 else (11 + ·) <$> bits bytes 7
        readLengths bytes code total fuel (List.replicate count 0 ++ done)

def ofOption {α : Type} : Option α → BitReader α
  | some x => pure x
  | none => malformed

/-- No block brings along words for more symbols than these, the last of which are length 258 and
distance 32768. -/
def literalLimit : Nat := 286
def distanceLimit : Nat := 30

def readCodes (bytes : ByteArray) : BitReader (PrefixCode × PrefixCode) := do
  let literalCount := 257 + (← bits bytes 5)
  let distanceCount := 1 + (← bits bytes 5)
  if literalLimit < literalCount || distanceLimit < distanceCount then malformed
  let count := 4 + (← bits bytes 4)
  let given ← (List.range count).mapM fun _ => bits bytes 3
  let ordered := lengthOrder.zip given
  let short := (List.range 19).map fun i => (ordered.lookup i).getD 0
  let code ← ofOption (PrefixCode.ofLengths? short)
  let total := literalCount + distanceCount
  let lengths ← readLengths bytes code total (total + 1) []
  let literals ← ofOption (PrefixCode.ofLengths? (lengths.take literalCount))
  let distances ← ofOption (PrefixCode.ofLengths? (lengths.drop literalCount))
  return (literals, distances)

def readBlocks (bytes : ByteArray) : (fuel : Nat) → ByteArray → BitReader ByteArray
  | 0, _ => malformed
  | fuel + 1, out => do
    let last ← bit bytes
    let out ←
      match ← bits bytes 2 with
      | 0 => readStored bytes out
      | 1 => do
        let literals ← ofOption fixedLiterals
        let distances ← ofOption fixedDistances
        readSymbols bytes literals distances (8 * bytes.size + 1) out
      | 2 => do
        let (literals, distances) ← readCodes bytes
        readSymbols bytes literals distances (8 * bytes.size + 1) out
      | _ => malformed
    if last = 1 then return out else readBlocks bytes fuel out

def inflate? (bytes : ByteArray) : Option ByteArray :=
  ((readBlocks bytes (8 * bytes.size + 1) .empty).run 0).map (·.1)

end StackMaps.Deflate
