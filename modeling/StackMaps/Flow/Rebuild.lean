import StackMaps.Flow.Analysis
import StackMaps.Frame.Stored
import StackMaps.Warning

/-!
The new stack map table of a method. Code that is never reached is overwritten with code that is
trivially well typed, and exception handlers cover it no more.
-/

namespace StackMaps

structure Summary where
  frames : Nat
  deadBlocks : Nat
  maxStack : Nat
deriving DecidableEq

structure Rebuilt where
  code : Code
  pool : Pool
  summary : Summary

namespace Handler

def livePieces (start stop : Nat) : List (Nat × Nat) → List (Nat × Nat)
  | [] => if start < stop then [(start, stop)] else []
  | (deadStart, deadStop) :: dead =>
    if deadStop ≤ start ∨ stop ≤ deadStart then livePieces start stop dead
    else
      (if start < deadStart then [(start, deadStart)] else []) ++ livePieces deadStop stop dead

def trim (h : Handler) (dead : List (Nat × Nat)) : List Handler :=
  (livePieces h.start.toNat h.stop.toNat dead).map fun (start, stop) =>
    { h with start := UInt16.ofNat start, stop := UInt16.ofNat stop }

end Handler

namespace Block

/-- Code that does nothing and then throws what is on the stack. -/
def tomb (length : Nat) : List UInt8 := List.replicate (length - 1) 0x00 ++ [0xbf]

def buryOnto (isDead : Block → Bool) (done : List (List UInt8)) :
    List Block → List UInt8 → List UInt8
  | [], bytes => (bytes :: done).reverse.flatten
  | b :: bs, bytes =>
    let length := b.stop - b.start
    let piece := if isDead b then tomb length else bytes.take length
    buryOnto isDead (piece :: done) bs (bytes.drop length)

end Block

namespace Analysis

def isDead (a : Analysis) (b : Block) : Bool := (a.entryFrame b).isNone

/-- The entries of the table for frames, lowest offset first, onto `done`, last first. The first one
is relative to the frame on entry, which is stored after it. -/
def tableOnto (initial : Frame) (done : List StackMapFrame)
    (previous : Option (Nat × StoredFrame)) : List (Nat × Frame) → Pool.Adding StackMapTable
  | [] => return done.reverse
  | (offset, f) :: rest => do
    let stored ← f.store
    match previous with
    | none =>
      let start ← initial.store
      let frame := stored.compress (UInt16.ofNat offset) start
      tableOnto initial (frame :: done) (some (offset, stored)) rest
    | some (before, last) =>
      let frame := stored.compress (UInt16.ofNat (offset - before - 1)) last
      tableOnto initial (frame :: done) (some (offset, stored)) rest

def table (a : Analysis) : Pool.Adding StackMapTable := tableOnto a.initial [] none a.frames

def tableAttribute (table : StackMapTable) : Pool.Adding (Option Attribute) := do
  if table.isEmpty then return none
  else return some (← Attribute.adding StackMapTable.attributeName table.encode)

def warnings (a : Analysis) (signature : Signature) (code : Code) : List Warning :=
  if code.maxStack.toNat < a.maxStack then
    [.shallowStack signature.name a.maxStack code.maxStack.toNat]
  else []

/-- The method with its new table. Unreachable code needs room for what it throws. -/
def rebuild (a : Analysis) (code : Code) (pool : Pool) : Except Error Rebuilt :=
  let dead := a.deadBlocks
  let ranges := dead.map fun b => (b.start, b.stop)
  let changed : Code :=
    { code with
      maxStack := if !dead.isEmpty ∧ code.maxStack = 0 then 1 else code.maxStack
      bytes := Block.buryOnto a.isDead [] a.blocks code.bytes
      handlers := code.handlers.flatMap (·.trim ranges) }
  let adding : Pool.Adding (Nat × Option Attribute) := do
    let table ← a.table
    return (table.length, ← tableAttribute table)
  match adding.run pool with
  | (.error e, _) => .error e
  | (.ok (frames, written), pool) =>
    .ok
      { code := changed.withTable pool written
        pool
        summary :=
          ⟨frames, dead.length, if dead.isEmpty then a.maxStack else max a.maxStack 1⟩ }

end Analysis

def rebuild {m : Type → Type} [Monad m] (s : HeaderSource m) (signature : Signature) (code : Code)
    (pool : Pool) : ExceptT Error m Rebuilt := do
  let a ← Analysis.run s signature code pool
  ofExcept (a.rebuild code pool)

end StackMaps
