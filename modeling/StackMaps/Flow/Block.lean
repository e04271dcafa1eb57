import Std.Data.TreeSet
import StackMaps.ClassFile.Attribute

/-!
Basic blocks: the stretches of a method that control enters only at their start.
-/

namespace StackMaps

/-- The instructions at `start ..< stop`, of which there are `first` before them in the method. -/
structure Block where
  start : Nat
  stop : Nat
  first : Nat
  code : List Located
deriving DecidableEq

namespace Block

/-- Where a block can start: at the start of the method, a jump target, after a branch or at an
exception handler. -/
def leaders (code : List Located) (handlers : List Handler) (length : Nat) : Std.TreeSet Nat :=
  let ofCode := code.foldl
    (fun offsets located =>
      if located.instruction.isBranch then
        let offsets := located.instruction.targets.foldl (·.insert ·) offsets
        if located.next < length then offsets.insert located.next else offsets
      else offsets)
    ({0} : Std.TreeSet Nat)
  handlers.foldl (fun offsets h => offsets.insert h.target.toNat) ofCode

/-- Where a frame has to be written down, if control gets there: at a jump target, after a branch
that does not fall through and at an exception handler. -/
def frameTargets (code : List Located) (handlers : List Handler) (length : Nat) :
    Std.TreeSet Nat :=
  let ofCode := code.foldl
    (fun offsets located =>
      if located.instruction.isBranch then
        let offsets := located.instruction.targets.foldl (·.insert ·) offsets
        if located.next < length ∧ !located.instruction.fallsThrough then
          offsets.insert located.next
        else offsets
      else offsets)
    (∅ : Std.TreeSet Nat)
  handlers.foldl (fun offsets h => offsets.insert h.target.toNat) ofCode

def ofReversed (code : List Located) (first stop : Nat) : Block where
  start := (code.getLast?.map (·.offset)).getD stop
  stop := stop
  first := first
  code := code.reverse

/-- Cuts instructions at leaders. `current` is the block begun, last instruction first, `first` the
number of instructions before it and `done` the blocks before it, last first. -/
def splitOnto (leaders : Std.TreeSet Nat) (length : Nat) (done : List Block) (first : Nat)
    (current : List Located) : List Located → List Block
  | [] => (ofReversed current first length :: done).reverse
  | located :: rest =>
    if !current.isEmpty && leaders.contains located.offset then
      splitOnto leaders length (ofReversed current first located.offset :: done)
        (first + current.length) [located] rest
    else
      splitOnto leaders length done first (located :: current) rest

def split (leaders : Std.TreeSet Nat) (length : Nat) (code : List Located) : List Block :=
  splitOnto leaders length [] 0 [] code

end Block

end StackMaps
