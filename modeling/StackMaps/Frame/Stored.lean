import StackMaps.Frame.Merge
import StackMaps.Frame.StackMapFrame

/-!
Frames in the form of a class file, and the choice of the stack map frame that leads from one to the
next. A stored local stands for both slots of a long or double, and unusable locals at the end are
left out.
-/

namespace StackMaps

/-- Locals and stack, both with one entry per value, the first local and the bottom first. -/
structure StoredFrame where
  locals : List StoredType
  stack : List StoredType
deriving DecidableEq

namespace FlowType

def store : FlowType → Pool.Adding StoredType
  | .top => return .top
  | .int => return .int
  | .float => return .float
  | .double => return .double
  | .long => return .long
  | .null => return .null
  | .uninitializedThis => return .uninitializedThis
  | .object r => do return .object (← Pool.indexOfClass r.className)
  | .uninitialized made => return .uninitialized made.offset

def storeOnto (done : List StoredType) : List FlowType → Pool.Adding (List StoredType)
  | [] => return done.reverse
  | t :: ts => do
    let stored ← t.store
    storeOnto (stored :: done) ts

end FlowType

namespace Frame

/-- The values in slots, the last first, onto `done`: the slot after a long or double is passed
over. -/
def valuesOnto (done : List FlowType) : List FlowType → List FlowType
  | .long :: _ :: rest => valuesOnto (.long :: done) rest
  | .double :: _ :: rest => valuesOnto (.double :: done) rest
  | t :: rest => valuesOnto (t :: done) rest
  | [] => done

/-- The values in slots up to the last one that can be used. -/
def values (locals : List FlowType) : List FlowType :=
  ((valuesOnto [] locals).dropWhile (· = .top)).reverse

def store (f : Frame) : Pool.Adding StoredFrame := do
  let locals ← FlowType.storeOnto [] (values f.locals)
  let stack ← FlowType.storeOnto [] f.stack.reverse
  return ⟨locals, stack⟩

end Frame

namespace StoredFrame

def full (f : StoredFrame) (delta : UInt16) : StackMapFrame := .full delta f.locals f.stack

/-- The stack map frame that leads from the previous frame to this one, without repeating what it
can leave out. -/
def compress (f : StoredFrame) (delta : UInt16) (previous : StoredFrame) : StackMapFrame :=
  let agree := (f.locals.zip previous.locals).all fun (a, b) => a = b
  let kept := f.locals.length
  let before := previous.locals.length
  match f.stack with
  | [] =>
    if agree then
      if kept = before then .same delta
      else if kept < before ∧ before - kept ≤ 3 then .chop delta (UInt8.ofNat (before - kept))
      else if before < kept ∧ kept - before ≤ 3 then .append delta (f.locals.drop before)
      else f.full delta
    else f.full delta
  | [t] => if f.locals = previous.locals then .sameLocals delta t else f.full delta
  | _ => f.full delta

end StoredFrame

end StackMaps
