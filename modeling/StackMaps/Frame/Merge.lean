import StackMaps.Hierarchy.Basic

/-!
Frames and their merge. Where paths meet, each local and each stack entry gets the most specific
type that covers what arrives on any of them; locals with nothing in common become unusable, and
stack entries with nothing in common are an error.
-/

namespace StackMaps

/-- What the locals, one per slot, and the stack, last pushed first, hold at one point of a method.
The second slot of a long or double local is `top`. -/
structure Frame where
  locals : List FlowType
  stack : List FlowType
deriving DecidableEq

namespace Frame

def height (f : Frame) : Nat := totalWidth f.stack

def atHandler (locals : List FlowType) (exception : RefType) : Frame :=
  ⟨locals, [.object exception]⟩

/-- The frame of unreachable code, which ends by throwing what is on the stack. -/
def dead : Frame := atHandler [] (.object .throwable)

end Frame

section

variable {m : Type → Type} [Monad m]

namespace RefType

/-- The merge of arrays with `i` and `j` extra dimensions: element by element as long as both have
dimensions left. -/
def mergeArrays (s : HeaderSource m) (a b : ElementType) : (i j : Nat) → Query m RefType
  | 0, 0 =>
    match a, b with
    | .object a, .object b => do
      return .array 0 (.object (← s.commonSuperclass a b))
    | a, b => return if a = b then .array 0 a else .object .object
  | 0, _ + 1 =>
    match a with
    | .object _ => return .array 0 (.object .object)
    | .base _ => return .object .object
  | _ + 1, 0 =>
    match b with
    | .object _ => return .array 0 (.object .object)
    | .base _ => return .object .object
  | i + 1, j + 1 => do
    return .arrayOf (.ref (← mergeArrays s a b i j))

/-- The most specific type that covers both: the common superclass of classes, the array of the
merged elements of arrays, and `java/lang/Object` of anything else. -/
def merge (s : HeaderSource m) (a b : RefType) : Query m RefType :=
  if a = b then return a
  else
    match a, b with
    | .object a, .object b => do
      return .object (← s.commonSuperclass a b)
    | .array i a, .array j b => mergeArrays s a b i j
    | _, _ => return .object .object

end RefType

namespace FlowType

def merge (s : HeaderSource m) (a b : FlowType) : Query m (Option FlowType) :=
  if a = b then return some a
  else
    match a, b with
    | .null, .object _ => return some b
    | .object _, .null => return some a
    | .object a, .object b => do
      return some (.object (← RefType.merge s a b))
    | _, _ => return none

def mergeLocal (s : HeaderSource m) (a b : FlowType) : Query m FlowType := do
  return (← merge s a b).getD .top

end FlowType

namespace Frame

def needing {α : Type} (offset : Nat) (query : Query m α) : ExceptT Error m α :=
  query.adapt (.unknownClass offset)

def mergeStackOnto (s : HeaderSource m) (done : List FlowType) :
    (a b : List FlowType) → Query m (Option (List FlowType))
  | a :: as, b :: bs => do
    match ← FlowType.merge s a b with
    | some t => mergeStackOnto s (t :: done) as bs
    | none => return none
  | _, _ => return some done

def mergeLocalsOnto (s : HeaderSource m) (done : List FlowType) :
    (a b : List FlowType) → Query m (List FlowType)
  | a :: as, b :: bs => do
    let t ← FlowType.mergeLocal s a b
    mergeLocalsOnto s (t :: done) as bs
  | _, _ => return done.reverse

def merge (s : HeaderSource m) (offset : Nat) (existing incoming : Frame) :
    ExceptT Error m Frame := do
  let conflict : Error :=
    .incompatible offset existing.stack.reverse incoming.stack.reverse
  if existing.stack.length ≠ incoming.stack.length then
    throw conflict
  let merged ← needing offset
    (mergeStackOnto s [] existing.stack.reverse incoming.stack.reverse)
  match merged with
  | none => throw conflict
  | some stack =>
    let locals ← needing offset (mergeLocalsOnto s [] existing.locals incoming.locals)
    return ⟨locals, stack⟩

end Frame

end

end StackMaps
