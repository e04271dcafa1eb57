import StackMaps.Frame.Merge

/-!
What an instruction does to a frame. References are only checked to be references, so that no class
has to be known; operands of other types have to be exactly what the instruction takes.
-/

namespace StackMaps

structure MethodContext where
  pool : Pool
  thisType : RefType
  result : Option FieldType

abbrev Checked (α : Type) := Except TypeFault α

def Numeric.type : Numeric → FlowType
  | int => .int
  | long => .long
  | float => .float
  | double => .double

def Integral.type : Integral → FlowType
  | int => .int
  | long => .long

def Floating.type : Floating → FlowType
  | float => .float
  | double => .double

namespace ArrayKind

def value : ArrayKind → FlowType
  | numeric n => n.type
  | reference => .null
  | byte | char | short => .int

def holds : ArrayKind → FieldType → Bool
  | numeric .int, t => t = .base .int
  | numeric .long, t => t = .base .long
  | numeric .float, t => t = .base .float
  | numeric .double, t => t = .base .double
  | reference, .ref _ => true
  | reference, .base _ => false
  | byte, t => t = .base .byte || t = .base .boolean
  | char, t => t = .base .char
  | short, t => t = .base .short

end ArrayKind

namespace OperandStack

def pop : List FlowType → Checked (FlowType × List FlowType)
  | [] => .error .emptyStack
  | t :: rest => .ok (t, rest)

def popNarrow (stack : List FlowType) : Checked (FlowType × List FlowType) := do
  let (t, rest) ← pop stack
  if width t = 1 then return (t, rest) else throw (.invalidWidth (width t))

def popExact (expected : FlowType) (stack : List FlowType) : Checked (List FlowType) := do
  let (t, rest) ← pop stack
  if t = expected then return rest else throw .invalidType

def popAll : (expected : List FlowType) → List FlowType → Checked (List FlowType)
  | [], stack => .ok stack
  | t :: ts, stack => do popAll ts (← popExact t stack)

def popReference (stack : List FlowType) : Checked (FlowType × List FlowType) := do
  let (t, rest) ← pop stack
  if t.isReference then return (t, rest) else throw .invalidType

def popField (t : FieldType) (stack : List FlowType) : Checked (List FlowType) :=
  match t with
  | .ref _ => Prod.snd <$> popReference stack
  | .base _ => popExact (.ofField t) stack

def popArguments (parameters : List FieldType) (stack : List FlowType) :
    Checked (List FlowType) :=
  parameters.reverse.foldlM (fun stack t => popField t stack) stack

/-- Pops an array whose elements satisfy `holds`, or `null`, which has no element type. -/
def popArray (holds : FieldType → Bool) (stack : List FlowType) :
    Checked (Option FieldType × List FlowType) := do
  let (t, rest) ← pop stack
  match t with
  | .null => return (none, rest)
  | .object r =>
    match r.component? with
    | some element => if holds element then return (element, rest) else throw .invalidType
    | none => throw .notArray
  | _ => throw .notArray

end OperandStack

open OperandStack

/-- Values of two slots move as one, and no instruction takes half of one. -/
def StackOp.apply (op : StackOp) (stack : List FlowType) : Checked (List FlowType) := do
  match op with
  | pop =>
    let (_, stack) ← popNarrow stack
    return stack
  | pop2 =>
    let (a, stack) ← OperandStack.pop stack
    if width a = 1 then
      let (_, stack) ← popNarrow stack
      return stack
    else
      return stack
  | dup =>
    let (a, stack) ← popNarrow stack
    return a :: a :: stack
  | dupX1 =>
    let (a, stack) ← popNarrow stack
    let (b, stack) ← popNarrow stack
    return a :: b :: a :: stack
  | dupX2 =>
    let (a, stack) ← popNarrow stack
    let (b, stack) ← OperandStack.pop stack
    if width b = 1 then
      let (c, stack) ← popNarrow stack
      return a :: b :: c :: a :: stack
    else
      return a :: b :: a :: stack
  | dup2 =>
    let (a, stack) ← OperandStack.pop stack
    if width a = 1 then
      let (b, stack) ← popNarrow stack
      return a :: b :: a :: b :: stack
    else
      return a :: a :: stack
  | dup2X1 =>
    let (a, stack) ← OperandStack.pop stack
    if width a = 1 then
      let (b, stack) ← popNarrow stack
      let (c, stack) ← popNarrow stack
      return a :: b :: c :: a :: b :: stack
    else
      let (b, stack) ← popNarrow stack
      return a :: b :: a :: stack
  | dup2X2 =>
    let (a, stack) ← OperandStack.pop stack
    if width a = 1 then
      let (b, stack) ← popNarrow stack
      let (c, stack) ← OperandStack.pop stack
      if width c = 1 then
        let (d, stack) ← popNarrow stack
        return a :: b :: c :: d :: a :: b :: stack
      else
        return a :: b :: c :: a :: b :: stack
    else
      let (b, stack) ← OperandStack.pop stack
      if width b = 1 then
        let (c, stack) ← popNarrow stack
        return a :: b :: c :: a :: stack
      else
        return a :: b :: a :: stack
  | swap =>
    let (a, stack) ← popNarrow stack
    let (b, stack) ← popNarrow stack
    return b :: a :: stack

namespace LocalSlots

def read (slot : UInt16) (locals : List FlowType) : Checked FlowType :=
  match locals[slot.toNat]? with
  | some t => .ok t
  | none => .error (.invalidSlot slot)

def readExact (expected : FlowType) (slot : UInt16) (locals : List FlowType) : Checked Unit := do
  let t ← read slot locals
  if t = expected then return () else throw .invalidType

def spoilWide (slot : Nat) (locals : List FlowType) : List FlowType :=
  match locals[slot]? with
  | some .long | some .double => locals.set slot .top
  | _ => locals

/-- Writes a local. A wide value takes the next slot too, and a wide local that starts in the slot
before cannot be used any more. -/
def write (t : FlowType) (slot : UInt16) (locals : List FlowType) : Checked (List FlowType) :=
  let i := slot.toNat
  if locals.length < i + width t then .error (.invalidSlot slot)
  else
    let spoilt := if i = 0 then locals else spoilWide (i - 1) locals
    let written := spoilt.set i t
    .ok (if width t = 2 then written.set (i + 1) .top else written)

end LocalSlots

open LocalSlots

namespace MethodContext

def constantType (c : MethodContext) (i : ConstantIndex) : Checked FlowType :=
  match c.pool.get? i with
  | some (.integer _) => .ok .int
  | some (.float _) => .ok .float
  | some (.long _) => .ok .long
  | some (.double _) => .ok .double
  | some (.string _) => .ok (.object (.object .string))
  | some (.cls _) => .ok (.object (.object .cls))
  | some (.methodType _) => .ok (.object (.object .methodType))
  | some (.methodHandle ..) => .ok (.object (.object .methodHandle))
  | some (.dynamic _ nameAndType) =>
    match c.pool.nameAndType nameAndType with
    | .error _ => .error (.badConstant i)
    | .ok (_, descriptor) =>
      match FieldType.parse descriptor with
      | .ok t => .ok (.ofField t)
      | .error _ => .error (.badDescriptor descriptor)
  | _ => .error (.badConstant i)

def classType (c : MethodContext) (i : ConstantIndex) : Checked RefType :=
  (c.pool.classType i).mapError fun _ => .badConstant i

def fieldType (c : MethodContext) (i : ConstantIndex) : Checked FieldType :=
  match c.pool.member i with
  | .error _ => .error (.badConstant i)
  | .ok (_, _, descriptor) =>
    (FieldType.parse descriptor).mapError fun _ => .badDescriptor descriptor

def method (c : MethodContext) (i : ConstantIndex) : Checked (String × MethodDescriptor) :=
  match c.pool.member i with
  | .error _ => .error (.badConstant i)
  | .ok (_, name, descriptor) =>
    match MethodDescriptor.parse descriptor with
    | .ok d => .ok (name, d)
    | .error _ => .error (.badDescriptor descriptor)

def callSite (c : MethodContext) (i : ConstantIndex) : Checked MethodDescriptor :=
  match c.pool.get? i with
  | some (.invokeDynamic _ nameAndType) =>
    match c.pool.nameAndType nameAndType with
    | .error _ => .error (.badConstant i)
    | .ok (_, descriptor) =>
      (MethodDescriptor.parse descriptor).mapError fun _ => .badDescriptor descriptor
  | _ => .error (.badConstant i)

end MethodContext

/-- The types that an instruction takes, the first from the top, and those that it leaves, where
this is all that it does. -/
def Straight.effect? : Straight → Option (List FlowType × List FlowType)
  | nop => some ([], [])
  | constNull => some ([], [.null])
  | const kind _ => some ([], [kind.type])
  | pushByte _ | pushShort _ => some ([], [.int])
  | arithmetic kind _ => some ([kind.type, kind.type], [kind.type])
  | negate kind => some ([kind.type], [kind.type])
  | shift kind _ => some ([.int, kind.type], [kind.type])
  | bitwise kind _ => some ([kind.type, kind.type], [kind.type])
  | convert source target => some ([source.type], [target.type])
  | narrow _ => some ([.int], [.int])
  | compareLong => some ([.long, .long], [.int])
  | compareFloating kind _ => some ([kind.type, kind.type], [.int])
  | newArray element => some ([.int], [.object (.arrayOf (.base element))])
  | _ => none

namespace Frame

def push (t : FlowType) (f : Frame) : Frame := { f with stack := t :: f.stack }

def replace (old new : FlowType) (f : Frame) : Frame :=
  let swap := fun t => if t = old then new else t
  ⟨f.locals.map swap, f.stack.map swap⟩

def initialized? (c : MethodContext) : FlowType → Option FlowType
  | .uninitializedThis => some (.object c.thisType)
  | .uninitialized made => some (.object made.type)
  | _ => none

/-- Calls a method. A constructor makes every copy of its receiver an object. -/
def invoke (c : MethodContext) (kind : InvokeKind) (i : ConstantIndex) (f : Frame) :
    Checked Frame := do
  let (name, d) ← c.method i
  let stack ← popArguments d.parameters f.stack
  if kind = .special ∧ name = "<init>" then
    if d.result.isSome then throw .invalidType
    let (receiver, stack) ← pop stack
    match initialized? c receiver with
    | some object => return replace receiver object { f with stack }
    | none => throw .invalidType
  else
    let stack ← if kind = .static then pure stack else Prod.snd <$> popReference stack
    return { f with stack := (d.result.map .ofField).toList ++ stack }

def straight (c : MethodContext) (offset : Nat) (s : Straight) (f : Frame) : Checked Frame := do
  match s with
  | .loadConstant i =>
    let t ← c.constantType i
    if width t = 1 then return f.push t else throw (.invalidWidth (width t))
  | .loadWideConstant i =>
    let t ← c.constantType i
    if width t = 2 then return f.push t else throw (.invalidWidth (width t))
  | .load (.numeric n) slot =>
    readExact n.type slot f.locals
    return f.push n.type
  | .load .reference slot =>
    let t ← read slot f.locals
    if t.isReference then return f.push t else throw .invalidType
  | .store (.numeric n) slot =>
    let stack ← popExact n.type f.stack
    return ⟨← write n.type slot f.locals, stack⟩
  | .store .reference slot =>
    let (t, stack) ← popReference f.stack
    return ⟨← write t slot f.locals, stack⟩
  | .arrayLoad kind =>
    let stack ← popExact .int f.stack
    let (element, stack) ← popArray kind.holds stack
    match kind, element with
    | .reference, some t => return { f with stack := .ofField t :: stack }
    | _, _ => return { f with stack := kind.value :: stack }
  | .arrayStore .reference =>
    let (_, stack) ← popReference f.stack
    let stack ← popExact .int stack
    let (_, stack) ← popArray ArrayKind.reference.holds stack
    return { f with stack }
  | .arrayStore kind =>
    let stack ← popAll [kind.value, .int] f.stack
    let (_, stack) ← popArray kind.holds stack
    return { f with stack }
  | .stack op => return { f with stack := ← op.apply f.stack }
  | .increment slot _ =>
    readExact .int slot f.locals
    return f
  | .getStatic i => return f.push (.ofField (← c.fieldType i))
  | .putStatic i =>
    let t ← c.fieldType i
    return { f with stack := ← popField t f.stack }
  | .getField i =>
    let t ← c.fieldType i
    let (_, stack) ← popReference f.stack
    return { f with stack := .ofField t :: stack }
  | .putField i =>
    let t ← c.fieldType i
    let stack ← popField t f.stack
    let (_, stack) ← popReference stack
    return { f with stack }
  | .invoke kind i => invoke c kind i f
  | .invokeDynamic i =>
    let d ← c.callSite i
    let stack ← popArguments d.parameters f.stack
    return { f with stack := (d.result.map .ofField).toList ++ stack }
  | .new i =>
    let t ← c.classType i
    if t.isArray then throw .invalidType
    return f.push (.uninitialized ⟨UInt16.ofNat offset, t⟩)
  | .newReferenceArray i =>
    let t ← c.classType i
    let stack ← popExact .int f.stack
    return { f with stack := .object (.arrayOf (.ref t)) :: stack }
  | .newMultiArray i dimensions =>
    let t ← c.classType i
    if dimensions = 0 ∨ !t.isArray then throw .notArray
    let stack ← popAll (List.replicate dimensions.toNat .int) f.stack
    return { f with stack := .object t :: stack }
  | .arrayLength =>
    let (_, stack) ← popArray (fun _ => true) f.stack
    return { f with stack := .int :: stack }
  | .checkCast i =>
    let t ← c.classType i
    let (_, stack) ← popReference f.stack
    return { f with stack := .object t :: stack }
  | .instanceOf i =>
    let _ ← c.classType i
    let (_, stack) ← popReference f.stack
    return { f with stack := .int :: stack }
  | .monitorEnter | .monitorExit =>
    let (_, stack) ← popReference f.stack
    return { f with stack }
  | s =>
    match s.effect? with
    | some (taken, left) => return { f with stack := left ++ (← popAll taken f.stack) }
    | none => return f

/-- The frame after a branch, wherever control goes. A throw leaves only the exception. -/
def branch (c : MethodContext) (b : Branch) (f : Frame) : Checked Frame := do
  let result : Option FlowType := c.result.map .ofField
  match b with
  | .ifInt _ _ | .tableSwitch .. | .lookupSwitch .. =>
    return { f with stack := ← popExact .int f.stack }
  | .ifInts _ _ => return { f with stack := ← popAll [.int, .int] f.stack }
  | .ifReferences _ _ =>
    let (_, stack) ← popReference f.stack
    let (_, stack) ← popReference stack
    return { f with stack }
  | .ifNull _ _ =>
    let (_, stack) ← popReference f.stack
    return { f with stack }
  | .goto _ => return f
  | .returnValue (.numeric n) =>
    let stack ← popExact n.type f.stack
    if result = some n.type then return { f with stack } else throw .invalidType
  | .returnValue .reference =>
    let (_, stack) ← popReference f.stack
    match result with
    | some (.object _) => return { f with stack }
    | _ => throw .invalidType
  | .returnVoid => if result.isSome then throw .invalidType else return f
  | .throw =>
    let (exception, _) ← popReference f.stack
    return { f with stack := [exception] }

def step (c : MethodContext) (offset : Nat) : Instruction → Frame → Checked Frame
  | .straight s, f => straight c offset s f
  | .branch b, f => branch c b f

end Frame

end StackMaps
