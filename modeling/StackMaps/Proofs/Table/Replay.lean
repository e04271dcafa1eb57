import StackMaps.ClassFile.Attribute
import StackMaps.Flow.Analysis
import StackMaps.Frame.Stored

/-! What a stack map table says by the rules of class files: each entry changes the locals of the
frame before it, a long or double takes two slots, and slots that nothing is said of cannot be
used. -/

namespace StackMaps

abbrev ReadType := VerificationType RefType UInt16

structure ReadFrame where
  locals : List ReadType
  stack : List ReadType
deriving DecidableEq

namespace VerificationType

variable {κ υ υ' : Type}

def slots (t : VerificationType κ υ) : List (VerificationType κ υ) :=
  if width t = 2 then [t, .top] else [t]

def fill (count : Nat) (values : List (VerificationType κ υ)) : List (VerificationType κ υ) :=
  let slots := values.flatMap slots
  slots ++ List.replicate (count - slots.length) .top

def mapMade (f : υ → υ') : VerificationType κ υ → VerificationType κ υ'
  | top => .top
  | int => .int
  | float => .float
  | double => .double
  | long => .long
  | null => .null
  | uninitializedThis => .uninitializedThis
  | object type => .object type
  | uninitialized made => .uninitialized (f made)

end VerificationType

/-- The type without the class of an object under construction, which a class file leaves out. -/
def FlowType.read (t : FlowType) : ReadType := t.mapMade (·.offset)

/-- The frame as a class file says it: of locals that the frame does not have nothing is said. -/
def Frame.read (maxLocals : Nat) (f : Frame) : ReadFrame where
  locals := (f.locals ++ List.replicate (maxLocals - f.locals.length) VerificationType.top).map FlowType.read
  stack := f.stack.reverse.map FlowType.read

def StoredType.read (pool : Pool) : StoredType → Option ReadType
  | .top => some .top
  | .int => some .int
  | .float => some .float
  | .double => some .double
  | .long => some .long
  | .null => some .null
  | .uninitializedThis => some .uninitializedThis
  | .object index => (pool.classType index).toOption.map .object
  | .uninitialized offset => some (.uninitialized offset)

def StackMapFrame.expand (pool : Pool) (locals : List ReadType) :
    StackMapFrame → Option (List ReadType × List ReadType)
  | same _ => some (locals, [])
  | sameLocals _ t => do return (locals, [← t.read pool])
  | chop _ count =>
    if count.toNat ≤ locals.length then some (locals.take (locals.length - count.toNat), []) else none
  | append _ more => do return (locals ++ (← more.mapM (·.read pool)), [])
  | full _ locals stack => do return (← locals.mapM (·.read pool), ← stack.mapM (·.read pool))

namespace StackMapTable

def offsetAfter : (before : Option Nat) → (delta : UInt16) → Nat
  | none, delta => delta.toNat
  | some before, delta => before + delta.toNat + 1

/-- The frames of a table with their offsets, `before` the offset of the frame before the first and
`locals` the values in its locals. -/
def replay (pool : Pool) (maxLocals : Nat) :
    (before : Option Nat) → (locals : List ReadType) → StackMapTable → Option (List (Nat × ReadFrame))
  | _, _, [] => some []
  | before, locals, entry :: rest => do
    let (locals, stack) ← entry.expand pool locals
    let offset := offsetAfter before entry.delta
    let later ← replay pool maxLocals (some offset) locals rest
    return (offset, ⟨VerificationType.fill maxLocals locals, stack⟩) :: later

end StackMapTable

def Signature.entryTypes (s : Signature) : List FlowType :=
  (if s.isStatic then [] else [s.receiver]) ++ s.descriptor.parameters.map .ofField

/-- The frames of the stack map table of a method, read by the rules of class files. -/
def Code.readTable (code : Code) (pool : Pool) (signature : Signature) :
    Option (List (Nat × ReadFrame)) := do
  let t ← code.attributes[← code.tableIndex? pool]?
  let table ← (StackMapTable.ofBody t.body).toOption
  table.replay pool code.maxLocals.toNat none (signature.entryTypes.map FlowType.read)

end StackMaps
