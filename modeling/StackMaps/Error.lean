import StackMaps.Frame.VerificationType
import StackMaps.Instruction.Decode
import StackMaps.Instruction.Text
import StackMaps.Text.Quoted

/-!
Why a class file, a method or one of its instructions is refused, and the text that says so.
-/

namespace StackMaps

inductive TypeFault
  | emptyStack
  | invalidWidth (found : Nat)
  | notArray
  | invalidSlot (slot : UInt16)
  | invalidType
  | badConstant (index : ConstantIndex)
  | badDescriptor (text : String)
  | fallsOffEnd
deriving DecidableEq, Repr

def TypeFault.text : TypeFault → String
  | emptyStack => "EmptyStack"
  | invalidWidth found => s!"InvalidWidth({found})"
  | notArray => "NotArrayType"
  | invalidSlot slot => s!"InvalidIndex({slot.toNat})"
  | invalidType => "InvalidType"
  | badConstant index => s!"BadConstant({index.toNat})"
  | badDescriptor descriptor => "BadDescriptor(" ++ Quoted.text descriptor ++ ")"
  | fallsOffEnd => "FallsOffEnd"

inductive FaultSite
  | methodEntry
  | instruction (i : Instruction)
deriving DecidableEq

def FaultSite.text : FaultSite → String
  | methodEntry => "method entry"
  | instruction i => i.text

/-- `unsettled` is a data flow that still changes after so many visits of blocks. -/
inductive Error
  | format (e : FormatError)
  | badDescriptor (text : String)
  | badName (e : DescriptorError)
  | code (e : CodeError)
  | type (offset : Nat) (site : FaultSite) (fault : TypeFault)
  | incompatible (offset : Nat) (existing incoming : List FlowType)
  | unknownClass (offset : Nat) (name : BinaryName)
  | poolFull (index : Nat)
  | unsettled (visits : Nat)
deriving DecidableEq

def CodeError.message (e : CodeError) : String :=
  match e.fault with
  | .unsupported opcode =>
    s!"unsupported instruction (opcode 0x{Quoted.hex opcode.toNat}) at offset {e.offset}"
  | fault => s!"cannot decode bytecode at offset {e.offset}: {fault.text}"

def Error.message : Error → String
  | format e => s!"malformed class file: {e.text}"
  | badDescriptor text => s!"bad descriptor: {text}"
  | badName e => s!"bad name: {e.message}"
  | code e => e.message
  | type offset site fault => s!"type error at offset {offset} ({site.text}): {fault.text}"
  | incompatible offset existing incoming =>
    s!"incompatible stacks at offset {offset}: " ++
      Quoted.list (existing.map FlowType.describe) ++ " and " ++
      Quoted.list (incoming.map FlowType.describe)
  | unknownClass offset name =>
    s!"cannot merge frames at offset {offset}: class {name.text} is not on the class path"
  | poolFull index => s!"constant pool overflow at index {index}"
  | unsettled visits => s!"frames still change after {visits} visits of blocks"

end StackMaps
