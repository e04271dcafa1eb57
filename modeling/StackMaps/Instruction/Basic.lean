import StackMaps.Descriptor
import StackMaps.ClassFile.Constant

/-!
The instructions of a method. Forms that differ only in how operands are written are one
instruction: loads and stores cover their one-byte and wide forms, jumps hold absolute offsets.
-/

namespace StackMaps

inductive Numeric
  | int
  | long
  | float
  | double
deriving DecidableEq, Repr

inductive Integral
  | int
  | long
deriving DecidableEq, Repr

inductive Floating
  | float
  | double
deriving DecidableEq, Repr

inductive ValueKind
  | numeric (n : Numeric)
  | reference
deriving DecidableEq, Repr

inductive ArrayKind
  | numeric (n : Numeric)
  | reference
  | byte
  | char
  | short
deriving DecidableEq, Repr

inductive StackOp
  | pop
  | pop2
  | dup
  | dupX1
  | dupX2
  | dup2
  | dup2X1
  | dup2X2
  | swap
deriving DecidableEq, Repr

inductive Arithmetic
  | add
  | sub
  | mul
  | div
  | rem
deriving DecidableEq, Repr

inductive Bitwise
  | and
  | or
  | xor
deriving DecidableEq, Repr

inductive Shift
  | left
  | arithmeticRight
  | logicalRight
deriving DecidableEq, Repr

inductive Narrow
  | byte
  | char
  | short
deriving DecidableEq, Repr

/-- How a floating point comparison answers when it meets no number. -/
inductive Unordered
  | less
  | greater
deriving DecidableEq, Repr

inductive Comparison
  | eq
  | ne
  | lt
  | ge
  | gt
  | le
deriving DecidableEq, Repr

inductive Equality
  | eq
  | ne
deriving DecidableEq, Repr

/-- An interface call repeats how many slots its arguments take. -/
inductive InvokeKind
  | virtual
  | special
  | static
  | interface (slots : UInt8)
deriving DecidableEq, Repr

inductive Straight
  | nop
  | constNull
  | const (kind : Numeric) (value : Int)
  | pushByte (value : Int8)
  | pushShort (value : Int16)
  | loadConstant (index : ConstantIndex)
  | loadWideConstant (index : ConstantIndex)
  | load (kind : ValueKind) (slot : UInt16)
  | store (kind : ValueKind) (slot : UInt16)
  | arrayLoad (kind : ArrayKind)
  | arrayStore (kind : ArrayKind)
  | stack (op : StackOp)
  | arithmetic (kind : Numeric) (op : Arithmetic)
  | negate (kind : Numeric)
  | shift (kind : Integral) (op : Shift)
  | bitwise (kind : Integral) (op : Bitwise)
  | increment (slot : UInt16) (amount : Int16)
  | convert (source target : Numeric)
  | narrow (target : Narrow)
  | compareLong
  | compareFloating (kind : Floating) (unordered : Unordered)
  | getStatic (field : ConstantIndex)
  | putStatic (field : ConstantIndex)
  | getField (field : ConstantIndex)
  | putField (field : ConstantIndex)
  | invoke (kind : InvokeKind) (method : ConstantIndex)
  | invokeDynamic (site : ConstantIndex)
  | new (type : ConstantIndex)
  | newArray (element : BaseType)
  | newReferenceArray (element : ConstantIndex)
  | newMultiArray (type : ConstantIndex) (dimensions : UInt8)
  | arrayLength
  | checkCast (type : ConstantIndex)
  | instanceOf (type : ConstantIndex)
  | monitorEnter
  | monitorExit
deriving DecidableEq

inductive Branch
  | ifInt (c : Comparison) (target : Nat)
  | ifInts (c : Comparison) (target : Nat)
  | ifReferences (c : Equality) (target : Nat)
  | ifNull (c : Equality) (target : Nat)
  | goto (target : Nat)
  | tableSwitch (default : Nat) (low : Int32) (targets : List Nat)
  | lookupSwitch (default : Nat) (targets : List (Int32 × Nat))
  | returnValue (kind : ValueKind)
  | returnVoid
  | throw
deriving DecidableEq

inductive Instruction
  | straight (s : Straight)
  | branch (b : Branch)
deriving DecidableEq

structure Located where
  offset : Nat
  next : Nat
  instruction : Instruction
deriving DecidableEq

namespace Branch

def targets : Branch → List Nat
  | ifInt _ target | ifInts _ target | ifReferences _ target | ifNull _ target | goto target =>
    [target]
  | tableSwitch default _ targets => default :: targets
  | lookupSwitch default targets => default :: targets.map (·.2)
  | returnValue _ | returnVoid | throw => []

def fallsThrough : Branch → Bool
  | ifInt .. | ifInts .. | ifReferences .. | ifNull .. => true
  | goto _ | tableSwitch .. | lookupSwitch .. | returnValue _ | returnVoid | throw => false

end Branch

namespace Instruction

def targets : Instruction → List Nat
  | straight _ => []
  | branch b => b.targets

def fallsThrough : Instruction → Bool
  | straight _ => true
  | branch b => b.fallsThrough

def isBranch : Instruction → Bool
  | straight _ => false
  | branch _ => true

end Instruction

end StackMaps
