import StackMaps.Instruction.Basic

/-!
How error messages and listings write an instruction: its name and its operands, with absolute
targets.
-/

namespace StackMaps

def Numeric.letter : Numeric → String
  | int => "I"
  | long => "L"
  | float => "F"
  | double => "D"

def Integral.letter : Integral → String
  | int => "I"
  | long => "L"

def Floating.letter : Floating → String
  | float => "F"
  | double => "D"

def ValueKind.letter : ValueKind → String
  | numeric n => n.letter
  | reference => "A"

def ArrayKind.letter : ArrayKind → String
  | numeric n => n.letter
  | reference => "A"
  | byte => "B"
  | char => "C"
  | short => "S"

def StackOp.text : StackOp → String
  | pop => "Pop"
  | pop2 => "Pop2"
  | dup => "Dup"
  | dupX1 => "DupX1"
  | dupX2 => "DupX2"
  | dup2 => "Dup2"
  | dup2X1 => "Dup2X1"
  | dup2X2 => "Dup2X2"
  | swap => "Swap"

def Arithmetic.text : Arithmetic → String
  | add => "Add"
  | sub => "Sub"
  | mul => "Mul"
  | div => "Div"
  | rem => "Rem"

def Bitwise.text : Bitwise → String
  | and => "And"
  | or => "Or"
  | xor => "Xor"

def Shift.text : Shift → String
  | left => "Left"
  | arithmeticRight => "ArithmeticRight"
  | logicalRight => "LogicalRight"

def Narrow.letter : Narrow → String
  | byte => "B"
  | char => "C"
  | short => "S"

def Unordered.text : Unordered → String
  | less => "L"
  | greater => "G"

def Comparison.text : Comparison → String
  | eq => "EQ"
  | ne => "NE"
  | lt => "LT"
  | ge => "GE"
  | gt => "GT"
  | le => "LE"

def Equality.text : Equality → String
  | eq => "EQ"
  | ne => "NE"

def BaseType.text : BaseType → String
  | byte => "Byte"
  | char => "Char"
  | double => "Double"
  | float => "Float"
  | int => "Int"
  | long => "Long"
  | short => "Short"
  | boolean => "Boolean"

def InvokeKind.text : InvokeKind → String
  | virtual => "Virtual"
  | special => "Special"
  | static => "Static"
  | interface slots => s!"Interface({slots.toNat})"

def callText (name : String) (operands : List String) : String :=
  name ++ "(" ++ ", ".intercalate operands ++ ")"

def constantText (index : ConstantIndex) : String := s!"ConstantIndex({index.toNat})"
def classText (index : ConstantIndex) : String := s!"ClassConstantIndex({constantText index})"
def fieldText (index : ConstantIndex) : String := s!"FieldRefConstantIndex({constantText index})"
def methodText (index : ConstantIndex) : String := s!"MethodRefConstantIndex({constantText index})"

/-- The constant -1 is written `M1`. -/
def smallConstantText (value : Int) : String :=
  if value < 0 then s!"M{value.natAbs}" else toString value

def Straight.text : Straight → String
  | nop => "Nop"
  | constNull => "AConstNull"
  | const kind value => kind.letter ++ "Const" ++ smallConstantText value
  | pushByte value => callText "BiPush" [toString value.toInt]
  | pushShort value => callText "SiPush" [toString value.toInt]
  | loadConstant index => callText "Ldc" [constantText index]
  | loadWideConstant index => callText "Ldc2" [constantText index]
  | load kind slot => callText (kind.letter ++ "Load") [toString slot.toNat]
  | store kind slot => callText (kind.letter ++ "Store") [toString slot.toNat]
  | arrayLoad kind => kind.letter ++ "ALoad"
  | arrayStore kind => kind.letter ++ "AStore"
  | stack op => op.text
  | arithmetic kind op => kind.letter ++ op.text
  | negate kind => kind.letter ++ "Neg"
  | shift kind op => callText (kind.letter ++ "Sh") [op.text]
  | bitwise kind op => kind.letter ++ op.text
  | increment slot amount => callText "IInc" [toString slot.toNat, toString amount.toInt]
  | convert source target => source.letter ++ "2" ++ target.letter
  | narrow target => "I2" ++ target.letter
  | compareLong => "LCmp"
  | compareFloating kind unordered => callText (kind.letter ++ "Cmp") [unordered.text]
  | getStatic field => callText "GetStatic" [fieldText field]
  | putStatic field => callText "PutStatic" [fieldText field]
  | getField field => callText "GetField" [fieldText field]
  | putField field => callText "PutField" [fieldText field]
  | invoke kind method => callText "Invoke" [kind.text, methodText method]
  | invokeDynamic site => callText "InvokeDynamic" [constantText site]
  | new type => callText "New" [classText type]
  | newArray element => callText "NewArray" [element.text]
  | newReferenceArray element => callText "ANewArray" [classText element]
  | newMultiArray type dimensions =>
    callText "MultiANewArray" [classText type, toString dimensions.toNat]
  | arrayLength => "ArrayLength"
  | checkCast type => callText "CheckCast" [classText type]
  | instanceOf type => callText "InstanceOf" [classText type]
  | monitorEnter => "MonitorEnter"
  | monitorExit => "MonitorExit"

def Branch.text : Branch → String
  | ifInt c target => callText "If" [c.text, toString target]
  | ifInts c target => callText "IfICmp" [c.text, toString target]
  | ifReferences c target => callText "IfACmp" [c.text, toString target]
  | ifNull c target => callText "IfNull" [c.text, toString target]
  | goto target => callText "Goto" [toString target]
  | tableSwitch default low targets =>
    "TableSwitch \x7b default: " ++ toString default ++ ", low: " ++ toString low.toInt ++
      ", targets: [" ++ ", ".intercalate (targets.map toString) ++ "] \x7d"
  | lookupSwitch default targets =>
    let pairs := targets.map fun (key, target) => s!"({key.toInt}, {target})"
    "LookupSwitch \x7b default: " ++ toString default ++ ", targets: [" ++
      ", ".intercalate pairs ++ "] \x7d"
  | returnValue kind => kind.letter ++ "Return"
  | returnVoid => "Return"
  | throw => "AThrow"

def Instruction.text : Instruction → String
  | straight s => s.text
  | branch b => b.text

end StackMaps
