import StackMaps.Name
import StackMaps.SlotSeq

/-!
Types of fields and methods and their written form, the descriptor: `I`, `[[Ljava/lang/String;`,
`(IJ)V`. Class constants name a class by its binary name and an array by its descriptor.
-/

namespace StackMaps

inductive BaseType
  | byte
  | char
  | double
  | float
  | int
  | long
  | short
  | boolean
deriving DecidableEq, Repr

inductive ElementType
  | base (b : BaseType)
  | object (name : BinaryName)
deriving DecidableEq

/-- A class, or an array with one dimension and `extra` more. -/
inductive RefType
  | object (name : BinaryName)
  | array (extra : Nat) (element : ElementType)
deriving DecidableEq

inductive FieldType
  | base (b : BaseType)
  | ref (r : RefType)
deriving DecidableEq

/-- A method without a result type is `void`. -/
structure MethodDescriptor where
  parameters : List FieldType
  result : Option FieldType
deriving DecidableEq

instance : SlotWidth BaseType where
  width
    | .double | .long => 2
    | _ => 1

instance : SlotWidth FieldType where
  width
    | .base b => width b
    | .ref _ => 1

/-- Local slots taken up by the parameters, and by the receiver if there is one. -/
def MethodDescriptor.slots (d : MethodDescriptor) (receiver : Bool) : Nat :=
  (if receiver then 1 else 0) + totalWidth d.parameters

namespace ElementType

def toField : ElementType → FieldType
  | base b => .base b
  | object name => .ref (.object name)

end ElementType

namespace RefType

def isArray : RefType → Bool
  | object _ => false
  | array _ _ => true

def dimensions : RefType → Nat
  | object _ => 0
  | array extra _ => extra + 1

def arrayOf : FieldType → RefType
  | .base b => array 0 (.base b)
  | .ref (.object name) => array 0 (.object name)
  | .ref (.array extra element) => array (extra + 1) element

def component? : RefType → Option FieldType
  | object _ => none
  | array 0 element => some element.toField
  | array (extra + 1) element => some (.ref (.array extra element))

end RefType

def BaseType.letter : BaseType → Char
  | byte => 'B'
  | char => 'C'
  | double => 'D'
  | float => 'F'
  | int => 'I'
  | long => 'J'
  | short => 'S'
  | boolean => 'Z'

def BinaryName.descriptorChars (n : BinaryName) : List Char :=
  'L' :: (n.text.toList ++ [';'])

def ElementType.chars : ElementType → List Char
  | base b => [b.letter]
  | object name => name.descriptorChars

def RefType.chars : RefType → List Char
  | object name => name.descriptorChars
  | array extra element => List.replicate (extra + 1) '[' ++ element.chars

def FieldType.chars : FieldType → List Char
  | base b => [b.letter]
  | ref r => r.chars

def MethodDescriptor.chars (d : MethodDescriptor) : List Char :=
  '(' :: (d.parameters.flatMap FieldType.chars ++
    ')' :: (match d.result with
      | none => ['V']
      | some t => t.chars))

def BaseType.render (b : BaseType) : String := b.letter.toString
def BinaryName.render (n : BinaryName) : String := String.ofList n.descriptorChars
def RefType.render (r : RefType) : String := String.ofList r.chars
def FieldType.render (t : FieldType) : String := String.ofList t.chars
def MethodDescriptor.render (d : MethodDescriptor) : String := String.ofList d.chars

/-- How a class constant names the type. -/
def RefType.className : RefType → String
  | .object name => name.text
  | r => r.render

inductive DescriptorError
  | leftover (c : Char) (source : String)
  | badBaseType (c : Char)
  | missingBaseType
  | unterminatedClass (name : String)
  | notAClass
  | badReferenceType (c : Char)
  | missingReferenceType
  | badFieldType (c : Char)
  | missingFieldType
  | missingParenthesis
  | badName (e : NameError)
deriving DecidableEq, Repr

namespace DescriptorError

def message : DescriptorError → String
  | leftover c source => s!"Unexpected leftover input '{c}' in '{source}'"
  | badBaseType c => s!"Invalid base type character '{c}'"
  | missingBaseType => "Missing base type character"
  | unterminatedClass name => s!"Missing terminator for 'L{name}'"
  | notAClass => "Expected object type to start with \x60L\x60"
  | badReferenceType c => s!"Invalid reference type character '{c}'"
  | missingReferenceType => "Missing reference type"
  | badFieldType c => s!"Invalid field type character '{c}'"
  | missingFieldType => "Missing field type"
  | missingParenthesis => "Expected '(' for method"
  | badName e => e.message

def isEndOfInput : DescriptorError → Bool
  | missingBaseType | unterminatedClass _ | missingReferenceType | missingFieldType => true
  | _ => false

end DescriptorError

abbrev DescriptorParser (α : Type) := List Char → Except DescriptorError (α × List Char)

def DescriptorParser.run {α : Type} (p : DescriptorParser α) (source : String) :
    Except DescriptorError α :=
  match p source.toList with
  | .error e => .error e
  | .ok (x, []) => .ok x
  | .ok (_, c :: _) => .error (.leftover c source)

def BaseType.ofLetter? : Char → Option BaseType
  | 'B' => some byte
  | 'C' => some char
  | 'D' => some double
  | 'F' => some float
  | 'I' => some int
  | 'J' => some long
  | 'S' => some short
  | 'Z' => some boolean
  | _ => none

def BaseType.parser : DescriptorParser BaseType
  | [] => .error .missingBaseType
  | c :: rest =>
    match BaseType.ofLetter? c with
    | some b => .ok (b, rest)
    | none => .error (.badBaseType c)

def BinaryName.parser : DescriptorParser BinaryName
  | 'L' :: rest =>
    let name := rest.takeWhile (· ≠ ';')
    match rest.dropWhile (· ≠ ';') with
    | [] => .error (.unterminatedClass (String.ofList name))
    | _ :: rest =>
      match BinaryName.ofString (String.ofList name) with
      | .ok n => .ok (n, rest)
      | .error e => .error (.badName e)
  | _ => .error .notAClass

def ElementType.parser : DescriptorParser ElementType
  | 'L' :: rest =>
    match BinaryName.parser ('L' :: rest) with
    | .ok (n, rest) => .ok (.object n, rest)
    | .error e => .error e
  | cs =>
    match BaseType.parser cs with
    | .ok (b, rest) => .ok (.base b, rest)
    | .error e => .error e

def RefType.parser : DescriptorParser RefType
  | [] => .error .missingReferenceType
  | 'L' :: rest =>
    match BinaryName.parser ('L' :: rest) with
    | .ok (n, rest) => .ok (.object n, rest)
    | .error e => .error e
  | '[' :: rest =>
    match ElementType.parser (rest.dropWhile (· = '[')) with
    | .ok (t, after) => .ok (.array (rest.takeWhile (· = '[')).length t, after)
    | .error e => .error e
  | c :: _ => .error (.badReferenceType c)

def FieldType.parser : DescriptorParser FieldType
  | [] => .error .missingFieldType
  | c :: rest =>
    match BaseType.ofLetter? c with
    | some b => .ok (.base b, rest)
    | none =>
      if c = 'L' ∨ c = '[' then
        match RefType.parser (c :: rest) with
        | .ok (r, rest) => .ok (.ref r, rest)
        | .error e => .error e
      else .error (.badFieldType c)

/-- Field types up to a closing parenthesis, after those collected, last first, in `done`. Each
takes a character or more, so the length of the input is fuel enough. -/
def MethodDescriptor.parametersOnto (done : List FieldType) :
    (fuel : Nat) → DescriptorParser (List FieldType)
  | _, ')' :: rest => .ok (done.reverse, rest)
  | 0, _ => .error .missingFieldType
  | fuel + 1, cs =>
    match FieldType.parser cs with
    | .ok (t, rest) => parametersOnto (t :: done) fuel rest
    | .error e => .error e

def MethodDescriptor.parser : DescriptorParser MethodDescriptor
  | '(' :: rest =>
    match parametersOnto [] rest.length rest with
    | .error e => .error e
    | .ok (parameters, 'V' :: rest) => .ok (⟨parameters, none⟩, rest)
    | .ok (parameters, rest) =>
      match FieldType.parser rest with
      | .ok (t, rest) => .ok (⟨parameters, some t⟩, rest)
      | .error e => .error e
  | _ => .error .missingParenthesis

def BaseType.parse : String → Except DescriptorError BaseType := DescriptorParser.run parser
def BinaryName.parse : String → Except DescriptorError BinaryName := DescriptorParser.run parser
def RefType.parse : String → Except DescriptorError RefType := DescriptorParser.run parser
def FieldType.parse : String → Except DescriptorError FieldType := DescriptorParser.run parser
def MethodDescriptor.parse : String → Except DescriptorError MethodDescriptor :=
  DescriptorParser.run parser

def RefType.ofClassName (name : String) : Except DescriptorError RefType :=
  match name.toList with
  | '[' :: _ => RefType.parse name
  | _ =>
    match BinaryName.ofString name with
    | .ok n => .ok (.object n)
    | .error e => .error (.badName e)

end StackMaps
