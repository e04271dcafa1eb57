/-!
Names in a class file. A field, a method or one package segment has an unqualified name; a class
has a binary name, which is unqualified names separated by slashes.
-/

namespace StackMaps

inductive NameError
  | illegalCharacter (name : String)
  | emptyUnqualified
  | emptyBinary
deriving DecidableEq, Repr

def NameError.message : NameError → String
  | illegalCharacter name => s!"Unqualified name '{name}' contains an illegal character"
  | emptyUnqualified => "Unqualified name is empty"
  | emptyBinary => "Binary name is empty"

def segments : List Char → List (List Char)
  | [] => [[]]
  | c :: cs =>
    if c = '/' then [] :: segments cs
    else
      match segments cs with
      | [] => [[c]]
      | s :: ss => (c :: s) :: ss

def isReserved (c : Char) : Bool := c == '.' || c == ';' || c == '[' || c == '/'

def unqualifiedFault (cs : List Char) : Option NameError :=
  if cs.any isReserved then some (.illegalCharacter (String.ofList cs))
  else if cs.isEmpty then some .emptyUnqualified
  else none

/-- Why a text is no binary name; of several bad segments the first counts. -/
def binaryFault (cs : List Char) : Option NameError :=
  if cs.isEmpty then some .emptyBinary
  else (segments cs).findSome? unqualifiedFault

structure UnqualifiedName where
  text : String
  valid : unqualifiedFault text.toList = none
deriving DecidableEq

namespace UnqualifiedName

def ofString (text : String) : Except NameError UnqualifiedName :=
  match h : unqualifiedFault text.toList with
  | none => .ok ⟨text, h⟩
  | some e => .error e

def init : UnqualifiedName := ⟨"<init>", by decide +kernel⟩

def clinit : UnqualifiedName := ⟨"<clinit>", by decide +kernel⟩

end UnqualifiedName

structure BinaryName where
  text : String
  valid : binaryFault text.toList = none
deriving DecidableEq

namespace BinaryName

def ofString (text : String) : Except NameError BinaryName :=
  match h : binaryFault text.toList with
  | none => .ok ⟨text, h⟩
  | some e => .error e

def segments (n : BinaryName) : List (List Char) := StackMaps.segments n.text.toList

def packageDepth (n : BinaryName) : Nat := n.text.toList.count '/'

def entryName (n : BinaryName) : String := n.text ++ ".class"

def object : BinaryName := ⟨"java/lang/Object", by decide +kernel⟩
def throwable : BinaryName := ⟨"java/lang/Throwable", by decide +kernel⟩
def string : BinaryName := ⟨"java/lang/String", by decide +kernel⟩
def cls : BinaryName := ⟨"java/lang/Class", by decide +kernel⟩
def methodHandle : BinaryName := ⟨"java/lang/invoke/MethodHandle", by decide +kernel⟩
def methodType : BinaryName := ⟨"java/lang/invoke/MethodType", by decide +kernel⟩
def cloneable : BinaryName := ⟨"java/lang/Cloneable", by decide +kernel⟩
def serializable : BinaryName := ⟨"java/io/Serializable", by decide +kernel⟩

end BinaryName

end StackMaps
