import StackMaps.ClassFile.AccessFlags
import StackMaps.ClassPath.Error

/-!
What is worth telling but no reason to stop.
-/

namespace StackMaps

/-- `misplacedClass` is a class file found under another name than its own. -/
inductive Warning
  | misplacedClass (location : Path) (held wanted : BinaryName)
  | failedLoad (name : BinaryName) (e : ClassPathError)
  | badJavaHome (path : Path)
  | oldVersion (name : BinaryName) (version : Version)
  | overloaded (name : String) (descriptors : List String)
  | noLibrary (javaHome : Path)
  | noJdk
  | shallowStack (method : String) (needed declared : Nat)
deriving DecidableEq

def Warning.message : Warning → String
  | misplacedClass location held wanted =>
    s!"{location.text} holds {held.text} instead of {wanted.text}"
  | failedLoad name e => s!"failed to load {name.text}: {e.message}"
  | badJavaHome path => s!"JAVA_HOME ({path.text}) is not a directory"
  | oldVersion name version =>
    s!"{name.text} has version {version.major.toNat}.{version.minor.toNat}, " ++
      "which predates stack map tables"
  | overloaded name descriptors =>
    s!"{name} is overloaded (" ++ ", ".intercalate descriptors ++ "), using the first one"
  | noLibrary javaHome =>
    s!"no jmods or rt.jar under {javaHome.text}, only common java classes are known"
  | noJdk => "no JDK found, only common java classes are known"
  | shallowStack method needed declared =>
    s!"{method} needs a stack of {needed} but only declares {declared}"

abbrev Warned (m : Type → Type) (α : Type) := StateT (List Warning) m α

def warn {m : Type → Type} [Monad m] (w : Warning) : Warned m Unit := modify (· ++ [w])

end StackMaps
