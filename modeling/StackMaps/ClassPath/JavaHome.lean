import StackMaps.Warning

/-!
Where a JDK is installed, guessed from the environment.
-/

namespace StackMaps

structure Environment where
  javaHome : Option String
  path : Option String

namespace Environment

variable {m : Type → Type} [Monad m]

def firstFile (fs : FileSystem m) : List Path → m (Option Path)
  | [] => return none
  | p :: ps => do
    if ← fs.isFile p then return some p
    else firstFile fs ps

/-- The JDK of the first `java` on the search path, which is in `bin` of it once links are followed.
-/
def installation (fs : FileSystem m) (path : String) : m (Option Path) := do
  let candidates := (path.splitOn ":").map fun directory => (Path.mk directory).join ⟨"java"⟩
  match ← firstFile fs candidates with
  | none => return none
  | some java =>
    let resolved ← fs.resolve java
    return resolved.bind (·.parent?) |>.bind (·.parent?)

/-- The directory that `JAVA_HOME` names, or else the installation on the search path. -/
def findJavaHome (fs : FileSystem m) (env : Environment) : Warned m (Option Path) := do
  let named ←
    match env.javaHome with
    | none => pure none
    | some text =>
      if ← (fs.isDirectory ⟨text⟩ : m Bool) then pure (some (Path.mk text))
      else
        warn (.badJavaHome ⟨text⟩)
        pure none
  match named, env.path with
  | some home, _ => return some home
  | none, some path => (installation fs path : m (Option Path))
  | none, none => return none

end Environment

end StackMaps
