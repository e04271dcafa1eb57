import StackMaps.ClassPath.Basic
import StackMaps.Flow.Rebuild

/-!
The whole of what is done for one method of a class file: the class file is read, the method gets a
new stack map table, and the class file is written below an output directory.
-/

namespace StackMaps

inductive JobError
  | file (fault : FileFault)
  | rebuild (e : Error)
  | noMethod (name : String) (descriptor : Option String)
  | noCode (name descriptor : String)
  | classPath (e : ClassPathError)
deriving DecidableEq

def JobError.message : JobError → String
  | file fault => fault.message
  | rebuild e => e.message
  | noMethod name none => s!"no method named {name}"
  | noMethod name (some descriptor) => s!"no method {name}{descriptor}"
  | noCode name descriptor => s!"method {name}{descriptor} has no code"
  | classPath e => e.message

/-- The method to be given a new table: one of several with the same name has a descriptor. -/
structure MethodChoice where
  name : String
  descriptor : Option String

structure Settings where
  input : Path
  method : MethodChoice
  output : Path
  classPath : List Path
  javaHome : Option Path

structure Selection where
  index : Nat
  method : Method
  signature : Signature
  code : Code

namespace MethodChoice

def candidatesOnto (pool : Pool) (name : String) (index : Nat)
    (done : List (Nat × Method × String)) :
    List Method → Except FormatError (List (Nat × Method × String))
  | [] => .ok done.reverse
  | m :: ms => do
    if (← pool.utf8 m.name) = name then
      let descriptor ← pool.utf8 m.descriptor
      candidatesOnto pool name (index + 1) ((index, m, descriptor) :: done) ms
    else candidatesOnto pool name (index + 1) done ms

def candidates (c : ClassFile) (name : String) :
    Except FormatError (List (Nat × Method × String)) :=
  candidatesOnto c.pool name 0 [] c.methods

def pick (choice : MethodChoice) (found : List (Nat × Method × String)) :
    Option (Nat × Method × String) :=
  match choice.descriptor with
  | none => found.head?
  | some wanted => found.find? fun (_, _, descriptor) => descriptor = wanted

/-- A choice by name alone among several methods. -/
def warnings (choice : MethodChoice) (found : List (Nat × Method × String)) : List Warning :=
  match choice.descriptor, found with
  | none, _ :: _ :: _ => [.overloaded choice.name (found.map (·.2.2))]
  | _, _ => []

end MethodChoice

namespace ClassFile

def selection (c : ClassFile) (owner : BinaryName) (name : String)
    (picked : Nat × Method × String) : Except JobError Selection :=
  let (index, method, descriptor) := picked
  match method.code? c.pool with
  | .error e => .error (.rebuild (.format e))
  | .ok none => .error (.noCode name descriptor)
  | .ok (some code) =>
    match MethodDescriptor.parse descriptor with
    | .error _ => .error (.rebuild (.badDescriptor descriptor))
    | .ok parsed => .ok ⟨index, method, ⟨owner, name, parsed, method.isStatic⟩, code⟩

def withCode (c : ClassFile) (selected : Selection) (rebuilt : Rebuilt) : Except Error ClassFile :=
  match (Attribute.adding Code.attributeName rebuilt.code.encode).run rebuilt.pool with
  | (.error e, _) => .error e
  | (.ok body, pool) =>
    .ok
      { c with
        pool
        methods := c.methods.set selected.index (selected.method.withCode pool body) }

def rebuild (c : ClassFile) (selected : Selection) (a : Analysis) : Except Error ClassFile :=
  match a.rebuild selected.code c.pool with
  | .error e => .error e
  | .ok rebuilt => c.withCode selected rebuilt

end ClassFile

namespace Settings

def announcement (s : Settings) : String :=
  s!"args are :  classfile: {s.input.text}, method: {s.method.name}\n" ++
    s!"output directory: {s.output.text}\n"

end Settings

abbrev Job (m : Type → Type) (α : Type) := ExceptT JobError (Warned m) α

namespace Job

variable {m : Type → Type} [Monad m]

def ask {α : Type} (question : m α) : Job m α := ExceptT.lift (StateT.lift question)

def tell (warnings : List Warning) : Job m Unit := ExceptT.lift (modify (· ++ warnings))

def expect {ε α : Type} (cause : ε → JobError) (result : Except ε α) : Job m α :=
  ExceptT.mk (pure (result.mapError cause))

def extend {α : Type} (cp : ClassPath) (change : ClassPath.Change m α) : Job m (α × ClassPath) := do
  let (result, cp) ← ask (change.run.run cp)
  return (← expect .classPath result, cp)

/-- The class path: the library of the JDK, the entries asked for, and the directory tree that the
input is in, if it is where its class belongs. -/
def classPath (fs : FileSystem m) (s : Settings) (n : BinaryName) : Job m ClassPath := do
  let library ←
    match s.javaHome with
    | none => do
      tell [.noJdk]
      pure ClassPath.empty
    | some home => do
      let (count, library) ← extend .empty (ClassPath.pushLibrary fs home)
      tell (if count = 0 then [.noLibrary home] else [])
      pure library
  let (_, given) ← extend library (ClassPath.pushAll fs s.classPath)
  match s.input.impliedRoot n with
  | none => return given
  | some root =>
    if ← ask (fs.isDirectory root) then
      let (_, all) ← extend given (ClassPath.push fs root)
      return all
    else return given

def analyze (fs : FileSystem m) (cp : ClassPath) (own : ClassHeader) (selected : Selection)
    (pool : Pool) : Job m Analysis := do
  let g := ClassGraph.standard.insert own
  let analysis := Analysis.run (g.source (cp.loader fs)) selected.signature selected.code pool
  let (result, _) ← ExceptT.lift (analysis.run.run g)
  expect .rebuild result

/-- Gives a method a new stack map table and answers where the class file is written. -/
def rebuildFile (fs : FileSystem m) (s : Settings) : Job m Path := do
  let bytes ← expect .file (← ask (fs.read s.input))
  let c ← expect (.rebuild ∘ .format) (ClassFile.parse bytes.data.toList)
  let owner ← expect .rebuild c.thisName
  tell (if c.version.usesStackMaps then [] else [.oldVersion owner c.version])
  let found ← expect (.rebuild ∘ .format) (MethodChoice.candidates c s.method.name)
  tell (s.method.warnings found)
  match s.method.pick found with
  | none => throw (.noMethod s.method.name s.method.descriptor)
  | some picked =>
    let selected ← expect id (c.selection owner s.method.name picked)
    let cp ← classPath fs s owner
    let own ← expect .rebuild (ClassHeader.ofClassFile c)
    let a ← analyze fs cp own selected c.pool
    tell (a.warnings selected.signature selected.code)
    let changed ← expect .rebuild (c.rebuild selected a)
    let path := s.output.join owner.path
    expect .file (← ask (fs.writeWithin path ⟨changed.encode.toArray⟩))
    return path

end Job

end StackMaps
