import StackMaps.ClassPath.JavaHome
import StackMaps.Job

/-!
The command line: what its arguments ask for, and what comes of it.
-/

namespace StackMaps

/-- Options that take a value. Only a class path can be given several times. -/
inductive ValueOption
  | descriptor
  | outputDirectory
  | classPath
  | javaHome
deriving DecidableEq, Repr

namespace ValueOption

def flag : ValueOption → String
  | descriptor => "--descriptor"
  | outputDirectory => "--output-dir"
  | classPath => "--classpath"
  | javaHome => "--java-home"

def all : List ValueOption := [descriptor, outputDirectory, classPath, javaHome]

end ValueOption

structure Arguments where
  input : Option String
  method : Option String
  options : List (ValueOption × String)
  noJdk : Bool

inductive UsageError
  | unexpected (argument : String)
  | repeated (flag : String)
  | missingValue (o : ValueOption)
  | conflict
  | missingArgument (name : String)
deriving DecidableEq, Repr

def UsageError.message : UsageError → String
  | unexpected argument => s!"unexpected argument '{argument}'"
  | repeated flag => s!"'{flag}' cannot be used several times"
  | missingValue o => s!"'{o.flag}' needs a value"
  | conflict => "'--no-jdk' cannot be used with '--java-home'"
  | missingArgument name => s!"{name} is missing"

inductive Request
  | run (arguments : Arguments)
  | version
  | help

namespace Arguments

def none : Arguments := ⟨.none, .none, [], false⟩

def value? (a : Arguments) (o : ValueOption) : Option String :=
  (a.options.find? fun (other, _) => other = o).map (·.2)

def values (a : Arguments) (o : ValueOption) : List String :=
  a.options.filterMap fun (other, value) => if other = o then some value else .none

def setOption (a : Arguments) (o : ValueOption) (value : String) : Except UsageError Arguments :=
  if o ≠ .classPath ∧ (a.value? o).isSome then .error (.repeated o.flag)
  else .ok { a with options := a.options ++ [(o, value)] }

def setPosition (a : Arguments) (text : String) : Except UsageError Arguments :=
  match a.input, a.method with
  | .none, _ => .ok { a with input := some text }
  | some _, .none => .ok { a with method := some text }
  | some _, some _ => .error (.unexpected text)

/-- Whether an argument is no value; a single hyphen is one. -/
def isFlag (argument : String) : Bool :=
  match argument.toList with
  | '-' :: _ :: _ => true
  | _ => false

def splitValue (argument : String) : String × Option String :=
  let chars := argument.toList
  let name := String.ofList (chars.takeWhile (· ≠ '='))
  match chars.dropWhile (· ≠ '=') with
  | [] => (name, .none)
  | _ :: value => (name, some (String.ofList value))

/-- What a flag asks for that is answered before anything else is read. Flags of one letter can be
run together behind one hyphen; the first one is answered, so that the others do not matter. -/
def immediate? (argument : String) : Option Request :=
  match argument.toList with
  | '-' :: 'h' :: _ => some .help
  | '-' :: 'V' :: _ => some .version
  | _ =>
    if argument = "--help" then some .help
    else if argument = "--version" then some .version
    else .none

def check (a : Arguments) : Except UsageError Request :=
  if a.noJdk ∧ (a.value? .javaHome).isSome then .error .conflict
  else if a.input.isNone then .error (.missingArgument "CLASSFILE")
  else if a.method.isNone then .error (.missingArgument "METHOD")
  else .ok (.run a)

def readPositions (a : Arguments) : List String → Except UsageError Request
  | [] => a.check
  | text :: rest => do (← a.setPosition text).readPositions rest

/-- Reads arguments in order. After two hyphens there are only positions; help and version are
answered as soon as they are asked for. -/
def read (a : Arguments) : List String → Except UsageError Request
  | [] => a.check
  | argument :: rest =>
    if argument = "--" then a.readPositions rest
    else if !isFlag argument then do (← a.setPosition argument).read rest
    else
      let (name, attached) := splitValue argument
      match ValueOption.all.find? (·.flag = name), attached with
      | some o, some value => do (← a.setOption o value).read rest
      | some o, .none =>
        match rest with
        | [] => .error (.missingValue o)
        | value :: rest =>
          if isFlag value then .error (.missingValue o)
          else do (← a.setOption o value).read rest
      | .none, _ =>
        if argument = "--no-jdk" then
          if a.noJdk then .error (.repeated argument) else read { a with noJdk := true } rest
        else
          match immediate? argument with
          | some request => .ok request
          | .none => .error (.unexpected argument)

def defaultOutput : String := "/tmp"

def settings (a : Arguments) (found : Option Path) : Settings where
  input := ⟨a.input.getD ""⟩
  method := ⟨a.method.getD "", a.value? .descriptor⟩
  output := ⟨(a.value? .outputDirectory).getD defaultOutput⟩
  classPath :=
    (((a.values .classPath).flatMap (·.splitOn ":")).filter (!·.isEmpty)).map Path.mk
  javaHome := if a.noJdk then .none else ((a.value? .javaHome).map Path.mk).or found

end Arguments

structure Outcome where
  status : Nat
  output : String
  complaints : List String

namespace CommandLine

def versionText : String := "Stack map rebuilder 0.1.0\n"

def helpText : String :=
  "Recompute the stack map table of one method in a class file\n\n" ++
    "Usage: rebuild-stackmap [OPTIONS] <CLASSFILE> <METHOD>\n\n" ++
    "  <CLASSFILE>          class file containing the method\n" ++
    "  <METHOD>             name of the method\n" ++
    "  --descriptor <DESC>  descriptor of the method, to pick one of several\n" ++
    "  --output-dir <DIR>   where the class is saved [default: /tmp]\n" ++
    "  --classpath <PATH>   directories, jars and jmods, separated by colons\n" ++
    "  --java-home <DIR>    JDK searched first (default: JAVA_HOME, then PATH)\n" ++
    "  --no-jdk             do not search a JDK\n" ++
    "  -h, --help           print this\n" ++
    "  -V, --version        print the version\n"

variable {m : Type → Type} [Monad m]

/-- Does what the arguments ask for. Status 1 is a failed job and status 2 a wrong use. -/
def run (fs : FileSystem m) (env : Environment) (arguments : List String) : m Outcome := do
  match Arguments.none.read arguments with
  | .error e => return ⟨2, "", [s!"error: {e.message}"]⟩
  | .ok .help => return ⟨0, helpText, []⟩
  | .ok .version => return ⟨0, versionText, []⟩
  | .ok (.run a) =>
    let (found, warnings) ← (env.findJavaHome fs).run []
    let settings := a.settings found
    let (result, warnings) ← (Job.rebuildFile fs settings).run.run warnings
    let complaints := warnings.map fun w => s!"warning: {w.message}"
    match result with
    | .ok _ => return ⟨0, settings.announcement, complaints⟩
    | .error e => return ⟨1, settings.announcement, complaints ++ [s!"error: {e.message}"]⟩

end CommandLine

end StackMaps
