import JMinusMinus.Command

/-!
# The program

The command line over the files of the system.
-/

namespace JMinusMinus.Program

/-- Whether the system's code is a number. Some calls give it negated. -/
def isCode (code number : UInt32) : Bool := code = number || code = 0 - number

/-- What the system's error means for a file. -/
def fileProblem : IO.Error → FileProblem
  | .noFileOrDirectory .. => .notFound
  | .alreadyExists .. => .alreadyThere
  | e@(.inappropriateType _ code _) =>
    if isCode code 20 then .notDirectory
    else if isCode code 21 then .isDirectory
    else .other (toString e)
  | e@(.invalidArgument _ code _) =>
    if isCode code 36 then .nameTooLong else .other (toString e)
  | e => .other (toString e)

def attempt {α : Type} (x : IO α) : IO (Except FileProblem α) := do
  try return .ok (← x)
  catch e => return .error (fileProblem e)

def readText (path : String) : IO (Except FileProblem String) := do
  match ← attempt (IO.FS.readBinFile path) with
  | .error problem => return .error problem
  | .ok bytes =>
    match String.fromUTF8? bytes with
    | some text => return .ok text
    | none => return .error .notText

/-- Whether there is anything at a path that can be opened. -/
def isPresent (path : String) : IO Bool := do
  match ← attempt (IO.FS.Handle.mk path .read) with
  | .ok _ => return true
  | .error _ => return false

def isDirectory (path : String) : IO Bool := isPresent (joinPath path ".")

def fileSystem : FileSystem IO where
  read := readText
  isPresent := isPresent
  isDirectory := isDirectory
  makeDir path := attempt (IO.FS.createDir path)
  write path text := attempt (IO.FS.writeFile path text)

def usage : String :=
  "usage: jmmc compile FILE [-o DIR] [-v] | parse FILE | lex FILE [-l] | --version"

def settingValue (maxErrors maxDepth : Option String) (name : String) : Option String :=
  if name = Config.maxErrorsName then maxErrors
  else if name = Config.maxDepthName then maxDepth
  else none

/-- Runs a command, prints what it says and answers its exit code. -/
def runCommand (command : Command) : IO UInt32 := do
  let maxErrors ← IO.getEnv Config.maxErrorsName
  let maxDepth ← IO.getEnv Config.maxDepthName
  match ← Command.run fileSystem (settingValue maxErrors maxDepth) command with
  | .ok outcome =>
    IO.print outcome.output
    IO.eprint outcome.errors
    return outcome.exitCode.toUInt32
  | .error _ =>
    IO.eprintln "jmmc: the method is too large"
    return 101

end JMinusMinus.Program

def main (args : List String) : IO UInt32 :=
  match JMinusMinus.Command.ofArgs args with
  | some command => JMinusMinus.Program.runCommand command
  | none => do
    IO.eprintln JMinusMinus.Program.usage
    return 2
