import JMinusMinus.Compile
import JMinusMinus.Tree.Outline
import JMinusMinus.Workspace

/-!
# Commands

What the program does for its arguments, over any file system.

* `compile FILE` writes a listing for every class to a directory, the current one unless another
  is named. Nothing is written if the source has problems.
* `parse FILE` prints the outline of the tree.
* `lex FILE` prints the tokens.

Problems of the source go to the error output, one a line, and make the command fail. Any other
error is one line there.
-/

namespace JMinusMinus

inductive Action where
  | compile (output : Option String) (verbose : Bool)
  | parse
  /-- Print its tokens, by their places or by their texts. -/
  | lex (locations : Bool)
deriving DecidableEq

inductive Command where
  | version
  | act (action : Action) (input : String)
deriving DecidableEq

/-- What a command prints, and whether it fails. -/
structure Outcome where
  output : String := ""
  errors : String := ""
  failed : Bool := false
deriving DecidableEq

def Outcome.exitCode (o : Outcome) : Nat := if o.failed then 1 else 0

namespace Command

def versionText : String := "jmmc 0.1.0"

/-! ## Arguments -/

/-- What the arguments of a command have said so far. -/
structure Arguments where
  input : Option String := none
  output : Option String := none
  flag : Bool := false

/-- Reads arguments. An option for a directory takes the next argument. -/
def arguments (flags outputs : List String) : Arguments → List String → Option Arguments
  | a, [] => some a
  | a, x :: xs =>
    if flags.contains x then arguments flags outputs { a with flag := true } xs
    else if outputs.contains x then
      match xs with
      | dir :: xs => arguments flags outputs { a with output := some dir } xs
      | [] => none
    else if x.startsWith "-" || a.input.isSome then none
    else arguments flags outputs { a with input := some x } xs

def ofArgs : List String → Option Command
  | ["--version"] | ["-V"] => some .version
  | "compile" :: rest => do
    let a ← arguments ["-v", "--verbose"] ["-o", "--output"] {} rest
    return .act (.compile a.output a.flag) (← a.input)
  | "parse" :: rest => do
    let a ← arguments [] [] {} rest
    return .act .parse (← a.input)
  | "lex" :: rest => do
    let a ← arguments ["-l", "--locations"] [] {} rest
    return .act (.lex a.flag) (← a.input)
  | _ => none

/-! ## Outcomes -/

def diagnosticLines (ds : List Diagnostic) : String := String.join (ds.map fun d => d.text ++ "\n")

def ofError : Error → Outcome
  | .compilation _ ds => { errors := diagnosticLines ds, failed := true }
  | e => { errors := "error: " ++ e.message ++ "\n", failed := true }

def ofFileProblem (what path : String) (problem : FileProblem) : Outcome :=
  { errors := "error: cannot " ++ what ++ " " ++ path ++ ": " ++ problem.message ++ "\n"
    failed := true }

def reporting (output file : String) (config : Config) (log : Log Problem) : Outcome :=
  { output
    errors := diagnosticLines (log.diagnostics file config.maxErrors)
    failed := log.failed }

/-! ## Parse and lex -/

def parseText (file source : String) (config : Config) : Outcome :=
  let (unit, log) := Grammar.parseSource file config.maxDepth source
  reporting ((Outline.ofUnit unit).text ++ "\n") file config log

def tokenLine (locations : Bool) (t : Token) : String :=
  if locations then t.kind.label ++ " at " ++ t.location.text ++ "\n"
  else t.kind.label ++ ": '" ++ t.image ++ "'\n"

def lexText (file source : String) (locations : Bool) (config : Config) : Outcome :=
  let (tokens, log) := Grammar.readTokens source
  reporting (String.join (tokens.map (tokenLine locations))) file config log

/-! ## Compile -/

variable {m : Type → Type} [Monad m]

structure Listing where
  name : String
  text : String

def listings (classes : List ClassFile) : Except Fault (List Listing) :=
  classes.mapM fun c => do return ⟨c.simpleName ++ ".jasm", ← c.listing⟩

/-- Writes listings to a directory. The answer is the outcome of the first that fails. -/
def writeAll (fs : FileSystem m) (dir : String) : List Listing → m (Option Outcome)
  | [] => return none
  | l :: ls => do
    let path := joinPath dir l.name
    match ← fs.write path l.text with
    | .ok _ => writeAll fs dir ls
    | .error problem => return some (ofFileProblem "write" path problem)

/-- Makes a directory unless there is something. -/
def ensureDir (fs : FileSystem m) (dir : String) : m (Option Outcome) := do
  if ← fs.isPresent dir then return none
  match ← createDirs fs dir with
  | .ok _ => return none
  | .error problem => return some (ofFileProblem "create" dir problem)

def summary (count : Nat) (input dir : String) : String :=
  s!"Compiled {count} class(es) from {input} into {dir}\n"

def writeClasses (fs : FileSystem m) (input dir : String) (verbose : Bool) (ls : List Listing) :
    m Outcome := do
  match ← ensureDir fs dir with
  | some failed => return failed
  | none =>
    match ← writeAll fs dir ls with
    | some failed => return failed
    | none => return { output := if verbose then summary ls.length input dir else "" }

def compileText (fs : FileSystem m) (input source : String) (output : Option String)
    (config : Config) : m (Except Fault Outcome) := do
  match JMinusMinus.compile input source config with
  | .error (.fault f) => return .error f
  | .error (.error e) => return .ok (ofError e)
  | .ok classes =>
    match listings classes with
    | .error f => return .error f
    | .ok ls => return .ok (← writeClasses fs input (output.getD ".") config.verbose ls)

/-! ## Commands -/

def perform (fs : FileSystem m) (config : Config) (input source : String) :
    Action → m (Except Fault Outcome)
  | .compile output verbose => compileText fs input source output { config with verbose }
  | .parse => return .ok (parseText input source config)
  | .lex locations => return .ok (lexText input source locations config)

/-- Runs a command with the values of settings. A wrong setting goes before a missing file. -/
def run (fs : FileSystem m) (value? : String → Option String) :
    Command → m (Except Fault Outcome)
  | .version => return .ok { output := versionText ++ "\n" }
  | .act action input => do
    match Config.ofSettings value? with
    | .error problem => return .ok (ofError (.config problem))
    | .ok config =>
      match ← fs.read input with
      | .error problem => return .ok (ofFileProblem "read" input problem)
      | .ok source => perform fs config input source action

end Command

end JMinusMinus
