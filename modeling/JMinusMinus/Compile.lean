import JMinusMinus.Analysis.Unit
import JMinusMinus.Config
import JMinusMinus.Grammar.Unit
import JMinusMinus.Lowering.Unit
import JMinusMinus.Recorder

/-!
# Compilation

`compile` takes a source text to class files. Problems of the grammar stop it before analysis,
and problems of analysis before code is made. Either phase goes on from what is recorded, and the
record tells whether there were problems, however many of them it stores.
-/

namespace JMinusMinus

/-- A compilation unit from a source text, with a record of its problems. -/
def parseWithin (file source : String) (config : Config) : CompilationUnit × Recorder :=
  let (tokens, lexical) := Grammar.readTokens source
  let recorder := Recorder.record { budget := config.maxErrors } lexical
  let (parsed, log) := Grammar.parseUnit file config.maxDepth tokens recorder.log
  (parsed, recorder.record log)

/-- Analyzes a parsed unit into a recorder. -/
def analyzeWithin (u : CompilationUnit) (recorder : Recorder) :
    Except Fault (CompilationUnit × Hierarchy × Recorder) := do
  let a ← analyze u recorder.log
  return (a.unit, a.hierarchy, recorder.record a.log)

/-- A failure with what was recorded. -/
def Failure.ofRecorder (file : String) (recorder : Recorder) : Failure :=
  .error (.compilation file (recorder.diagnostics file))

/-- Compiles a source: it is parsed, analyzed and, if nothing was reported, made into code. -/
def compile (file source : String) (config : Config) : Except Failure (List ClassFile) := do
  let (parsed, recorder) := parseWithin file source config
  if recorder.failed then throw (Failure.ofRecorder file recorder)
  let (analyzed, hierarchy, recorder) ← Failure.lift (analyzeWithin parsed recorder)
  if recorder.failed then throw (Failure.ofRecorder file recorder)
  generate analyzed hierarchy

/-- Compiles what was read from a file. -/
def compileRead (file : String) (source : Except FileProblem String) (config : Config) :
    Except Failure (List ClassFile) :=
  match source with
  | .ok text => compile file text config
  | .error problem => .error (.error (.io problem))

end JMinusMinus
