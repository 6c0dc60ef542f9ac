import JMinusMinus.Error

/-!
# File systems

What the command line asks of a file system, and what it does with the answers.

A directory is made with those it is in. The path itself is tried first, as it was given. If
a directory around it is missing, the one around it is made in the same way, and then the path
is tried again.

* The directories around a path are those of its names. Empty names do not count, and `.` counts
  only as the first name. So `a/b/.` is in `a`, and `a/.` is in the current directory.
* A directory that is there already is as good as a new one.
* A path that ends in `/.` cannot be made, and the one around it does not make it: `a/.` fails
  where there is no `a`.
-/

namespace JMinusMinus

/-- What the command line asks of a file system. -/
structure FileSystem (m : Type → Type) where
  read : String → m (Except FileProblem String)
  isPresent : String → m Bool
  isDirectory : String → m Bool
  makeDir : String → m (Except FileProblem Unit)
  write : String → String → m (Except FileProblem Unit)

/-! ## Paths -/

def joinPath (dir name : String) : String :=
  if dir.isEmpty || dir.endsWith "/" then dir ++ name else dir ++ "/" ++ name

def isName (part : String) : Bool := part ≠ "" && part ≠ "."

def pathNames (path : String) : List String :=
  match path.splitOn "/" with
  | "." :: parts => "." :: parts.filter isName
  | parts => parts.filter isName

/-- The first names of a list, without the last, and so on while there are any. -/
def outerNames : List String → List (List String)
  | [] => []
  | [_] => []
  | name :: names => (outerNames names).map (name :: ·) ++ [[name]]

/-- The directories around a path, innermost first. -/
def outerPaths (path : String) : List String :=
  let root := if path.startsWith "/" then "/" else ""
  (outerNames (pathNames path)).map fun names => root ++ "/".intercalate names

/-! ## Directories -/

variable {m : Type → Type} [Monad m]

/-- Takes a directory that is there for one that was made. -/
def orThere (fs : FileSystem m) (path : String) (problem : FileProblem) :
    m (Except FileProblem Unit) := do
  if problem = .alreadyThere then
    if ← fs.isDirectory path then return .ok ()
  return .error problem

/-- Makes the first directory of a list, with those after it as far as they are missing. -/
def makeDirs (fs : FileSystem m) : List String → m (Except FileProblem Unit)
  | [] => return .ok ()
  | path :: outer => do
    match ← fs.makeDir path with
    | .ok _ => return .ok ()
    | .error .notFound =>
      match ← makeDirs fs outer with
      | .error problem => return .error problem
      | .ok _ =>
        match ← fs.makeDir path with
        | .ok _ => return .ok ()
        | .error problem => orThere fs path problem
    | .error problem => orThere fs path problem

/-- Makes a directory with those it is in. A path without names has nothing to make. -/
def createDirs (fs : FileSystem m) (path : String) : m (Except FileProblem Unit) :=
  if (pathNames path).isEmpty then return .ok () else makeDirs fs (path :: outerPaths path)

end JMinusMinus
