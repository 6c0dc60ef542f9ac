import JMinusMinus.FileSystem

/-!
# Directories in memory

A directory with all that is in it, which answers what is asked of a file system.

* A path is taken step by step. An empty step and `.` stay, `..` goes up, and any other step goes
  to what has this name.
* Every step starts from a directory. So a file with a step after it is a problem, even if the
  step would stay, and so is a step from what is not there.
* A path that starts with `/`, or goes up too far, leads out of the directory. Around it is one
  that is its own parent, with nothing else in it at first.
* A name has at most 255 bytes and a path at most 4095.
-/

namespace JMinusMinus

structure Place where
  /-- Whether it is in the directory and not around it. -/
  inside : Bool
  /-- The names on the way to it, latest first. -/
  names : List String
deriving DecidableEq

namespace Place

/-- The directory itself. -/
def home : Place := ⟨true, []⟩

/-- The directory around it. -/
def root : Place := ⟨false, []⟩

def start (path : String) : Place := if path.startsWith "/" then root else home

def up : Place → Place
  | ⟨_, []⟩ => root
  | ⟨inside, _ :: names⟩ => ⟨inside, names⟩

def child (p : Place) (name : String) : Place := ⟨p.inside, name :: p.names⟩

def path (p : Place) : String := "/".intercalate p.names.reverse

end Place

structure Workspace where
  files : List (Place × ByteArray) := []
  /-- Directories, without those that have no name. -/
  dirs : List Place := []

namespace Workspace

def file? (w : Workspace) (p : Place) : Option ByteArray := w.files.lookup p

def hasDir (w : Workspace) (p : Place) : Bool := p.names.isEmpty || w.dirs.contains p

def has (w : Workspace) (p : Place) : Bool := w.hasDir p || (w.file? p).isSome

/-- A workspace with a file, in place of the one that was there. -/
def put (w : Workspace) (p : Place) (bytes : ByteArray) : Workspace :=
  { w with files := w.files.filter (fun f => f.1 ≠ p) ++ [(p, bytes)] }

def contents (w : Workspace) : List (String × ByteArray) :=
  w.files.filterMap fun (p, bytes) => if p.inside then some (p.path, bytes) else none

/-! ## Taking paths -/

def maxName : Nat := 255

def maxPath : Nat := 4095

def childIn (p : Place) (name : String) : Except FileProblem Place :=
  if maxName < name.utf8ByteSize then .error .nameTooLong else .ok (p.child name)

def step (w : Workspace) (p : Place) (part : String) : Except FileProblem Place :=
  if !w.hasDir p then .error .notDirectory
  else if part = "" || part = "." then .ok p
  else if part = ".." then .ok p.up
  else do
    let q ← childIn p part
    if w.has q then return q else .error .notFound

def walk (w : Workspace) : Place → List String → Except FileProblem Place
  | p, [] => .ok p
  | p, part :: parts => do w.walk (← w.step p part) parts

def parts (path : String) : Except FileProblem (List String) :=
  if path.toList.contains '\x00' then .error .nulInPath
  else if path.isEmpty then .error .notFound
  else if maxPath < path.utf8ByteSize then .error .nameTooLong
  else .ok (path.splitOn "/")

def find (w : Workspace) (path : String) : Except FileProblem Place := do
  w.walk (.start path) (← parts path)

/-- The directory where the last part of a path stands, with that part. Slashes behind it do not
count, and a path of slashes has no last part. -/
def findLast (w : Workspace) (path : String) : Except FileProblem (Place × String) := do
  match (← parts path).reverse.dropWhile (· = "") with
  | [] => return (.start path, "")
  | last :: outer =>
    let dir ← w.walk (.start path) outer.reverse
    if w.hasDir dir then return (dir, last) else .error .notDirectory

/-- Whether a part of a path leads to a directory that is there, whatever its name. -/
def isDots (part : String) : Bool := part = "" || part = "." || part = ".."

/-! ## Answers -/

def putDir (w : Workspace) (p : Place) : Workspace :=
  if w.hasDir p then w else { w with dirs := w.dirs ++ [p] }

/-- A workspace that holds a file at some names from a place on, with the directories it is in. -/
def addAt (bytes : ByteArray) : Workspace → Place → List String → Workspace
  | w, _, [] => w
  | w, p, [name] => w.put (p.child name) bytes
  | w, p, name :: names => addAt bytes (w.putDir (p.child name)) (p.child name) names

/-- A workspace that holds a file, with the directories it is in. -/
def add (w : Workspace) (path : String) (bytes : ByteArray) : Workspace :=
  addAt bytes w .home ((path.splitOn "/").filter isName)

def read (w : Workspace) (path : String) : Except FileProblem String := do
  match w.file? (← w.find path) with
  | some bytes =>
    match String.fromUTF8? bytes with
    | some text => return text
    | none => .error .notText
  | none => .error .isDirectory

def isPresent (w : Workspace) (path : String) : Bool := (w.find path).isOk

def isDirectory (w : Workspace) (path : String) : Bool :=
  match w.find path with
  | .ok p => w.hasDir p
  | .error _ => false

def makeDir (w : Workspace) (path : String) : Except FileProblem Workspace := do
  let (dir, last) ← w.findLast path
  if isDots last then .error .alreadyThere
  else
    let p ← childIn dir last
    if w.has p then .error .alreadyThere else return w.putDir p

def write (w : Workspace) (path text : String) : Except FileProblem Workspace := do
  let (dir, last) ← w.findLast path
  if isDots last || path.endsWith "/" then .error .isDirectory
  else
    let p ← childIn dir last
    if w.hasDir p then .error .isDirectory else return w.put p text.toUTF8

/-- Keeps the directory that a change comes to, unless it is a problem. -/
def change (f : Workspace → Except FileProblem Workspace) :
    StateM Workspace (Except FileProblem Unit) := do
  match f (← get) with
  | .ok w =>
    set w
    return .ok ()
  | .error problem => return .error problem

def fileSystem : FileSystem (StateM Workspace) where
  read path := do return (← get).read path
  isPresent path := do return (← get).isPresent path
  isDirectory path := do return (← get).isDirectory path
  makeDir path := change (·.makeDir path)
  write path text := change (·.write path text)

end Workspace

end JMinusMinus
