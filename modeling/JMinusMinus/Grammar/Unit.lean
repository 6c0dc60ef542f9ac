import JMinusMinus.Grammar.Stmt
import JMinusMinus.Token.Lexer

/-!
# Rules for declarations

Members, types and the compilation unit, and the functions that parse a whole token list or a
whole source text.
-/

namespace JMinusMinus.Grammar

/-! ## Modifiers -/

/-- Whether a modifier sets the access and another one did. -/
def conflicts (mods : List Modifier) (m : Modifier) : Bool :=
  m.isAccess && mods.any fun n => n.isAccess && n ≠ m

def modifiersWithin : Nat → List Modifier → Parser (List Modifier)
  | 0, mods => outOfBound mods
  | bound + 1, mods => do
    match Modifier.ofKind? (← currentKind) with
    | some m =>
      advance
      if mods.contains m then complain (.repeatedModifier m)
      if conflicts mods m then complain .accessConflict
      modifiersWithin bound (Modifier.add mods m)
    | none => return mods

def modifiers : Parser (List Modifier) := do modifiersWithin (← remaining) []

/-! ## Members -/

def parameters : Parser (List Param) := do
  require .leftParen
  if ← accept .rightParen then return []
  let params ← commaSeparated parameter
  require .rightParen
  return params

def throwsClause : Parser (List Ty) := do
  if ← accept .kwThrows then commaSeparated classType else return []

def methodRest (line : Nat) (mods : List Modifier) (result : Ty) : Parser Member := do
  let name ← identifier
  let params ← parameters
  let throws ← throwsClause
  let body ← if ← accept .semicolon then pure none else some <$> block
  return .method { line, modifiers := mods, result, name, params, throws, body }

/-- A constructor, which has a name and no result type. -/
def constructor (line : Nat) (mods : List Modifier) : Parser Member := do
  let name ← identifier
  let params ← parameters
  let throws ← throwsClause
  let body ← block
  return .ctor { line, modifiers := mods, name, params, throws, body }

/-- A member of a class: a constructor, fields or a method. -/
def classMember : Parser Member := do
  let mods ← modifiers
  let line ← currentLine
  if Lookahead.startsCall (← upcoming) then
    constructor line mods
  else if ← accept .kwVoid then
    methodRest line mods .void
  else
    let ty ← type
    if Lookahead.startsCall (← upcoming) then
      methodRest line mods ty
    else
      let vars ← declarators ty
      require .semicolon
      return .field { line, modifiers := mods, vars }

/-- A member of an interface: the header of a method, public and abstract even if it does not
say so. -/
def interfaceMember : Parser Member := do
  let mods ← modifiers
  let line ← currentLine
  let result ← if ← accept .kwVoid then pure .void else type
  let name ← identifier
  let params ← parameters
  let throws ← throwsClause
  require .semicolon
  let mods := Modifier.add (Modifier.add mods .publicAccess) .abstract
  return .method { line, modifiers := mods, result, name, params, throws, body := none }

/-! ## Types -/

def classRest (mods : List Modifier) : Parser ClassDecl := do
  let line ← currentLine
  require .kwClass
  let name ← identifier
  let superclass ← if ← accept .kwExtends then some <$> classType else pure none
  let interfaces ← if ← accept .kwImplements then commaSeparated classType else pure []
  let members ← braced classMember
  return { line, modifiers := mods, name, superclass, interfaces, members }

def interfaceRest (mods : List Modifier) : Parser InterfaceDecl := do
  let line ← currentLine
  require .kwInterface
  let name ← identifier
  let parents ← if ← accept .kwExtends then commaSeparated classType else pure []
  let members ← braced interfaceMember
  return { line, modifiers := mods, name, parents, members }

def typeDeclaration : Parser (Option TypeDecl) := do
  let mods ← modifiers
  if ← sees .kwClass then
    return some (.classDecl (← classRest mods))
  else if ← sees .kwInterface then
    return some (.interfaceDecl (← interfaceRest mods))
  else
    complain (.declarationSought (← current).image)
    return none

/-! ## Units -/

def nameLine : Parser QualifiedName := do
  let name ← qualifiedName
  require .semicolon
  return name

def compilationUnit (file : String) : Parser CompilationUnit := do
  let package ← if ← accept .kwPackage then some <$> nameLine else pure none
  let imports ← afterEach .kwImport nameLine (← remaining)
  let types ← itemsUntil (fun _ => false) typeDeclaration
  require .endOfInput
  return { file, package, imports, types := types.filterMap id }

def start (tokens : List Token) (log : Log Problem) (maxDepth : Nat) : State :=
  let cursor := Cursor.ofTokens tokens
  { cursor, log, maxDepth, size := cursor.following.length + 1 }

def parseUnit (file : String) (maxDepth : Nat) (tokens : List Token) (log : Log Problem) :
    CompilationUnit × Log Problem :=
  let (unit, s) := (compilationUnit file).run (start tokens log maxDepth)
  (unit, s.log)

def parseExpr (maxDepth : Nat) (tokens : List Token) (log : Log Problem) : Expr × Log Problem :=
  let (e, s) := expression.run (start tokens log maxDepth)
  (e, s.log)

def readTokens (source : String) : List Token × Log Problem :=
  let (tokens, unidentified) := Lexer.tokenize source
  (tokens, unidentified.foldl (fun log u => log.add u.line (.unidentified u.text)) {})

/-- A compilation unit from a source text, with the log of its problems. -/
def parseSource (file : String) (maxDepth : Nat) (source : String) :
    CompilationUnit × Log Problem :=
  let (tokens, log) := readTokens source
  parseUnit file maxDepth tokens log

def parseExpressionText (maxDepth : Nat) (source : String) : Expr × Log Problem :=
  let (tokens, log) := readTokens source
  parseExpr maxDepth tokens log

end JMinusMinus.Grammar
