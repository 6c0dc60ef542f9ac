/-!
# Tokens

A token is a kind, the text it was read from, and the place where that text starts.
Kinds come in five groups.

* keywords, whose image is the reserved word itself;
* operators and separators, whose image is the symbol itself;
* literals and identifiers, whose image in messages is a word in angle brackets;
* trivia (comments and white space), which the grammar never sees;
* the end of input, which closes every token list.

A kind also has a `label`, the name under which a token listing shows it.
-/

namespace JMinusMinus

/-! ## Places -/

/-- A place in a source text. Lines and columns start at one. -/
structure Location where
  /-- One more than the number of line feeds before the place. -/
  line : Nat := 1
  /-- One more than the number of characters since the last line feed, carriage returns left out. -/
  column : Nat := 1
  /-- The number of UTF-8 bytes before the place. -/
  offset : Nat := 0
deriving DecidableEq

/-- The place after one more character. -/
def Location.advance (l : Location) (c : Char) : Location :=
  let offset := l.offset + c.utf8Size
  if c = '\n' then ⟨l.line + 1, 1, offset⟩
  else if c = '\r' then ⟨l.line, l.column, offset⟩
  else ⟨l.line, l.column + 1, offset⟩

def Location.advanceAll (l : Location) (cs : List Char) : Location := cs.foldl Location.advance l

def Location.text (l : Location) : String := s!"{l.line}:{l.column}"

/-! ## Kinds -/

inductive Kind where
  | kwAbstract | kwBoolean | kwBreak | kwCase | kwCatch | kwChar | kwClass | kwContinue
  | kwDefault | kwDo | kwDouble | kwElse | kwExtends | kwFalse | kwFinally | kwFor | kwIf
  | kwImplements | kwImport | kwInstanceOf | kwInt | kwInterface | kwLong | kwNew | kwNull
  | kwPackage | kwPrivate | kwProtected | kwPublic | kwReturn | kwStatic | kwSuper | kwSwitch
  | kwThis | kwThrow | kwThrows | kwTrue | kwTry | kwVoid | kwWhile | assign | addAssign
  | subAssign | mulAssign | divAssign | modAssign | andAssign | orAssign | xorAssign
  | shiftLeftAssign | shiftRightAssign | shiftRightUnsignedAssign | plus | minus | star | slash
  | percent | increment | decrement | bang | tilde | amp | pipe | caret | shiftLeft | shiftRight
  | shiftRightUnsigned | ampAmp | pipePipe | equal | notEqual | less | lessEqual | greater
  | greaterEqual | question | colon | leftParen | rightParen | leftBracket | rightBracket
  | leftBrace | rightBrace | semicolon | comma | dot | stringLiteral | charLiteral
  | doubleLiteral | longLiteral | intLiteral | identifier | lineComment | blockComment
  | whitespace | endOfInput
deriving DecidableEq

namespace Kind

/-- The name a token listing shows. -/
def label : Kind → String
  | .kwAbstract => "Abstract"
  | .kwBoolean => "Boolean"
  | .kwBreak => "Break"
  | .kwCase => "Case"
  | .kwCatch => "Catch"
  | .kwChar => "Char"
  | .kwClass => "Class"
  | .kwContinue => "Continue"
  | .kwDefault => "Default"
  | .kwDo => "Do"
  | .kwDouble => "Double"
  | .kwElse => "Else"
  | .kwExtends => "Extends"
  | .kwFalse => "False"
  | .kwFinally => "Finally"
  | .kwFor => "For"
  | .kwIf => "If"
  | .kwImplements => "Implements"
  | .kwImport => "Import"
  | .kwInstanceOf => "InstanceOf"
  | .kwInt => "Int"
  | .kwInterface => "Interface"
  | .kwLong => "Long"
  | .kwNew => "New"
  | .kwNull => "Null"
  | .kwPackage => "Package"
  | .kwPrivate => "Private"
  | .kwProtected => "Protected"
  | .kwPublic => "Public"
  | .kwReturn => "Return"
  | .kwStatic => "Static"
  | .kwSuper => "Super"
  | .kwSwitch => "Switch"
  | .kwThis => "This"
  | .kwThrow => "Throw"
  | .kwThrows => "Throws"
  | .kwTrue => "True"
  | .kwTry => "Try"
  | .kwVoid => "Void"
  | .kwWhile => "While"
  | .assign => "Assign"
  | .addAssign => "AddAssign"
  | .subAssign => "SubAssign"
  | .mulAssign => "MulAssign"
  | .divAssign => "DivAssign"
  | .modAssign => "ModAssign"
  | .andAssign => "AndAssign"
  | .orAssign => "OrAssign"
  | .xorAssign => "XorAssign"
  | .shiftLeftAssign => "LShiftAssign"
  | .shiftRightAssign => "RShiftAssign"
  | .shiftRightUnsignedAssign => "URShiftAssign"
  | .plus => "Plus"
  | .minus => "Minus"
  | .star => "Star"
  | .slash => "Slash"
  | .percent => "Percent"
  | .increment => "Inc"
  | .decrement => "Dec"
  | .bang => "Bang"
  | .tilde => "Tilde"
  | .amp => "Amp"
  | .pipe => "Pipe"
  | .caret => "Caret"
  | .shiftLeft => "LShift"
  | .shiftRight => "RShift"
  | .shiftRightUnsigned => "URShift"
  | .ampAmp => "AndAnd"
  | .pipePipe => "PipePipe"
  | .equal => "Eq"
  | .notEqual => "Ne"
  | .less => "Lt"
  | .lessEqual => "Le"
  | .greater => "Gt"
  | .greaterEqual => "Ge"
  | .question => "Question"
  | .colon => "Colon"
  | .leftParen => "LParen"
  | .rightParen => "RParen"
  | .leftBracket => "LBracket"
  | .rightBracket => "RBracket"
  | .leftBrace => "LBrace"
  | .rightBrace => "RBrace"
  | .semicolon => "Semicolon"
  | .comma => "Comma"
  | .dot => "Dot"
  | .stringLiteral => "StringLiteral"
  | .charLiteral => "CharLiteral"
  | .doubleLiteral => "DoubleLiteral"
  | .longLiteral => "LongLiteral"
  | .intLiteral => "IntLiteral"
  | .identifier => "Identifier"
  | .lineComment => "LineComment"
  | .blockComment => "BlockComment"
  | .whitespace => "Whitespace"
  | .endOfInput => "Eof"

/-- The text that stands for a kind in a message. -/
def image : Kind → String
  | .kwAbstract => "abstract"
  | .kwBoolean => "boolean"
  | .kwBreak => "break"
  | .kwCase => "case"
  | .kwCatch => "catch"
  | .kwChar => "char"
  | .kwClass => "class"
  | .kwContinue => "continue"
  | .kwDefault => "default"
  | .kwDo => "do"
  | .kwDouble => "double"
  | .kwElse => "else"
  | .kwExtends => "extends"
  | .kwFalse => "false"
  | .kwFinally => "finally"
  | .kwFor => "for"
  | .kwIf => "if"
  | .kwImplements => "implements"
  | .kwImport => "import"
  | .kwInstanceOf => "instanceof"
  | .kwInt => "int"
  | .kwInterface => "interface"
  | .kwLong => "long"
  | .kwNew => "new"
  | .kwNull => "null"
  | .kwPackage => "package"
  | .kwPrivate => "private"
  | .kwProtected => "protected"
  | .kwPublic => "public"
  | .kwReturn => "return"
  | .kwStatic => "static"
  | .kwSuper => "super"
  | .kwSwitch => "switch"
  | .kwThis => "this"
  | .kwThrow => "throw"
  | .kwThrows => "throws"
  | .kwTrue => "true"
  | .kwTry => "try"
  | .kwVoid => "void"
  | .kwWhile => "while"
  | .assign => "="
  | .addAssign => "+="
  | .subAssign => "-="
  | .mulAssign => "*="
  | .divAssign => "/="
  | .modAssign => "%="
  | .andAssign => "&="
  | .orAssign => "|="
  | .xorAssign => "^="
  | .shiftLeftAssign => "<<="
  | .shiftRightAssign => ">>="
  | .shiftRightUnsignedAssign => ">>>="
  | .plus => "+"
  | .minus => "-"
  | .star => "*"
  | .slash => "/"
  | .percent => "%"
  | .increment => "++"
  | .decrement => "--"
  | .bang => "!"
  | .tilde => "~"
  | .amp => "&"
  | .pipe => "|"
  | .caret => "^"
  | .shiftLeft => "<<"
  | .shiftRight => ">>"
  | .shiftRightUnsigned => ">>>"
  | .ampAmp => "&&"
  | .pipePipe => "||"
  | .equal => "=="
  | .notEqual => "!="
  | .less => "<"
  | .lessEqual => "<="
  | .greater => ">"
  | .greaterEqual => ">="
  | .question => "?"
  | .colon => ":"
  | .leftParen => "("
  | .rightParen => ")"
  | .leftBracket => "["
  | .rightBracket => "]"
  | .leftBrace => "\x7b"
  | .rightBrace => "\x7d"
  | .semicolon => ";"
  | .comma => ","
  | .dot => "."
  | .stringLiteral => "<STRING_LITERAL>"
  | .charLiteral => "<CHAR_LITERAL>"
  | .doubleLiteral => "<DOUBLE_LITERAL>"
  | .longLiteral => "<LONG_LITERAL>"
  | .intLiteral => "<INT_LITERAL>"
  | .identifier => "<IDENTIFIER>"
  | .lineComment => "<COMMENT>"
  | .blockComment => "<COMMENT>"
  | .whitespace => "<WHITESPACE>"
  | .endOfInput => "<EOF>"

def keywords : List Kind :=
  [.kwAbstract, .kwBoolean, .kwBreak, .kwCase, .kwCatch, .kwChar, .kwClass, .kwContinue,
    .kwDefault, .kwDo, .kwDouble, .kwElse, .kwExtends, .kwFalse, .kwFinally, .kwFor, .kwIf,
    .kwImplements, .kwImport, .kwInstanceOf, .kwInt, .kwInterface, .kwLong, .kwNew, .kwNull,
    .kwPackage, .kwPrivate, .kwProtected, .kwPublic, .kwReturn, .kwStatic, .kwSuper, .kwSwitch,
    .kwThis, .kwThrow, .kwThrows, .kwTrue, .kwTry, .kwVoid, .kwWhile]

def symbols : List Kind :=
  [.assign, .addAssign, .subAssign, .mulAssign, .divAssign, .modAssign, .andAssign, .orAssign,
    .xorAssign, .shiftLeftAssign, .shiftRightAssign, .shiftRightUnsignedAssign, .plus, .minus,
    .star, .slash, .percent, .increment, .decrement, .bang, .tilde, .amp, .pipe, .caret,
    .shiftLeft, .shiftRight, .shiftRightUnsigned, .ampAmp, .pipePipe, .equal, .notEqual, .less,
    .lessEqual, .greater, .greaterEqual, .question, .colon, .leftParen, .rightParen, .leftBracket,
    .rightBracket, .leftBrace, .rightBrace, .semicolon, .comma, .dot]

/-- Literals, names, trivia and the end of input: the kinds that have no fixed text. -/
def classes : List Kind :=
  [.stringLiteral, .charLiteral, .doubleLiteral, .longLiteral, .intLiteral, .identifier,
    .lineComment, .blockComment, .whitespace, .endOfInput]

def all : List Kind := keywords ++ symbols ++ classes

def ofLabel? (label : String) : Option Kind := all.find? (·.label == label)

/-- The keywords that name a primitive type. -/
def isBasicType : Kind → Bool
  | .kwBoolean | .kwChar | .kwInt | .kwLong | .kwDouble => true
  | _ => false

/-- Comments and white space. -/
def isTrivia : Kind → Bool
  | .whitespace | .lineComment | .blockComment => true
  | _ => false

def keyword? (word : List Char) : Option Kind := keywords.find? (·.image.toList == word)

end Kind

/-! ## Tokens -/

structure Token where
  kind : Kind
  /-- The text it was read from, empty at the end of input. -/
  lexeme : String
  location : Location := {}
deriving DecidableEq

namespace Token

def endOfInput (location : Location) : Token := ⟨.endOfInput, "", location⟩

/-- The text of a token in messages and listings. -/
def image (t : Token) : String := if t.kind = .endOfInput then Kind.image .endOfInput else t.lexeme

def line (t : Token) : Nat := t.location.line

end Token

end JMinusMinus
