import JMinusMinus.Hierarchy.Header

/-!
# Built-in classes

The part of `java.lang` and `java.io` that every unit can use.
-/

namespace JMinusMinus.Builtin

def method (name : String) (params : List Ty) (result : Ty) : MethodHeader :=
  { name, params, result }

def abstractMethod (name : String) (params : List Ty) (result : Ty) : MethodHeader :=
  { name, params, result, isAbstract := true }

def staticMethod (name : String) (params : List Ty) (result : Ty) : MethodHeader :=
  { name, params, result, isStatic := true }

def staticField (name : String) (ty : Ty) : FieldHeader := ⟨name, ty, true⟩

def plainClass (name : String) : ClassHeader := { name, superclass := some objectClass }

/-- A throwable class: it can be made from nothing or from a message. -/
def throwable (name superclass : String) : ClassHeader :=
  { name, superclass := some superclass, ctors := [[], [.string]] }

def printStream : Ty := .named "java/io/PrintStream"

def printable : List Ty := [.int, .long, .double, .char, .boolean, .string, .object]

def objectHeader : ClassHeader :=
  { name := objectClass
    superclass := none
    ctors := [[]]
    methods := [method "toString" [] .string, method "equals" [.object] .boolean,
      method "hashCode" [] .int] }

def stringHeader : ClassHeader :=
  { plainClass stringClass with
    interfaces := ["java/lang/Comparable"]
    ctors := [[], [.string]]
    methods :=
      [method "length" [] .int, method "charAt" [.int] .char,
        method "equals" [.object] .boolean, method "compareTo" [.string] .int,
        method "concat" [.string] .string, method "indexOf" [.string] .int,
        method "isEmpty" [] .boolean, method "substring" [.int] .string,
        method "substring" [.int, .int] .string, method "toString" [] .string] ++
      (printable.take 5 ++ [Ty.object]).map fun ty => staticMethod "valueOf" [ty] .string }

def builderHeader : ClassHeader :=
  { plainClass builderClass with
    ctors := [[], [.string]]
    methods := [method "toString" [] .string, method "length" [] .int] ++
      printable.map fun ty => method "append" [ty] (.named builderClass) }

def printStreamHeader : ClassHeader :=
  { plainClass "java/io/PrintStream" with
    methods := method "println" [] .void ::
      printable.flatMap fun ty => [method "print" [ty] .void, method "println" [ty] .void] }

def classes : List ClassHeader :=
  [objectHeader, stringHeader, builderHeader, printStreamHeader,
    { name := "java/lang/Comparable", superclass := none, isInterface := true, isAbstract := true
      methods := [abstractMethod "compareTo" [.object] .int] },
    { name := "java/lang/Runnable", superclass := none, isInterface := true, isAbstract := true
      methods := [abstractMethod "run" [] .void] },
    { plainClass "java/lang/System" with
      fields := [staticField "out" printStream, staticField "err" printStream]
      methods := [staticMethod "exit" [.int] .void, staticMethod "currentTimeMillis" [] .long,
        staticMethod "nanoTime" [] .long] },
    { plainClass "java/lang/Integer" with
      fields := [staticField "MAX_VALUE" .int, staticField "MIN_VALUE" .int]
      methods := [staticMethod "parseInt" [.string] .int, staticMethod "toString" [.int] .string] },
    { plainClass "java/lang/Long" with
      fields := [staticField "MAX_VALUE" .long, staticField "MIN_VALUE" .long]
      methods := [staticMethod "parseLong" [.string] .long,
        staticMethod "toString" [.long] .string] },
    { plainClass "java/lang/Double" with
      methods := [staticMethod "parseDouble" [.string] .double,
        staticMethod "toString" [.double] .string] },
    { plainClass "java/lang/Character" with
      methods := [staticMethod "isDigit" [.char] .boolean, staticMethod "isLetter" [.char] .boolean,
        staticMethod "isWhitespace" [.char] .boolean, staticMethod "toUpperCase" [.char] .char,
        staticMethod "toLowerCase" [.char] .char] },
    { plainClass "java/lang/Math" with
      methods := [staticMethod "abs" [.int] .int, staticMethod "abs" [.long] .long,
        staticMethod "abs" [.double] .double, staticMethod "max" [.int, .int] .int,
        staticMethod "max" [.long, .long] .long, staticMethod "max" [.double, .double] .double,
        staticMethod "min" [.int, .int] .int, staticMethod "min" [.long, .long] .long,
        staticMethod "min" [.double, .double] .double, staticMethod "sqrt" [.double] .double,
        staticMethod "pow" [.double, .double] .double] },
    { throwable "java/lang/Throwable" objectClass with
      methods := [method "getMessage" [] .string, method "printStackTrace" [] .void,
        method "toString" [] .string] },
    throwable "java/lang/Exception" "java/lang/Throwable",
    throwable "java/lang/RuntimeException" "java/lang/Exception",
    throwable "java/lang/ArithmeticException" "java/lang/RuntimeException",
    throwable "java/lang/IllegalArgumentException" "java/lang/RuntimeException",
    throwable "java/lang/IllegalStateException" "java/lang/RuntimeException"]

end JMinusMinus.Builtin
