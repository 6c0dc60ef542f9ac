import JMinusMinus.Code.Buffer
import JMinusMinus.Error

/-!
# Layout

`Buffer.layout` gives every instruction its byte offset.

* An instruction starts where the one before it ends, and the first at zero.
* The offset of a label is that of the next instruction after its last mark, or the end of the
  code. A label without a mark is a defect.
* Handlers become rows of the exception table, in order. A row whose range is empty is left out.

`Code.listing` writes laid out code as text.
-/

namespace JMinusMinus

/-! ## Offsets -/

namespace Line

def next (offset : Nat) : Line → Nat
  | mark _ => offset
  | instr i => offset + i.size offset

end Line

def endOffset (offset : Nat) (lines : List Line) : Nat := lines.foldl Line.next offset

def placed (offset : Nat) : List Line → List (Nat × Instruction)
  | [] => []
  | .mark _ :: ls => placed offset ls
  | .instr i :: ls => (offset, i) :: placed (offset + i.size offset) ls

def marks (offset : Nat) : List Line → List (Label × Nat)
  | [] => []
  | .mark l :: ls => (l, offset) :: marks offset ls
  | .instr i :: ls => marks (offset + i.size offset) ls

def markTable (labels : Nat) (ms : List (Label × Nat)) : Array (Option Nat) :=
  ms.foldl (fun table m => table.setIfInBounds m.1.id (some m.2)) (Array.replicate labels none)

def boundOffsets : Nat → List (Option Nat) → Except Failure (List Nat)
  | _, [] => .ok []
  | label, none :: _ => .error (.ofDefect (.unboundLabel label))
  | label, some offset :: rest => do return offset :: (← boundOffsets (label + 1) rest)

/-! ## Code -/

structure TableRow where
  /-- The first offset it guards. -/
  start : Nat
  /-- The first offset after those it guards. -/
  stop : Nat
  target : Nat
  catches : Option String
deriving DecidableEq

structure Code where
  instructions : List (Nat × Instruction)
  /-- The offsets of the labels, in the order of creation. -/
  labelOffsets : Array Nat
  exceptions : List TableRow
  maxLocals : Nat
  /-- The bytes of all instructions. -/
  length : Nat
deriving DecidableEq

def offsetOf (offsets : Array Nat) (l : Label) : Except Fault Nat :=
  match offsets[l.id]? with
  | some offset => .ok offset
  | none => .error .unknownLabel

def Handler.row (offsets : Array Nat) (h : Handler) : Except Fault TableRow := do
  let start ← offsetOf offsets h.start
  let stop ← offsetOf offsets h.stop
  let target ← offsetOf offsets h.target
  return ⟨start, stop, target, h.catches⟩

def Buffer.layout (b : Buffer) : Except Failure Code := do
  let lines := b.code.lines
  let offsets := (← boundOffsets 0 (markTable b.labels (marks 0 lines)).toList).toArray
  let rows ← Failure.lift (b.code.handlers.mapM (Handler.row offsets))
  return {
    instructions := placed 0 lines
    labelOffsets := offsets
    exceptions := rows.filter fun r => r.start < r.stop
    maxLocals := b.code.maxLocals
    length := endOffset 0 lines }

namespace Code

def opcodes (c : Code) : List Opcode := c.instructions.map (·.2.opcode)

def count (c : Code) (op : Opcode) : Nat := c.opcodes.count op

/-! ## Listings -/

def padLeft (width : Nat) (text : String) : String :=
  String.ofList (List.replicate (width - text.length) ' ') ++ text

def caseText (offsets : Array Nat) (value : String) (target : Label) : Except Fault String := do
  let offset ← offsetOf offsets target
  return s!"\n{padLeft 14 value}: {offset}"

/-- Cases of a table from a value up to the last one. -/
def tableText (offsets : Array Nat) (hi : Int) : Int → List Label → Except Fault String
  | value, target :: targets => do
    if value ≤ hi then
      let first ← caseText offsets (toString value) target
      return first ++ (← tableText offsets hi (value + 1) targets)
    else return ""
  | _, [] => return ""

def pairsText (offsets : Array Nat) : List (Int × Label) → Except Fault String
  | (value, target) :: pairs => do
    let first ← caseText offsets (toString value) target
    return first ++ (← pairsText offsets pairs)
  | [] => return ""

/-- The operands of an instruction, with the space before them. -/
def operandText (offsets : Array Nat) : Instruction → Except Fault String
  | .plain _ => return ""
  | .load value => return " " ++ value.text
  | .branch _ target => do
    let offset ← offsetOf offsets target
    return s!" {offset}"
  | .member _ owner name descriptor => return s!" {owner}.{name}:{descriptor}"
  | .reference _ type => return " " ++ type
  | .localVar _ slot => return s!" {slot}"
  | .operand _ value => return s!" {value}"
  | .step slot delta => return s!" {slot} {delta}"
  | .multiArray type dims => return s!" {type} {dims}"
  | .tableSwitch otherwise lo hi targets => do
    let cases ← tableText offsets hi lo targets
    let last ← caseText offsets "default" otherwise
    return s!" {lo} to {hi}{cases}{last}"
  | .lookupSwitch otherwise pairs => do
    let cases ← pairsText offsets pairs
    let last ← caseText offsets "default" otherwise
    return s!" {pairs.length}{cases}{last}"

/-- The word for the wide form that an instruction takes. -/
def wideText : Instruction → String
  | .localVar _ slot => if Instruction.isByteSlot slot then "" else Opcode.wide.mnemonic ++ " "
  | _ => ""

def instructionText (offsets : Array Nat) (i : Instruction) : Except Fault String := do
  return wideText i ++ i.opcode.mnemonic ++ (← operandText offsets i)

def lineText (offsets : Array Nat) (line : Nat × Instruction) : Except Fault String := do
  let text ← instructionText offsets line.2
  return s!"{padLeft 6 (toString line.1)}: {text}\n"

def rowText (r : TableRow) : String :=
  let cells := [padLeft 5 (toString r.start), padLeft 5 (toString r.stop),
    padLeft 7 (toString r.target), r.catches.getD "any"]
  "    " ++ " ".intercalate cells ++ "\n"

def tableListing (rows : List TableRow) : String :=
  if rows.isEmpty then ""
  else
    "  Exception table:\n     from    to  target type\n" ++ String.join (rows.map rowText)

/-- The instructions one a line, and then the exception table. -/
def listing (c : Code) : Except Fault String := do
  let lines ← c.instructions.mapM (lineText c.labelOffsets)
  return String.join lines ++ tableListing c.exceptions

end Code

end JMinusMinus
