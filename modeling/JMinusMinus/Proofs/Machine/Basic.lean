import JMinusMinus.Proofs.Semantics.Memory
import JMinusMinus.Proofs.Stack.Effect

/-!
# The machine

What instructions do. The operand stack holds *words*, its top first. A `long` or a `double`
is one word here, but it counts for two where an instruction moves words by their number, and it
takes two local slots: a store of another word to either of them makes it unusable.

An instruction acts on the data of a method (`Instruction.act`). It goes on, jumps to a label,
raises an exception or ends the method. A row of the exception table covers the offsets it guards.

The machine is stuck where an instruction does not find the operands that it needs.
-/

namespace JMinusMinus

/-- How many words of the stack a word counts for. -/
def Word.width : Word → Nat
  | int _ | ref _ => 1
  | long _ | double _ => 2

/-- How many words a stack takes. -/
def widthOf (ws : List Word) : Nat := (ws.map Word.width).sum

/-- The top of a stack that has a width, and what is below. -/
def takeWords (n : Nat) : List Word → Option (List Word × List Word)
  | [] => if n = 0 then some ([], []) else none
  | w :: st =>
    if n = 0 then some ([], w :: st)
    else if w.width ≤ n then (takeWords (n - w.width) st).map fun r => (w :: r.1, r.2)
    else none

/-- What an instruction works on. -/
structure Data (W : Type) where
  /-- The operand stack, its top first. -/
  stack : List Word
  locals : Nat → Option Word
  /-- All stores to local slots so far, in order. -/
  writes : List (Nat × Word)
  memory : Memory W

/-- Stores a word in a slot. A wide word takes the next slot too. -/
def Data.setLocal {W : Type} (d : Data W) (slot : Nat) (w : Word) : Data W :=
  let locals i :=
    if i = slot then some w
    else if i = slot + 1 ∧ w.width = 2 then none
    else if i + 1 = slot then (d.locals i).filter fun w => w.width = 1
    else d.locals i
  { d with locals, writes := d.writes ++ [(slot, w)] }

/-- What an instruction comes to. -/
inductive Transition (W : Type) where
  | next (d : Data W)
  | jump (target : Label) (d : Data W)
  | raise (x : Ref) (d : Data W)
  | done (result : Option Word) (d : Data W)

/-- What an instruction comes to that acts on the memory and leaves words for the result upon a
stack. -/
def Data.perform {W α : Type} (d : Data W) (st : List Word) (o : MemoryResult W α)
    (words? : α → Option (List Word)) : Option (Transition W) :=
  match o with
  | some (.ok a, m) => (words? a).map fun ws => .next { d with stack := ws ++ st, memory := m }
  | some (.error x, m) => some (.raise x { d with stack := st, memory := m })
  | none => none

/-! ## Opcodes -/

namespace Opcode

/-- The constant that an opcode pushes. -/
def constant? : Opcode → Option Word
  | aconst_null => some (.ref none)
  | iconst_m1 => some (.int (-1))
  | iconst_0 => some (.int 0)
  | iconst_1 => some (.int 1)
  | iconst_2 => some (.int 2)
  | iconst_3 => some (.int 3)
  | iconst_4 => some (.int 4)
  | iconst_5 => some (.int 5)
  | lconst_0 => some (.long 0)
  | lconst_1 => some (.long 1)
  | dconst_0 => some (.double Binary64.zero)
  | dconst_1 => some (.double Binary64.one)
  | _ => none

/-- Operations on one word. -/
def unary? (ds : Doubles) : Opcode → Word → Option Word
  | ineg, .int a => some (.int (-a))
  | lneg, .long a => some (.long (-a))
  | dneg, .double a => some (.double (ds.neg a))
  | i2l, .int a => some (.long (a.signExtend 64))
  | i2d, .int a => some (.double (Binary64.ofInt a.toInt))
  | i2c, .int a => some (.int ((a.setWidth 16).setWidth 32))
  | l2i, .long a => some (.int (a.setWidth 32))
  | l2d, .long a => some (.double (Binary64.ofInt a.toInt))
  | d2i, .double a => some (.int (ds.toInt a))
  | d2l, .double a => some (.long (ds.toLong a))
  | _, _ => none

/-- The result of a comparison as a number. -/
def orderWord : Ordering → Word
  | .lt => .int (-1)
  | .eq => .int 0
  | .gt => .int 1

/-- The word that an opcode computes from two, the second of which was the top of the stack. -/
def binary? (ds : Doubles) : Opcode → Word → Word → Option (Except Trap Word)
  | iadd, .int a, .int b => some (.ok (.int (a + b)))
  | isub, .int a, .int b => some (.ok (.int (a - b)))
  | imul, .int a, .int b => some (.ok (.int (a * b)))
  | idiv, .int a, .int b => some (if b = 0 then .error .arithmetic else .ok (.int (a.sdiv b)))
  | irem, .int a, .int b => some (if b = 0 then .error .arithmetic else .ok (.int (a.srem b)))
  | iand, .int a, .int b => some (.ok (.int (a &&& b)))
  | ior, .int a, .int b => some (.ok (.int (a ||| b)))
  | ixor, .int a, .int b => some (.ok (.int (a ^^^ b)))
  | ishl, .int a, .int b => some (.ok (.int (a <<< (b.toNat % 32))))
  | ishr, .int a, .int b => some (.ok (.int (a.sshiftRight (b.toNat % 32))))
  | iushr, .int a, .int b => some (.ok (.int (a >>> (b.toNat % 32))))
  | ladd, .long a, .long b => some (.ok (.long (a + b)))
  | lsub, .long a, .long b => some (.ok (.long (a - b)))
  | lmul, .long a, .long b => some (.ok (.long (a * b)))
  | ldiv, .long a, .long b => some (if b = 0 then .error .arithmetic else .ok (.long (a.sdiv b)))
  | lrem, .long a, .long b => some (if b = 0 then .error .arithmetic else .ok (.long (a.srem b)))
  | land, .long a, .long b => some (.ok (.long (a &&& b)))
  | lor, .long a, .long b => some (.ok (.long (a ||| b)))
  | lxor, .long a, .long b => some (.ok (.long (a ^^^ b)))
  | lshl, .long a, .int b => some (.ok (.long (a <<< (b.toNat % 64))))
  | lshr, .long a, .int b => some (.ok (.long (a.sshiftRight (b.toNat % 64))))
  | lushr, .long a, .int b => some (.ok (.long (a >>> (b.toNat % 64))))
  | dadd, .double a, .double b => some (.ok (.double (ds.add a b)))
  | dsub, .double a, .double b => some (.ok (.double (ds.sub a b)))
  | dmul, .double a, .double b => some (.ok (.double (ds.mul a b)))
  | ddiv, .double a, .double b => some (.ok (.double (ds.div a b)))
  | drem, .double a, .double b => some (.ok (.double (ds.rem a b)))
  | lcmp, .long a, .long b => some (.ok (orderWord (orderOf a.toInt b.toInt)))
  | dcmpl, .double a, .double b => some (.ok (orderWord ((ds.order a b).getD .lt)))
  | dcmpg, .double a, .double b => some (.ok (orderWord ((ds.order a b).getD .gt)))
  | _, _, _ => none

/-- A stack whose top is copied below what is next on it. -/
def copyTop (words below : Nat) (st : List Word) : Option (List Word) := do
  let (top, st) ← takeWords words st
  let (next, st) ← takeWords below st
  return top ++ next ++ top ++ st

/-- What an opcode that only moves words makes of a stack. -/
def shuffle? : Opcode → List Word → Option (List Word)
  | nop, st => some st
  | pop, st => (takeWords 1 st).map (·.2)
  | pop2, st => (takeWords 2 st).map (·.2)
  | dup, st => copyTop 1 0 st
  | dup_x1, st => copyTop 1 1 st
  | dup_x2, st => copyTop 1 2 st
  | dup2, st => copyTop 2 0 st
  | dup2_x1, st => copyTop 2 1 st
  | dup2_x2, st => copyTop 2 2 st
  | swap, st => do
    let (top, st) ← takeWords 1 st
    let (next, st) ← takeWords 1 st
    return next ++ top ++ st
  | _, _ => none

/-- What an opcode loads from an array. -/
def loadedKind? : Opcode → Option ValueKind
  | iaload => some .int
  | laload => some .long
  | daload => some .double
  | caload => some .char
  | baload => some .boolean
  | aaload => some .ref
  | _ => none

/-- What an opcode stores in an array. -/
def storedKind? : Opcode → Option ValueKind
  | iastore => some .int
  | lastore => some .long
  | dastore => some .double
  | castore => some .char
  | bastore => some .boolean
  | aastore => some .ref
  | _ => none

/-- Tests of a number against zero. -/
def zeroTest? : Opcode → Option (Int → Bool)
  | ifeq => some fun a => a = 0
  | ifne => some fun a => a ≠ 0
  | iflt => some fun a => a < 0
  | ifge => some fun a => 0 ≤ a
  | ifgt => some fun a => 0 < a
  | ifle => some fun a => a ≤ 0
  | _ => none

/-- Tests of two numbers. -/
def intTest? : Opcode → Option (Int → Int → Bool)
  | if_icmpeq => some fun a b => a = b
  | if_icmpne => some fun a b => a ≠ b
  | if_icmplt => some fun a b => a < b
  | if_icmpge => some fun a b => b ≤ a
  | if_icmpgt => some fun a b => b < a
  | if_icmple => some fun a b => a ≤ b
  | _ => none

/-- How an opcode calls a method. -/
def invokeKind? : Opcode → Option InvokeKind
  | invokestatic => some .static
  | invokevirtual => some .virtual
  | invokespecial => some .special
  | invokeinterface => some .interface
  | _ => none

end Opcode

/-- The opcode that loads such a word from a slot. -/
def Word.loadOp : Word → Opcode
  | int _ => .iload
  | long _ => .lload
  | double _ => .dload
  | ref _ => .aload

/-- The opcode that stores such a word in a slot. -/
def Word.storeOp : Word → Opcode
  | int _ => .istore
  | long _ => .lstore
  | double _ => .dstore
  | ref _ => .astore

/-- The opcode that returns such a word. -/
def Word.returnOp : Word → Opcode
  | int _ => .ireturn
  | long _ => .lreturn
  | double _ => .dreturn
  | ref _ => .areturn

/-- What a field with the descriptor holds. -/
def Descriptor.kind? (descriptor : String) : Option ValueKind :=
  match descriptor.toList with
  | 'I' :: _ => some .int
  | 'J' :: _ => some .long
  | 'D' :: _ => some .double
  | 'C' :: _ => some .char
  | 'Z' :: _ => some .boolean
  | 'L' :: _ | '[' :: _ => some .ref
  | _ => none

/-- The words of a value, if it is of the kind. -/
def Value.wordsAs? (k : Option ValueKind) (v : Value) : Option (List Word) :=
  if v.kind? = k then some v.words else none

/-! ## Instructions -/

section

variable {W : Type} (rt : Runtime W)

/-- The load of a local slot, or the store. -/
def Data.access (d : Data W) (o : Opcode) (slot : Nat) : Option (Transition W) :=
  match o with
  | .iload | .lload | .dload | .aload =>
    match d.locals slot with
    | some w => if w.loadOp = o then some (.next { d with stack := w :: d.stack }) else none
    | none => none
  | .istore | .lstore | .dstore | .astore =>
    match d.stack with
    | w :: st =>
      if w.storeOp = o then some (.next ({ d with stack := st }.setLocal slot w)) else none
    | [] => none
  | _ => none

/-- The action of an instruction without operands. -/
def Opcode.act (o : Opcode) (d : Data W) : Option (Transition W) :=
  match o with
  | aconst_null | iconst_m1 | iconst_0 | iconst_1 | iconst_2 | iconst_3 | iconst_4 | iconst_5
  | lconst_0 | lconst_1 | dconst_0 | dconst_1 =>
    o.constant?.map fun w => .next { d with stack := w :: d.stack }
  | iload_0 | iload_1 | iload_2 | iload_3 | lload_0 | lload_1 | lload_2 | lload_3 | dload_0
  | dload_1 | dload_2 | dload_3 | aload_0 | aload_1 | aload_2 | aload_3 | istore_0 | istore_1
  | istore_2 | istore_3 | lstore_0 | lstore_1 | lstore_2 | lstore_3 | dstore_0 | dstore_1
  | dstore_2 | dstore_3 | astore_0 | astore_1 | astore_2 | astore_3 =>
    o.longForm?.bind fun (o, slot) => d.access o slot
  | ineg | lneg | dneg | i2l | i2d | i2c | l2i | l2d | d2i | d2l =>
    match d.stack with
    | a :: st => (o.unary? rt.doubles a).map fun w => .next { d with stack := w :: st }
    | _ => none
  | iadd | isub | imul | idiv | irem | iand | ior | ixor | ishl | ishr | iushr | ladd | lsub
  | lmul | ldiv | lrem | land | lor | lxor | lshl | lshr | lushr | dadd | dsub | dmul | ddiv
  | drem | lcmp | dcmpl | dcmpg =>
    match d.stack with
    | b :: a :: st =>
      d.perform st ((o.binary? rt.doubles a b).map (rt.orTrap d.memory)) fun w => some [w]
    | _ => none
  | nop | pop | pop2 | dup | dup_x1 | dup_x2 | dup2 | dup2_x1 | dup2_x2 | swap =>
    (o.shuffle? d.stack).map fun st => .next { d with stack := st }
  | iaload | laload | daload | caload | baload | aaload =>
    match d.stack with
    | .int i :: .ref r :: st =>
      d.perform st (rt.getElement r i d.memory) (Value.wordsAs? o.loadedKind?)
    | _ => none
  | iastore | lastore | dastore | castore | bastore | aastore =>
    match d.stack with
    | w :: .int i :: .ref r :: st => do
      let v ← Value.ofWord? (← o.storedKind?) w
      d.perform st (rt.setElement r i v d.memory) fun _ => some []
    | _ => none
  | arraylength =>
    match d.stack with
    | .ref r :: st => d.perform st (rt.arrayLength r d.memory) fun n => some [.int n]
    | _ => none
  | athrow =>
    match d.stack with
    | .ref r :: st =>
      let (x, memory) := rt.thrown r d.memory
      some (.raise x { d with stack := st, memory })
    | _ => none
  | return_ => some (.done none d)
  | ireturn | lreturn | dreturn | areturn =>
    match d.stack with
    | w :: _ => if w.returnOp = o then some (.done (some w) d) else none
    | _ => none
  | _ => none

/-- The action of a jump, which goes on with the next instruction unless a test holds. -/
def Data.jumpIf (d : Data W) (st : List Word) (target : Label) (test : Bool) : Transition W :=
  if test then .jump target { d with stack := st } else .next { d with stack := st }

/-- Jumps to a label. -/
def Opcode.branch (o : Opcode) (target : Label) (d : Data W) : Option (Transition W) :=
  match o, d.stack with
  | goto, st => some (d.jumpIf st target true)
  | ifnull, .ref r :: st => some (d.jumpIf st target (r = none))
  | ifnonnull, .ref r :: st => some (d.jumpIf st target (r ≠ none))
  | if_acmpeq, .ref b :: .ref a :: st => some (d.jumpIf st target (a = b))
  | if_acmpne, .ref b :: .ref a :: st => some (d.jumpIf st target (a ≠ b))
  | o, .int b :: st =>
    match o.zeroTest?, o.intTest?, st with
    | some test, _, st => some (d.jumpIf st target (test b.toInt))
    | none, some test, .int a :: st => some (d.jumpIf st target (test a.toInt b.toInt))
    | _, _, _ => none
  | _, _ => none

/-- Reads and writes fields. -/
def Opcode.useMember (o : Opcode) (k : FieldKey) (d : Data W) : Option (Transition W) :=
  match o with
  | getstatic =>
    d.perform d.stack (Runtime.getStatic k d.memory)
      (Value.wordsAs? (Descriptor.kind? k.descriptor))
  | putstatic =>
    match d.stack with
    | w :: st => do
      let v ← Value.ofWord? (← Descriptor.kind? k.descriptor) w
      d.perform st (Runtime.setStatic k v d.memory) fun _ => some []
    | _ => none
  | getfield =>
    match d.stack with
    | .ref r :: st =>
      d.perform st (rt.getField k r d.memory) (Value.wordsAs? (Descriptor.kind? k.descriptor))
    | _ => none
  | putfield =>
    match d.stack with
    | w :: .ref r :: st => do
      let v ← Value.ofWord? (← Descriptor.kind? k.descriptor) w
      d.perform st (rt.setField k r v d.memory) fun _ => some []
    | _ => none
  | _ => do
    let kind ← o.invokeKind?
    let (params, result) ← Descriptor.methodWords k.descriptor
    let (args, st) ← takeWords (if kind = .static then params else 1 + params) d.stack
    d.perform st (rt.invoke kind k.owner k.name k.descriptor args.reverse d.memory) fun w =>
      if widthOf w.toList = result then some w.toList else none

/-- Creates and tests objects and arrays. -/
def Opcode.useType (o : Opcode) (type : String) (d : Data W) : Option (Transition W) :=
  match o, d.stack with
  | new, st => d.perform st (rt.allocate type d.memory) fun r => some [.ref (some r)]
  | anewarray, .int n :: st =>
    d.perform st (rt.newArray (.references type) [n] d.memory) fun r => some [.ref (some r)]
  | checkcast, .ref r :: st =>
    d.perform st (rt.checkCast type r d.memory) fun _ => some [.ref r]
  | instanceof, .ref r :: st =>
    let w := if rt.instanceTest type r d.memory then 1 else 0
    some (.next { d with stack := .int w :: st })
  | _, _ => none

/-- The word of a constant. -/
def Constant.word : Constant → Word
  | int v => .int (BitVec.ofInt 32 v)
  | long v => .long (BitVec.ofInt 64 v)
  | double v => .double v
  | string v => .ref (some (rt.string v))

/-- The number that a word is. -/
def Word.int? : Word → Option (BitVec 32)
  | int v => some v
  | _ => none

/-- Where a switch goes for a number. -/
def Instruction.select? (v : Int) : Instruction → Option Label
  | tableSwitch otherwise lo hi targets =>
    if lo ≤ v ∧ v ≤ hi then targets[(v - lo).toNat]? else some otherwise
  | lookupSwitch otherwise pairs => some ((pairs.lookup v).getD otherwise)
  | _ => none

/-- What an instruction does, if it applies to the stack it finds. -/
def Instruction.act (i : Instruction) (d : Data W) : Option (Transition W) :=
  match i with
  | plain o => o.act rt d
  | load c => some (.next { d with stack := c.word rt :: d.stack })
  | branch o target => o.branch target d
  | member o owner name descriptor => o.useMember rt ⟨owner, name, descriptor⟩ d
  | reference o type => o.useType rt type d
  | localVar o slot => d.access o slot
  | operand .bipush v =>
    some (.next { d with stack := .int ((BitVec.ofInt 8 v).signExtend 32) :: d.stack })
  | operand .sipush v =>
    some (.next { d with stack := .int ((BitVec.ofInt 16 v).signExtend 32) :: d.stack })
  | operand .newarray code =>
    match d.stack with
    | .int n :: st =>
      d.perform st (rt.newArray (.primitive code) [n] d.memory) fun r => some [.ref (some r)]
    | _ => none
  | operand .. => none
  | step slot delta =>
    match d.locals slot with
    | some (.int v) =>
      some (.next (d.setLocal slot (.int (v + (BitVec.ofInt 16 delta).signExtend 32))))
    | _ => none
  | multiArray type dims => do
    let (lengths, st) ← takeWords dims d.stack
    let lengths ← lengths.reverse.mapM Word.int?
    d.perform st (rt.newArray (.nested type) lengths d.memory) fun r => some [.ref (some r)]
  | tableSwitch .. | lookupSwitch .. =>
    match d.stack with
    | .int v :: st => (i.select? v.toInt).map fun l => .jump l { d with stack := st }
    | _ => none

end

/-- Whether a row guards an offset. -/
def TableRow.covers (r : TableRow) (pc : Nat) : Bool := r.start ≤ pc && pc < r.stop

end JMinusMinus
