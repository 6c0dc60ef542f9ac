/-!
# Opcodes

The instructions of the Java virtual machine that compiled code uses, by their mnemonics, and
the byte that each is written as. Every other byte is an opcode without a mnemonic.

A load or store of one of the first four local slots has a short form of a single byte.
-/

namespace JMinusMinus

inductive Opcode where
  | nop | aconst_null | iconst_m1 | iconst_0 | iconst_1 | iconst_2 | iconst_3 | iconst_4
  | iconst_5 | lconst_0 | lconst_1 | dconst_0 | dconst_1 | bipush | sipush | ldc | ldc_w | ldc2_w
  | iload | lload | dload | aload | iload_0 | iload_1 | iload_2 | iload_3 | lload_0 | lload_1
  | lload_2 | lload_3 | dload_0 | dload_1 | dload_2 | dload_3 | aload_0 | aload_1 | aload_2
  | aload_3 | iaload | laload | daload | aaload | baload | caload | istore | lstore | dstore
  | astore | istore_0 | istore_1 | istore_2 | istore_3 | lstore_0 | lstore_1 | lstore_2 | lstore_3
  | dstore_0 | dstore_1 | dstore_2 | dstore_3 | astore_0 | astore_1 | astore_2 | astore_3
  | iastore | lastore | dastore | aastore | bastore | castore | pop | pop2 | dup | dup_x1 | dup_x2
  | dup2 | dup2_x1 | dup2_x2 | swap | iadd | ladd | dadd | isub | lsub | dsub | imul | lmul | dmul
  | idiv | ldiv | ddiv | irem | lrem | drem | ineg | lneg | dneg | ishl | lshl | ishr | lshr
  | iushr | lushr | iand | land | ior | lor | ixor | lxor | iinc | i2l | i2d | l2i | l2d | d2i
  | d2l | i2c | lcmp | dcmpl | dcmpg | ifeq | ifne | iflt | ifge | ifgt | ifle | if_icmpeq
  | if_icmpne | if_icmplt | if_icmpge | if_icmpgt | if_icmple | if_acmpeq | if_acmpne | goto
  | tableswitch | lookupswitch | ireturn | lreturn | dreturn | areturn | return_ | getstatic
  | putstatic | getfield | putfield | invokevirtual | invokespecial | invokestatic
  | invokeinterface | new | newarray | anewarray | arraylength | athrow | checkcast | instanceof
  | wide | multianewarray | ifnull | ifnonnull
  /-- A byte that has no mnemonic here. -/
  | other (byte : Nat)
deriving DecidableEq

namespace Opcode

def all : List Opcode :=
  [nop, aconst_null, iconst_m1, iconst_0, iconst_1, iconst_2, iconst_3, iconst_4, iconst_5,
    lconst_0, lconst_1, dconst_0, dconst_1, bipush, sipush, ldc, ldc_w, ldc2_w, iload, lload,
    dload, aload, iload_0, iload_1, iload_2, iload_3, lload_0, lload_1, lload_2, lload_3, dload_0,
    dload_1, dload_2, dload_3, aload_0, aload_1, aload_2, aload_3, iaload, laload, daload, aaload,
    baload, caload, istore, lstore, dstore, astore, istore_0, istore_1, istore_2, istore_3,
    lstore_0, lstore_1, lstore_2, lstore_3, dstore_0, dstore_1, dstore_2, dstore_3, astore_0,
    astore_1, astore_2, astore_3, iastore, lastore, dastore, aastore, bastore, castore, pop, pop2,
    dup, dup_x1, dup_x2, dup2, dup2_x1, dup2_x2, swap, iadd, ladd, dadd, isub, lsub, dsub, imul,
    lmul, dmul, idiv, ldiv, ddiv, irem, lrem, drem, ineg, lneg, dneg, ishl, lshl, ishr, lshr,
    iushr, lushr, iand, land, ior, lor, ixor, lxor, iinc, i2l, i2d, l2i, l2d, d2i, d2l, i2c, lcmp,
    dcmpl, dcmpg, ifeq, ifne, iflt, ifge, ifgt, ifle, if_icmpeq, if_icmpne, if_icmplt, if_icmpge,
    if_icmpgt, if_icmple, if_acmpeq, if_acmpne, goto, tableswitch, lookupswitch, ireturn, lreturn,
    dreturn, areturn, return_, getstatic, putstatic, getfield, putfield, invokevirtual,
    invokespecial, invokestatic, invokeinterface, new, newarray, anewarray, arraylength, athrow,
    checkcast, instanceof, wide, multianewarray, ifnull, ifnonnull]

def byte : Opcode → Nat
  | nop => 0x00
  | aconst_null => 0x01
  | iconst_m1 => 0x02
  | iconst_0 => 0x03
  | iconst_1 => 0x04
  | iconst_2 => 0x05
  | iconst_3 => 0x06
  | iconst_4 => 0x07
  | iconst_5 => 0x08
  | lconst_0 => 0x09
  | lconst_1 => 0x0a
  | dconst_0 => 0x0e
  | dconst_1 => 0x0f
  | bipush => 0x10
  | sipush => 0x11
  | ldc => 0x12
  | ldc_w => 0x13
  | ldc2_w => 0x14
  | iload => 0x15
  | lload => 0x16
  | dload => 0x18
  | aload => 0x19
  | iload_0 => 0x1a
  | iload_1 => 0x1b
  | iload_2 => 0x1c
  | iload_3 => 0x1d
  | lload_0 => 0x1e
  | lload_1 => 0x1f
  | lload_2 => 0x20
  | lload_3 => 0x21
  | dload_0 => 0x26
  | dload_1 => 0x27
  | dload_2 => 0x28
  | dload_3 => 0x29
  | aload_0 => 0x2a
  | aload_1 => 0x2b
  | aload_2 => 0x2c
  | aload_3 => 0x2d
  | iaload => 0x2e
  | laload => 0x2f
  | daload => 0x31
  | aaload => 0x32
  | baload => 0x33
  | caload => 0x34
  | istore => 0x36
  | lstore => 0x37
  | dstore => 0x39
  | astore => 0x3a
  | istore_0 => 0x3b
  | istore_1 => 0x3c
  | istore_2 => 0x3d
  | istore_3 => 0x3e
  | lstore_0 => 0x3f
  | lstore_1 => 0x40
  | lstore_2 => 0x41
  | lstore_3 => 0x42
  | dstore_0 => 0x47
  | dstore_1 => 0x48
  | dstore_2 => 0x49
  | dstore_3 => 0x4a
  | astore_0 => 0x4b
  | astore_1 => 0x4c
  | astore_2 => 0x4d
  | astore_3 => 0x4e
  | iastore => 0x4f
  | lastore => 0x50
  | dastore => 0x52
  | aastore => 0x53
  | bastore => 0x54
  | castore => 0x55
  | pop => 0x57
  | pop2 => 0x58
  | dup => 0x59
  | dup_x1 => 0x5a
  | dup_x2 => 0x5b
  | dup2 => 0x5c
  | dup2_x1 => 0x5d
  | dup2_x2 => 0x5e
  | swap => 0x5f
  | iadd => 0x60
  | ladd => 0x61
  | dadd => 0x63
  | isub => 0x64
  | lsub => 0x65
  | dsub => 0x67
  | imul => 0x68
  | lmul => 0x69
  | dmul => 0x6b
  | idiv => 0x6c
  | ldiv => 0x6d
  | ddiv => 0x6f
  | irem => 0x70
  | lrem => 0x71
  | drem => 0x73
  | ineg => 0x74
  | lneg => 0x75
  | dneg => 0x77
  | ishl => 0x78
  | lshl => 0x79
  | ishr => 0x7a
  | lshr => 0x7b
  | iushr => 0x7c
  | lushr => 0x7d
  | iand => 0x7e
  | land => 0x7f
  | ior => 0x80
  | lor => 0x81
  | ixor => 0x82
  | lxor => 0x83
  | iinc => 0x84
  | i2l => 0x85
  | i2d => 0x87
  | l2i => 0x88
  | l2d => 0x8a
  | d2i => 0x8e
  | d2l => 0x8f
  | i2c => 0x92
  | lcmp => 0x94
  | dcmpl => 0x97
  | dcmpg => 0x98
  | ifeq => 0x99
  | ifne => 0x9a
  | iflt => 0x9b
  | ifge => 0x9c
  | ifgt => 0x9d
  | ifle => 0x9e
  | if_icmpeq => 0x9f
  | if_icmpne => 0xa0
  | if_icmplt => 0xa1
  | if_icmpge => 0xa2
  | if_icmpgt => 0xa3
  | if_icmple => 0xa4
  | if_acmpeq => 0xa5
  | if_acmpne => 0xa6
  | goto => 0xa7
  | tableswitch => 0xaa
  | lookupswitch => 0xab
  | ireturn => 0xac
  | lreturn => 0xad
  | dreturn => 0xaf
  | areturn => 0xb0
  | return_ => 0xb1
  | getstatic => 0xb2
  | putstatic => 0xb3
  | getfield => 0xb4
  | putfield => 0xb5
  | invokevirtual => 0xb6
  | invokespecial => 0xb7
  | invokestatic => 0xb8
  | invokeinterface => 0xb9
  | new => 0xbb
  | newarray => 0xbc
  | anewarray => 0xbd
  | arraylength => 0xbe
  | athrow => 0xbf
  | checkcast => 0xc0
  | instanceof => 0xc1
  | wide => 0xc4
  | multianewarray => 0xc5
  | ifnull => 0xc6
  | ifnonnull => 0xc7
  | other byte => byte

def ofByte (byte : Nat) : Opcode := (all.find? (·.byte = byte)).getD (.other byte)

def mnemonic : Opcode → String
  | nop => "nop"
  | aconst_null => "aconst_null"
  | iconst_m1 => "iconst_m1"
  | iconst_0 => "iconst_0"
  | iconst_1 => "iconst_1"
  | iconst_2 => "iconst_2"
  | iconst_3 => "iconst_3"
  | iconst_4 => "iconst_4"
  | iconst_5 => "iconst_5"
  | lconst_0 => "lconst_0"
  | lconst_1 => "lconst_1"
  | dconst_0 => "dconst_0"
  | dconst_1 => "dconst_1"
  | bipush => "bipush"
  | sipush => "sipush"
  | ldc => "ldc"
  | ldc_w => "ldc_w"
  | ldc2_w => "ldc2_w"
  | iload => "iload"
  | lload => "lload"
  | dload => "dload"
  | aload => "aload"
  | iload_0 => "iload_0"
  | iload_1 => "iload_1"
  | iload_2 => "iload_2"
  | iload_3 => "iload_3"
  | lload_0 => "lload_0"
  | lload_1 => "lload_1"
  | lload_2 => "lload_2"
  | lload_3 => "lload_3"
  | dload_0 => "dload_0"
  | dload_1 => "dload_1"
  | dload_2 => "dload_2"
  | dload_3 => "dload_3"
  | aload_0 => "aload_0"
  | aload_1 => "aload_1"
  | aload_2 => "aload_2"
  | aload_3 => "aload_3"
  | iaload => "iaload"
  | laload => "laload"
  | daload => "daload"
  | aaload => "aaload"
  | baload => "baload"
  | caload => "caload"
  | istore => "istore"
  | lstore => "lstore"
  | dstore => "dstore"
  | astore => "astore"
  | istore_0 => "istore_0"
  | istore_1 => "istore_1"
  | istore_2 => "istore_2"
  | istore_3 => "istore_3"
  | lstore_0 => "lstore_0"
  | lstore_1 => "lstore_1"
  | lstore_2 => "lstore_2"
  | lstore_3 => "lstore_3"
  | dstore_0 => "dstore_0"
  | dstore_1 => "dstore_1"
  | dstore_2 => "dstore_2"
  | dstore_3 => "dstore_3"
  | astore_0 => "astore_0"
  | astore_1 => "astore_1"
  | astore_2 => "astore_2"
  | astore_3 => "astore_3"
  | iastore => "iastore"
  | lastore => "lastore"
  | dastore => "dastore"
  | aastore => "aastore"
  | bastore => "bastore"
  | castore => "castore"
  | pop => "pop"
  | pop2 => "pop2"
  | dup => "dup"
  | dup_x1 => "dup_x1"
  | dup_x2 => "dup_x2"
  | dup2 => "dup2"
  | dup2_x1 => "dup2_x1"
  | dup2_x2 => "dup2_x2"
  | swap => "swap"
  | iadd => "iadd"
  | ladd => "ladd"
  | dadd => "dadd"
  | isub => "isub"
  | lsub => "lsub"
  | dsub => "dsub"
  | imul => "imul"
  | lmul => "lmul"
  | dmul => "dmul"
  | idiv => "idiv"
  | ldiv => "ldiv"
  | ddiv => "ddiv"
  | irem => "irem"
  | lrem => "lrem"
  | drem => "drem"
  | ineg => "ineg"
  | lneg => "lneg"
  | dneg => "dneg"
  | ishl => "ishl"
  | lshl => "lshl"
  | ishr => "ishr"
  | lshr => "lshr"
  | iushr => "iushr"
  | lushr => "lushr"
  | iand => "iand"
  | land => "land"
  | ior => "ior"
  | lor => "lor"
  | ixor => "ixor"
  | lxor => "lxor"
  | iinc => "iinc"
  | i2l => "i2l"
  | i2d => "i2d"
  | l2i => "l2i"
  | l2d => "l2d"
  | d2i => "d2i"
  | d2l => "d2l"
  | i2c => "i2c"
  | lcmp => "lcmp"
  | dcmpl => "dcmpl"
  | dcmpg => "dcmpg"
  | ifeq => "ifeq"
  | ifne => "ifne"
  | iflt => "iflt"
  | ifge => "ifge"
  | ifgt => "ifgt"
  | ifle => "ifle"
  | if_icmpeq => "if_icmpeq"
  | if_icmpne => "if_icmpne"
  | if_icmplt => "if_icmplt"
  | if_icmpge => "if_icmpge"
  | if_icmpgt => "if_icmpgt"
  | if_icmple => "if_icmple"
  | if_acmpeq => "if_acmpeq"
  | if_acmpne => "if_acmpne"
  | goto => "goto"
  | tableswitch => "tableswitch"
  | lookupswitch => "lookupswitch"
  | ireturn => "ireturn"
  | lreturn => "lreturn"
  | dreturn => "dreturn"
  | areturn => "areturn"
  | return_ => "return"
  | getstatic => "getstatic"
  | putstatic => "putstatic"
  | getfield => "getfield"
  | putfield => "putfield"
  | invokevirtual => "invokevirtual"
  | invokespecial => "invokespecial"
  | invokestatic => "invokestatic"
  | invokeinterface => "invokeinterface"
  | new => "new"
  | newarray => "newarray"
  | anewarray => "anewarray"
  | arraylength => "arraylength"
  | athrow => "athrow"
  | checkcast => "checkcast"
  | instanceof => "instanceof"
  | wide => "wide"
  | multianewarray => "multianewarray"
  | ifnull => "ifnull"
  | ifnonnull => "ifnonnull"
  | other _ => "<unknown>"

def isBranch : Opcode → Bool
  | ifeq | ifne | iflt | ifge | ifgt | ifle | if_icmpeq | if_icmpne | if_icmplt | if_icmpge
  | if_icmpgt | if_icmple | if_acmpeq | if_acmpne | goto | ifnull | ifnonnull => true
  | _ => false

/-- The short forms of a load or store, for the first four slots. -/
def shortForms : Opcode → List Opcode
  | iload => [iload_0, iload_1, iload_2, iload_3]
  | lload => [lload_0, lload_1, lload_2, lload_3]
  | dload => [dload_0, dload_1, dload_2, dload_3]
  | aload => [aload_0, aload_1, aload_2, aload_3]
  | istore => [istore_0, istore_1, istore_2, istore_3]
  | lstore => [lstore_0, lstore_1, lstore_2, lstore_3]
  | dstore => [dstore_0, dstore_1, dstore_2, dstore_3]
  | astore => [astore_0, astore_1, astore_2, astore_3]
  | _ => []

def shortForm? (op : Opcode) (slot : Nat) : Option Opcode := op.shortForms[slot]?

/-- The slots that a load or store reaches from its first one on. -/
def localWidth : Opcode → Nat
  | lload | dload | lstore | dstore => 2
  | _ => 1

end Opcode

end JMinusMinus
