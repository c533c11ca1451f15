import SeaOfNodes.Kind
import SeaOfNodes.Operator

/-!
# Opcodes

The first byte of an instruction. A table gives each opcode its mnemonic, its length in bytes and
its form, which says what the instruction does up to its operands. Switches and the `wide` modifier
have no fixed length.
-/

namespace SeaOfNodes.Bytecode

/-- Rearrangements of the words on top of the operand stack. -/
inductive Shuffle
  | pop | pop2 | dup | dupX1 | dupX2 | dup2 | dup2X1 | dup2X2 | swap
deriving DecidableEq, Repr

/-- What a conditional branch compares. -/
inductive Operands
  /-- An int with zero. -/
  | zero
  /-- Two ints. -/
  | ints
  /-- Two references. -/
  | references
deriving DecidableEq, Repr

/-- What an instruction does, up to its operands. -/
inductive Form
  | nop
  | constant (kind : Kind) (value : Int64)
  | pushByte
  | pushShort
  /-- Push a pool entry, named by one byte or by two. -/
  | loadConstant (twoBytes : Bool)
  /-- Push a local, the given one or the operand. -/
  | load (kind : Kind) (slot : Option Nat)
  /-- Pop into a local, the given one or the operand. -/
  | store (kind : Kind) (slot : Option Nat)
  | arrayLoad (element : Kind)
  | arrayStore (element : Kind)
  | shuffle (s : Shuffle)
  | arith (op : ArithOp) (kind : Kind)
  | shift (op : ArithOp) (kind : Kind)
  | negate (kind : Kind)
  | increment
  | convert (source target : Kind)
  | compare (kind : Kind) (unorderedIsLess : Bool)
  | branch (operands : Operands) (condition : Condition)
  /-- Branch if a reference is null, or if it is not. -/
  | branchNull (ifNull : Bool)
  | jump (far : Bool)
  | call (far : Bool)
  | ret
  | tableSwitch
  | lookupSwitch
  | methodReturn (kind : Option Kind)
  | throw
  | getField (isStatic : Bool)
  | putField (isStatic : Bool)
  | invoke (receiver : Bool)
  | invokeDynamic
  | newInstance
  | checkCast
  | instanceOf
  | arrayLength
  | wide
  /-- Defined, but never lifted. -/
  | unsupported
deriving DecidableEq, Repr

namespace Form

/-- Two-way branches. -/
def isConditional : Form → Bool
  | .branch .. | .branchNull _ => true
  | _ => false

/-- Method returns. -/
def isReturn : Form → Bool
  | .methodReturn _ => true
  | _ => false

/-- Method calls. -/
def isInvoke : Form → Bool
  | .invoke _ | .invokeDynamic => true
  | _ => false

/-- Instructions that read a local variable. -/
def isLoad : Form → Bool
  | .load .. | .increment | .ret => true
  | _ => false

/-- Instructions that only write a local variable. -/
def isStore : Form → Bool
  | .store .. => true
  | _ => false

/-- Instructions that can raise an exception of their own, calls and throws apart. -/
def canTrap : Form → Bool
  | .arrayLoad _ | .arrayStore _ | .getField _ | .putField _ | .arrayLength | .newInstance
  | .checkCast => true
  | .arith op kind => op.canTrap && kind.isIntegral
  | _ => false

/-- Instructions that close their block whatever the exception table says, calls apart. -/
def isBlockEnd : Form → Bool
  | .branch .. | .branchNull _ | .jump _ | .call _ | .ret | .tableSwitch | .lookupSwitch
  | .methodReturn _ | .throw => true
  | _ => false

/-- Instructions after which the next one is never reached directly. -/
def endsControlFlow : Form → Bool
  | .jump _ | .ret | .tableSwitch | .lookupSwitch | .methodReturn _ | .throw => true
  | _ => false

/-- Instructions that the `wide` modifier can stand before. -/
def isWidenable : Form → Bool
  | .load _ none | .store _ none | .increment | .ret => true
  | _ => false

end Form

/-- A row of the instruction table. A length of zero is a variable one. -/
structure OpcodeInfo where
  mnemonic : String
  length : Nat
  form : Form

/-- The instruction table, by opcode. -/
def opcodeTable : Array OpcodeInfo :=
  #[⟨"NOP", 1, .nop⟩,
    ⟨"ACONST_NULL", 1, .constant .object 0⟩,
    ⟨"ICONST_M1", 1, .constant .int (-1)⟩,
    ⟨"ICONST_0", 1, .constant .int 0⟩,
    ⟨"ICONST_1", 1, .constant .int 1⟩,
    ⟨"ICONST_2", 1, .constant .int 2⟩,
    ⟨"ICONST_3", 1, .constant .int 3⟩,
    ⟨"ICONST_4", 1, .constant .int 4⟩,
    ⟨"ICONST_5", 1, .constant .int 5⟩,
    ⟨"LCONST_0", 1, .constant .long 0⟩,
    ⟨"LCONST_1", 1, .constant .long 1⟩,
    ⟨"FCONST_0", 1, .constant .float 0⟩,
    ⟨"FCONST_1", 1, .constant .float 0x3f800000⟩,
    ⟨"FCONST_2", 1, .constant .float 0x40000000⟩,
    ⟨"DCONST_0", 1, .constant .double 0⟩,
    ⟨"DCONST_1", 1, .constant .double 0x3ff0000000000000⟩,
    ⟨"BIPUSH", 2, .pushByte⟩,
    ⟨"SIPUSH", 3, .pushShort⟩,
    ⟨"LDC", 2, .loadConstant false⟩,
    ⟨"LDC_W", 3, .loadConstant true⟩,
    ⟨"LDC2_W", 3, .loadConstant true⟩,
    ⟨"ILOAD", 2, .load .int none⟩,
    ⟨"LLOAD", 2, .load .long none⟩,
    ⟨"FLOAD", 2, .load .float none⟩,
    ⟨"DLOAD", 2, .load .double none⟩,
    ⟨"ALOAD", 2, .load .object none⟩,
    ⟨"ILOAD_0", 1, .load .int (some 0)⟩,
    ⟨"ILOAD_1", 1, .load .int (some 1)⟩,
    ⟨"ILOAD_2", 1, .load .int (some 2)⟩,
    ⟨"ILOAD_3", 1, .load .int (some 3)⟩,
    ⟨"LLOAD_0", 1, .load .long (some 0)⟩,
    ⟨"LLOAD_1", 1, .load .long (some 1)⟩,
    ⟨"LLOAD_2", 1, .load .long (some 2)⟩,
    ⟨"LLOAD_3", 1, .load .long (some 3)⟩,
    ⟨"FLOAD_0", 1, .load .float (some 0)⟩,
    ⟨"FLOAD_1", 1, .load .float (some 1)⟩,
    ⟨"FLOAD_2", 1, .load .float (some 2)⟩,
    ⟨"FLOAD_3", 1, .load .float (some 3)⟩,
    ⟨"DLOAD_0", 1, .load .double (some 0)⟩,
    ⟨"DLOAD_1", 1, .load .double (some 1)⟩,
    ⟨"DLOAD_2", 1, .load .double (some 2)⟩,
    ⟨"DLOAD_3", 1, .load .double (some 3)⟩,
    ⟨"ALOAD_0", 1, .load .object (some 0)⟩,
    ⟨"ALOAD_1", 1, .load .object (some 1)⟩,
    ⟨"ALOAD_2", 1, .load .object (some 2)⟩,
    ⟨"ALOAD_3", 1, .load .object (some 3)⟩,
    ⟨"IALOAD", 1, .arrayLoad .int⟩,
    ⟨"LALOAD", 1, .arrayLoad .long⟩,
    ⟨"FALOAD", 1, .arrayLoad .float⟩,
    ⟨"DALOAD", 1, .arrayLoad .double⟩,
    ⟨"AALOAD", 1, .arrayLoad .object⟩,
    ⟨"BALOAD", 1, .arrayLoad .byte⟩,
    ⟨"CALOAD", 1, .arrayLoad .char⟩,
    ⟨"SALOAD", 1, .arrayLoad .short⟩,
    ⟨"ISTORE", 2, .store .int none⟩,
    ⟨"LSTORE", 2, .store .long none⟩,
    ⟨"FSTORE", 2, .store .float none⟩,
    ⟨"DSTORE", 2, .store .double none⟩,
    ⟨"ASTORE", 2, .store .object none⟩,
    ⟨"ISTORE_0", 1, .store .int (some 0)⟩,
    ⟨"ISTORE_1", 1, .store .int (some 1)⟩,
    ⟨"ISTORE_2", 1, .store .int (some 2)⟩,
    ⟨"ISTORE_3", 1, .store .int (some 3)⟩,
    ⟨"LSTORE_0", 1, .store .long (some 0)⟩,
    ⟨"LSTORE_1", 1, .store .long (some 1)⟩,
    ⟨"LSTORE_2", 1, .store .long (some 2)⟩,
    ⟨"LSTORE_3", 1, .store .long (some 3)⟩,
    ⟨"FSTORE_0", 1, .store .float (some 0)⟩,
    ⟨"FSTORE_1", 1, .store .float (some 1)⟩,
    ⟨"FSTORE_2", 1, .store .float (some 2)⟩,
    ⟨"FSTORE_3", 1, .store .float (some 3)⟩,
    ⟨"DSTORE_0", 1, .store .double (some 0)⟩,
    ⟨"DSTORE_1", 1, .store .double (some 1)⟩,
    ⟨"DSTORE_2", 1, .store .double (some 2)⟩,
    ⟨"DSTORE_3", 1, .store .double (some 3)⟩,
    ⟨"ASTORE_0", 1, .store .object (some 0)⟩,
    ⟨"ASTORE_1", 1, .store .object (some 1)⟩,
    ⟨"ASTORE_2", 1, .store .object (some 2)⟩,
    ⟨"ASTORE_3", 1, .store .object (some 3)⟩,
    ⟨"IASTORE", 1, .arrayStore .int⟩,
    ⟨"LASTORE", 1, .arrayStore .long⟩,
    ⟨"FASTORE", 1, .arrayStore .float⟩,
    ⟨"DASTORE", 1, .arrayStore .double⟩,
    ⟨"AASTORE", 1, .arrayStore .object⟩,
    ⟨"BASTORE", 1, .arrayStore .byte⟩,
    ⟨"CASTORE", 1, .arrayStore .char⟩,
    ⟨"SASTORE", 1, .arrayStore .short⟩,
    ⟨"POP", 1, .shuffle .pop⟩,
    ⟨"POP2", 1, .shuffle .pop2⟩,
    ⟨"DUP", 1, .shuffle .dup⟩,
    ⟨"DUP_X1", 1, .shuffle .dupX1⟩,
    ⟨"DUP_X2", 1, .shuffle .dupX2⟩,
    ⟨"DUP2", 1, .shuffle .dup2⟩,
    ⟨"DUP2_X1", 1, .shuffle .dup2X1⟩,
    ⟨"DUP2_X2", 1, .shuffle .dup2X2⟩,
    ⟨"SWAP", 1, .shuffle .swap⟩,
    ⟨"IADD", 1, .arith .add .int⟩,
    ⟨"LADD", 1, .arith .add .long⟩,
    ⟨"FADD", 1, .arith .add .float⟩,
    ⟨"DADD", 1, .arith .add .double⟩,
    ⟨"ISUB", 1, .arith .sub .int⟩,
    ⟨"LSUB", 1, .arith .sub .long⟩,
    ⟨"FSUB", 1, .arith .sub .float⟩,
    ⟨"DSUB", 1, .arith .sub .double⟩,
    ⟨"IMUL", 1, .arith .mul .int⟩,
    ⟨"LMUL", 1, .arith .mul .long⟩,
    ⟨"FMUL", 1, .arith .mul .float⟩,
    ⟨"DMUL", 1, .arith .mul .double⟩,
    ⟨"IDIV", 1, .arith .div .int⟩,
    ⟨"LDIV", 1, .arith .div .long⟩,
    ⟨"FDIV", 1, .arith .div .float⟩,
    ⟨"DDIV", 1, .arith .div .double⟩,
    ⟨"IREM", 1, .arith .rem .int⟩,
    ⟨"LREM", 1, .arith .rem .long⟩,
    ⟨"FREM", 1, .arith .rem .float⟩,
    ⟨"DREM", 1, .arith .rem .double⟩,
    ⟨"INEG", 1, .negate .int⟩,
    ⟨"LNEG", 1, .negate .long⟩,
    ⟨"FNEG", 1, .negate .float⟩,
    ⟨"DNEG", 1, .negate .double⟩,
    ⟨"ISHL", 1, .shift .shl .int⟩,
    ⟨"LSHL", 1, .shift .shl .long⟩,
    ⟨"ISHR", 1, .shift .shr .int⟩,
    ⟨"LSHR", 1, .shift .shr .long⟩,
    ⟨"IUSHR", 1, .shift .ushr .int⟩,
    ⟨"LUSHR", 1, .shift .ushr .long⟩,
    ⟨"IAND", 1, .arith .and .int⟩,
    ⟨"LAND", 1, .arith .and .long⟩,
    ⟨"IOR", 1, .arith .or .int⟩,
    ⟨"LOR", 1, .arith .or .long⟩,
    ⟨"IXOR", 1, .arith .xor .int⟩,
    ⟨"LXOR", 1, .arith .xor .long⟩,
    ⟨"IINC", 3, .increment⟩,
    ⟨"I2L", 1, .convert .int .long⟩,
    ⟨"I2F", 1, .convert .int .float⟩,
    ⟨"I2D", 1, .convert .int .double⟩,
    ⟨"L2I", 1, .convert .long .int⟩,
    ⟨"L2F", 1, .convert .long .float⟩,
    ⟨"L2D", 1, .convert .long .double⟩,
    ⟨"F2I", 1, .convert .float .int⟩,
    ⟨"F2L", 1, .convert .float .long⟩,
    ⟨"F2D", 1, .convert .float .double⟩,
    ⟨"D2I", 1, .convert .double .int⟩,
    ⟨"D2L", 1, .convert .double .long⟩,
    ⟨"D2F", 1, .convert .double .float⟩,
    ⟨"I2B", 1, .convert .int .byte⟩,
    ⟨"I2C", 1, .convert .int .char⟩,
    ⟨"I2S", 1, .convert .int .short⟩,
    ⟨"LCMP", 1, .compare .long false⟩,
    ⟨"FCMPL", 1, .compare .float true⟩,
    ⟨"FCMPG", 1, .compare .float false⟩,
    ⟨"DCMPL", 1, .compare .double true⟩,
    ⟨"DCMPG", 1, .compare .double false⟩,
    ⟨"IFEQ", 3, .branch .zero .eq⟩,
    ⟨"IFNE", 3, .branch .zero .ne⟩,
    ⟨"IFLT", 3, .branch .zero .lt⟩,
    ⟨"IFGE", 3, .branch .zero .ge⟩,
    ⟨"IFGT", 3, .branch .zero .gt⟩,
    ⟨"IFLE", 3, .branch .zero .le⟩,
    ⟨"IF_ICMPEQ", 3, .branch .ints .eq⟩,
    ⟨"IF_ICMPNE", 3, .branch .ints .ne⟩,
    ⟨"IF_ICMPLT", 3, .branch .ints .lt⟩,
    ⟨"IF_ICMPGE", 3, .branch .ints .ge⟩,
    ⟨"IF_ICMPGT", 3, .branch .ints .gt⟩,
    ⟨"IF_ICMPLE", 3, .branch .ints .le⟩,
    ⟨"IF_ACMPEQ", 3, .branch .references .eq⟩,
    ⟨"IF_ACMPNE", 3, .branch .references .ne⟩,
    ⟨"GOTO", 3, .jump false⟩,
    ⟨"JSR", 3, .call false⟩,
    ⟨"RET", 2, .ret⟩,
    ⟨"TABLESWITCH", 0, .tableSwitch⟩,
    ⟨"LOOKUPSWITCH", 0, .lookupSwitch⟩,
    ⟨"IRETURN", 1, .methodReturn (some .int)⟩,
    ⟨"LRETURN", 1, .methodReturn (some .long)⟩,
    ⟨"FRETURN", 1, .methodReturn (some .float)⟩,
    ⟨"DRETURN", 1, .methodReturn (some .double)⟩,
    ⟨"ARETURN", 1, .methodReturn (some .object)⟩,
    ⟨"RETURN", 1, .methodReturn none⟩,
    ⟨"GETSTATIC", 3, .getField true⟩,
    ⟨"PUTSTATIC", 3, .putField true⟩,
    ⟨"GETFIELD", 3, .getField false⟩,
    ⟨"PUTFIELD", 3, .putField false⟩,
    ⟨"INVOKEVIRTUAL", 3, .invoke true⟩,
    ⟨"INVOKESPECIAL", 3, .invoke true⟩,
    ⟨"INVOKESTATIC", 3, .invoke false⟩,
    ⟨"INVOKEINTERFACE", 5, .invoke true⟩,
    ⟨"INVOKEDYNAMIC", 5, .invokeDynamic⟩,
    ⟨"NEW", 3, .newInstance⟩,
    ⟨"NEWARRAY", 2, .unsupported⟩,
    ⟨"ANEWARRAY", 3, .unsupported⟩,
    ⟨"ARRAYLENGTH", 1, .arrayLength⟩,
    ⟨"ATHROW", 1, .throw⟩,
    ⟨"CHECKCAST", 3, .checkCast⟩,
    ⟨"INSTANCEOF", 3, .instanceOf⟩,
    ⟨"MONITORENTER", 1, .unsupported⟩,
    ⟨"MONITOREXIT", 1, .unsupported⟩,
    ⟨"WIDE", 0, .wide⟩,
    ⟨"MULTIANEWARRAY", 4, .unsupported⟩,
    ⟨"IFNULL", 3, .branchNull true⟩,
    ⟨"IFNONNULL", 3, .branchNull false⟩,
    ⟨"GOTO_W", 5, .jump true⟩,
    ⟨"JSR_W", 5, .call true⟩]

/-- The row of an opcode, if it is defined. -/
def opcodeInfo? (opcode : UInt8) : Option OpcodeInfo := opcodeTable[opcode.toNat]?

/-- The form of an opcode, if it is defined. -/
def form? (opcode : UInt8) : Option Form := (opcodeInfo? opcode).map (·.form)

/-- The mnemonic of an opcode. -/
def mnemonic (opcode : UInt8) : String := ((opcodeInfo? opcode).map (·.mnemonic)).getD "<illegal>"

/-- Whether an opcode is defined and its form satisfies `p`. -/
def opcodeHas (p : Form → Bool) (opcode : UInt8) : Bool := (form? opcode).any p

/-- The names of the groups that an opcode belongs to. -/
def opcodeGroups (opcode : UInt8) : List String :=
  let groups : List (String × (Form → Bool)) :=
    [("defined", fun _ => true), ("block_end", (·.isBlockEnd)), ("conditional", (·.isConditional)),
      ("trap", (·.canTrap)), ("load", (·.isLoad)), ("store", (·.isStore)),
      ("invoke", (·.isInvoke)), ("return", (·.isReturn))]
  (groups.filter fun (_, p) => opcodeHas p opcode).map (·.1)

end SeaOfNodes.Bytecode
