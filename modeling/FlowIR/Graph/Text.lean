import FlowIR.Decimal.Text
import FlowIR.Graph.Basic
import FlowIR.Shape.Text

/-!
The text of a graph, in the manner of an assembly listing: a header line, then every laid-out block
under its label.
-/

namespace FlowIR

def Constant.text : Constant → String
  | .int _ value => Int.repr value
  | .float _ bits => Decimal.floatText bits
  | .null _ => "null"
  | .zero _ => "zeroinitializer"
  | .undef _ => "undef"

def ArgAttr.text : ArgAttr → String
  | .sret => "sret"
  | .nest => "nest"
  | .byval => "byval"
  | .signext => "signext"
  | .zeroext => "zeroext"

def ArithOp.text : ArithOp → String
  | .add => "add"
  | .sub => "sub"
  | .mul => "mul"
  | .sdiv => "sdiv"
  | .udiv => "udiv"
  | .srem => "srem"
  | .urem => "urem"
  | .and => "and"
  | .or => "or"
  | .xor => "xor"
  | .fadd => "fadd"
  | .fsub => "fsub"
  | .fmul => "fmul"
  | .fdiv => "fdiv"

def Pred.text : Pred → String
  | .eq => "icmp eq"
  | .ne => "icmp ne"
  | .slt => "icmp slt"
  | .sle => "icmp sle"
  | .sgt => "icmp sgt"
  | .sge => "icmp sge"
  | .ult => "icmp ult"
  | .ule => "icmp ule"
  | .ugt => "icmp ugt"
  | .uge => "icmp uge"
  | .oeq => "fcmp oeq"
  | .one => "fcmp one"
  | .olt => "fcmp olt"
  | .ole => "fcmp ole"
  | .ogt => "fcmp ogt"
  | .oge => "fcmp oge"

def CastOp.text : CastOp → String
  | .bitcast => "bitcast"
  | .zext => "zext"
  | .sext => "sext"
  | .trunc => "trunc"

namespace Graph

/-- The text of an operand, without its shape. Arguments and results without a name are
numbered. -/
def operandText (g : Graph) : Operand → Checked String
  | .arg n => do
    match (← g.arg n).name with
    | some name => return "%" ++ name
    | none => return "%arg" ++ Nat.repr n
  | .result i => do
    match (← g.instr i).name with
    | some name => return "%" ++ name
    | none => return "%t" ++ Nat.repr i.index
  | .const c => return c.text
  | .blockAddr b => return "blockaddress(@" ++ g.name ++ ", %" ++ (← g.block b).name ++ ")"
  | .placeholder p => return "placeholder#" ++ Nat.repr p.index

def typedText (g : Graph) (v : Operand) : Checked String := do
  return (← g.shapeOf v).text ++ " " ++ (← g.operandText v)

def labelText (g : Graph) (b : BlockId) : Checked String := do
  return "label %" ++ (← g.block b).name

/-- The text of several operands behind their shapes. -/
def argsText (g : Graph) (args : List Operand) : Checked String := do
  return ", ".intercalate (← args.mapM g.typedText)

/-- The text of an operation on two operands of one shape. -/
def pairText (g : Graph) (op : String) (lhs rhs : Operand) : Checked String := do
  return op ++ " " ++ (← g.typedText lhs) ++ ", " ++ (← g.operandText rhs)

/-- The text of what an instruction does, `shape` being the shape of its result. -/
def opText (g : Graph) (shape : Shape) : Op → Checked String
  | .alloca slot => return "alloca " ++ slot.text
  | .load ptr => return "load " ++ shape.text ++ ", " ++ (← g.typedText ptr)
  | .store value ptr => return "store " ++ (← g.typedText value) ++ ", " ++ (← g.typedText ptr)
  | .cast op value dst => return op.text ++ " " ++ (← g.typedText value) ++ " to " ++ dst.text
  | .fieldAddr base index => do
    let target := (← g.shapeOf base).target?.getD .void
    return "getelementptr inbounds " ++ target.text ++ ", " ++ (← g.typedText base) ++
      ", i32 0, i32 " ++ Nat.repr index
  | .memcpy dst src size align =>
    return "memcpy " ++ (← g.typedText dst) ++ ", " ++ (← g.typedText src) ++ ", i64 " ++
      Nat.repr size ++ ", align " ++ Nat.repr align
  | .arith op lhs rhs => g.pairText op.text lhs rhs
  | .compare pred lhs rhs => g.pairText pred.text lhs rhs
  | .call callee args =>
    return "call " ++ shape.text ++ " @" ++ callee ++ "(" ++ (← g.argsText args) ++ ")"
  | .landingPad .catchAll => return "landingpad " ++ shape.text ++ " catch i8* null"
  | .landingPad .cleanup => return "landingpad " ++ shape.text ++ " cleanup"
  | .br target => return "br " ++ (← g.labelText target)
  | .condBr cond yes no =>
    return "br " ++ (← g.typedText cond) ++ ", " ++ (← g.labelText yes) ++ ", " ++
      (← g.labelText no)
  | .switch value default cases => do
    let shape := (← g.shapeOf value).text
    let arms ← cases.mapM fun (v, b) =>
      return shape ++ " " ++ Int.repr v ++ ", " ++ (← g.labelText b)
    return "switch " ++ (← g.typedText value) ++ ", " ++ (← g.labelText default) ++ " [ " ++
      " ".intercalate arms ++ " ]"
  | .indirectBr addr dests =>
    return "indirectbr " ++ (← g.typedText addr) ++ ", [" ++
      ", ".intercalate (← dests.mapM g.labelText) ++ "]"
  | .invoke callee args normal unwind =>
    return "invoke " ++ shape.text ++ " @" ++ callee ++ "(" ++ (← g.argsText args) ++ ") to " ++
      (← g.labelText normal) ++ " unwind " ++ (← g.labelText unwind)
  | .ret (some value) => return "ret " ++ (← g.typedText value)
  | .ret none => return "ret void"
  | .resume token => return "resume " ++ (← g.typedText token)
  | .unreachable => return "unreachable"

/-- Whether the text of an instruction names its result. -/
def showsResult (instr : Instr) : Bool :=
  match instr.op with
  | .store _ _ => false
  | _ => !instr.shape.isVoid

def instrText (g : Graph) (i : InstrId) : Checked String := do
  let instr ← g.instr i
  let body ← g.opText instr.shape instr.op
  if showsResult instr then
    return (← g.operandText (.result i)) ++ " = " ++ body
  else
    return body

/-- The text of a block: its label, then a line for each instruction. -/
def blockText (g : Graph) (b : BlockId) : Checked String := do
  let block ← g.block b
  let lines ← block.body.mapM fun i => return "  " ++ (← g.instrText i) ++ "\n"
  return block.name ++ ":\n" ++ String.join lines

def argText (g : Graph) (n : Nat) : Checked String := do
  let a ← g.arg n
  return a.shape.text ++ String.join (a.attrs.map fun attr => " " ++ attr.text) ++ " " ++
    (← g.operandText (.arg n))

def text (g : Graph) : Checked String := do
  let args ← (List.range g.args.size).mapM g.argText
  let personality := match g.personality with
    | some routine => " personality @" ++ routine
    | none => ""
  let blocks ← g.layout.mapM g.blockText
  return "define " ++ g.ret.text ++ " @" ++ g.name ++ "(" ++ ", ".intercalate args ++ ")" ++
    personality ++ " \x7b\n" ++ "\n".intercalate blocks ++ "\x7d\n"

end Graph

end FlowIR
