import FlowIR.Emit.Region
import FlowIR.Emit.Switch
import FlowIR.Syntax.Stmt

/-!
Code of statements.
-/

namespace FlowIR.Emit

def initVar (span : Span) (v : VarId) (value : Option Expr) : EmitM Unit := do
  let some x := (← builder).var? v | fail span (.unknownVariable v)
  match value with
  | none =>
    let store ← perform (.store (.const (.zero x.ty.shape)) x.slot)
    Build.updateVar v ({ · with initializer := some store })
  | some value =>
    let some operand ← expr value | return
    let store ← storeValue x.slot operand x.ty
    Build.updateVar v ({ · with initializer := some store })

/-- Assigns to storage. The place is evaluated before the value. -/
def assign (target value : Expr) : EmitM Unit := do
  let some dst ← place target | return
  let some v ← expr value | return
  let _ ← storeValue dst v target.ty

/-- A branch. Both arms and what follows them get blocks, also where an arm does not come to its
end. -/
def branch (cond : Expr) (yes no : EmitM Unit) : EmitM Unit := do
  let some c ← condition cond (expr cond) | return
  let yesBlock ← Build.newBlock "then"
  let noBlock ← Build.newBlock "else"
  let join ← Build.newBlock "fallthrough"
  let _ ← perform (.condBr c yesBlock noBlock)
  startBlock yesBlock
  yes
  branchTo join
  startBlock noBlock
  no
  branchTo join
  startBlock join

def jumpTo (addr : Expr) : EmitM Unit := do
  let some a ← expr addr | return
  let i ← perform (.indirectBr a [])
  (modify fun b => { b with labels := b.labels.recordBranch i } : BuildM Unit)

def placeLabel (l : LabelId) (span : Span) : EmitM Unit := do
  let block ← Build.defineLabel l span
  branchTo block
  moveTo block

mutual
def stmt : Stmt → EmitM Unit
  | .eval value => do let _ ← expr value
  | .init span v value => initVar span v value
  | .assign target value => assign target value
  | .ret span values => returnValues values span
  | .block body => stmts body
  | .ite cond yes no => branch cond (stmt yes) (stmt no)
  | .switch span value cases => do
    let some v ← expr value | return
    let table ← caseTable span (cases.map Prod.fst)
    let exit ← Build.newBlock "swexit"
    let _ ← perform (.switch v (table.default.getD exit) table.values)
    withExit exit (caseBodies table.blocks exit cases)
    startBlock exit
  | .leave span => do
    match (← get).exits.head? with
    | some exit => let _ ← perform (.br exit)
    | none => fail span .breakOutsideSwitch
  | .goto span l => do
    let block ← Build.labelBlock l span
    let _ ← perform (.br block)
  | .label span l => placeLabel l span
  | .gotoAddress addr => jumpTo addr
  | .attempt body handler cleanup =>
    match handler, cleanup with
    | none, none => region (stmt body) none none
    | some h, none => region (stmt body) (some (stmt h)) none
    | none, some c => region (stmt body) none (some (stmt c))
    | some h, some c => region (stmt body) (some (stmt h)) (some (stmt c))
  | .defer span epilogue check => deferred epilogue (stmt check) span
  | .error => Build.markError

def stmts : List Stmt → EmitM Unit
  | [] => return ()
  | s :: ss => do
    stmt s
    stmts ss

/-- The code of the cases of a switch, each in its block. A case that comes to its end goes on in
the next one, and the last in `exit`. -/
def caseBodies (blocks : List BlockId) (exit : BlockId) : List (List Expr × Stmt) → EmitM Unit
  | [] => return ()
  | (_, body) :: cases => do
    startBlock (blocks.head?.getD exit)
    stmt body
    branchTo (blocks.tail.head?.getD exit)
    caseBodies blocks.tail exit cases
end

end FlowIR.Emit
