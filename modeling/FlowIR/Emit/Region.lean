import FlowIR.Emit.Return

/-!
Regions in which exceptions are caught, and cleanups that run however a region is left.

A cleanup has a flag. Every way into it first writes there why it came, and the end of the cleanup
is one switch on the flag:

```text
  body ──▶ finok ──(proceed)──▶ finally ──▶ cont     proceed
    │                             ▲    ├──▶ finres   reraise
    ▼                             │    ├──▶ finret   ret
   pad ──▶ catch ──▶ finok        │    └──▶ finbad
             │                    │
             ▼                    │
         catchpad ──(reraise)─────┘
```
-/

namespace FlowIR.Emit

/-- The type of what a landing pad produces, as it is kept in memory. -/
def tokenTy : Ty := .struct [.ptr .void, .i32]

/-- The start of a block that exceptions arrive at. -/
def landingPad (kind : PadKind) : EmitM Operand :=
  named "ex" (.landingPad kind) .token

/-- A landing pad that catches everything and goes on to a block. -/
def catchInto (pad target : BlockId) : EmitM Unit := do
  startBlock pad
  let _ ← landingPad .catchAll
  let _ ← perform (.br target)

/-- A landing pad that keeps the exception and enters a cleanup. -/
def cleanUpRaised (pad : BlockId) (kept flag : Operand) (block : BlockId) : EmitM Unit := do
  startBlock pad
  let token ← landingPad .cleanup
  let _ ← perform (.store token kept)
  enterCleanup .reraise flag block

/-- Lets a kept exception go on: out of the function, or to the landing pad that encloses this
point. -/
def reraise (kept : Operand) : EmitM Unit := do
  match (← get).pads.head? with
  | none =>
    let token ← named "exn" (.load kept) .token
    let _ ← perform (.resume token)
  | some pad =>
    let ptr ← named "field" (.fieldAddr kept 0) (.ptr .bytePtr)
    let exception ← named "exn" (.load ptr) .bytePtr
    let after ← Build.newBlock "cont"
    let _ ← perform (.invoke (← builder).options.rethrow [exception] after pad)
    startBlock after
    let _ ← perform .unreachable

/-- The end of a cleanup: goes on with what it was entered for. -/
def dispatch (flag kept : Operand) (cont : BlockId) (returns : Bool) : EmitM Unit := do
  let state ← named "finvar.ld" (.load flag) .i8
  let reraiseBlock ← Build.newBlock "finres"
  let returnBlock ← if returns then some <$> Build.newBlock "finret" else pure none
  let badBlock ← Build.newBlock "finbad"
  let returnCase := returnBlock.toList.map fun b => (Reason.ret.code, b)
  let cases := [(Reason.reraise.code, reraiseBlock), (Reason.proceed.code, cont)] ++ returnCase
  let _ ← perform (.switch state badBlock cases)
  startBlock reraiseBlock
  reraise kept
  if let some block := returnBlock then
    startBlock block
    returnKept
  startBlock badBlock
  let _ ← perform .unreachable

def tryCatch (body handler : EmitM Unit) : EmitM Unit := do
  let pad ← Build.newBlock "pad"
  let handlerBlock ← Build.newBlock "catch"
  let cont ← Build.newBlock "cont"
  withPad pad body
  branchTo cont
  catchInto pad handlerBlock
  startBlock handlerBlock
  handler
  branchTo cont
  startBlock cont

/-- The blocks of a handler inside a region with a cleanup. An exception in the handler must not
arrive at the handler again, so it has a landing pad of its own. -/
structure HandlerBlocks where
  handler : BlockId
  pad : BlockId

/-- The part of a region from which its cleanup is entered: the body, and the handler if there is
one. -/
def guarded (body : EmitM Unit) (handler : Option (EmitM Unit × HandlerBlocks))
    (pad finok cleanup : BlockId) (flag kept : Operand) : EmitM Unit := do
  withPad pad body
  branchTo finok
  match handler with
  | some (code, blocks) =>
    catchInto pad blocks.handler
    startBlock blocks.handler
    withPad blocks.pad code
    branchTo finok
    cleanUpRaised blocks.pad kept flag cleanup
  | none => cleanUpRaised pad kept flag cleanup

/-- A body and perhaps a handler, with a cleanup that runs however they are left. -/
def tryFinally (body : EmitM Unit) (handler : Option (EmitM Unit)) (cleanup : EmitM Unit) :
    EmitM Unit := do
  let flag ← Build.newTemporary .i8 "finvar"
  let kept ← Build.newTemporary tokenTy "ehtmp"
  let pad ← Build.newBlock "pad"
  let handler ← match handler with
    | some code =>
      let handlerBlock ← Build.newBlock "catch"
      let handlerPad ← Build.newBlock "catchpad"
      pure (some (code, ⟨handlerBlock, handlerPad⟩))
    | none => pure none
  let finok ← Build.newBlock "finok"
  let cleanupBlock ← Build.newBlock "finally"
  let cont ← Build.newBlock "cont"
  let returns ← withCleanup cleanupBlock flag
    (guarded body handler pad finok cleanupBlock flag kept)
  startBlock finok
  enterCleanup .proceed flag cleanupBlock
  startBlock cleanupBlock
  cleanup
  unless ← isTerminated do
    dispatch flag kept cont returns
  startBlock cont

/-- A region with any of the two clauses; with neither it is its body. -/
def region (body : EmitM Unit) (handler cleanup : Option (EmitM Unit)) : EmitM Unit :=
  match handler, cleanup with
  | none, none => body
  | some handler, none => tryCatch body handler
  | handler, some cleanup => tryFinally body handler cleanup

/-- Calls an epilogue; whenever it raises, runs the check and calls it again. -/
def deferred (epilogue : Expr) (check : EmitM Unit) (span : Span) : EmitM Unit := do
  if epilogue.isError then
    Build.markError
    return
  if !epilogue.isCall then
    fail span (.invalidExpression .deferred)
  let pad ← Build.newBlock "pad"
  let checkBlock ← Build.newBlock "catch"
  let finish ← Build.newBlock "finish"
  branchTo finish
  catchInto pad checkBlock
  startBlock checkBlock
  check
  branchTo finish
  startBlock finish
  let _ ← withPad pad (expr epilogue)

end FlowIR.Emit
