import FlowIR.Build.Finish

/-!
Graphs without names.

`Graph.unnamed` forgets what the arguments, the blocks and the instructions of a graph are called, and
nothing else. Every operation on graphs commutes with it: names are written and never looked at. Only the
texts of errors mention the names of blocks, and `VerifyError.unnamed` forgets them there.
-/

namespace FlowIR

def Arg.unnamed (a : Arg) : Arg := { a with name := none }

def Block.unnamed (x : Block) : Block := { x with name := "" }

def Instr.unnamed (i : Instr) : Instr := { i with name := none }

/-- The graph without the names of its arguments, blocks and instructions. -/
def Graph.unnamed (g : Graph) : Graph :=
  { g with
    args := g.args.map Arg.unnamed
    blocks := g.blocks.map Block.unnamed
    instrs := g.instrs.map Instr.unnamed }

def VerifyError.unnamed : VerifyError → VerifyError
  | .noBlocks function => .noBlocks function
  | .missingTerminator function _ => .missingTerminator function ""
  | .terminatorNotLast function _ => .terminatorNotLast function ""
  | .danglingSuccessor function _ _ => .danglingSuccessor function "" ""
  | .unresolvedPlaceholder function _ => .unresolvedPlaceholder function ""

def Halt.map {ε δ : Type} (f : ε → δ) : Halt ε → Halt δ
  | .fault x => .fault x
  | .error e => .error (f e)

namespace Graph

variable {g : Graph} {x : BlockId} {i : InstrId} {α : Type}

/-! ### Looking at a graph -/

theorem block_unnamed (g : Graph) (x : BlockId) : g.unnamed.block x = (g.block x).map Block.unnamed := by
  simp only [block, unnamed, Array.getElem?_map]
  cases g.blocks[x.index]? <;> rfl

theorem instr_unnamed (g : Graph) (i : InstrId) : g.unnamed.instr i = (g.instr i).map Instr.unnamed := by
  simp only [instr, unnamed, Array.getElem?_map]
  cases g.instrs[i.index]? <;> rfl

theorem arg_unnamed (g : Graph) (n : Nat) : g.unnamed.arg n = (g.arg n).map Arg.unnamed := by
  simp only [arg, unnamed, Array.getElem?_map]
  cases g.args[n]? <;> rfl

/-- What is asked of an instruction without its name is asked of the instruction. -/
theorem instr_bind_unnamed (g : Graph) (i : InstrId) (f : Instr → Checked α) :
    (g.unnamed.instr i >>= f) = g.instr i >>= fun instr => f instr.unnamed := by
  rw [instr_unnamed]
  cases g.instr i <;> rfl

theorem block_bind_unnamed (g : Graph) (x : BlockId) (f : Block → Checked α) :
    (g.unnamed.block x >>= f) = g.block x >>= fun b => f b.unnamed := by
  rw [block_unnamed]
  cases g.block x <;> rfl

theorem terminator_unnamed (g : Graph) (x : BlockId) : g.unnamed.terminator x = g.terminator x := by
  simp only [terminator, block_bind_unnamed, instr_bind_unnamed]
  rfl

theorem isTerminated_unnamed (g : Graph) (x : BlockId) : g.unnamed.isTerminated x = g.isTerminated x := by
  simp only [isTerminated, terminator_unnamed]

theorem successors_unnamed (g : Graph) (x : BlockId) : g.unnamed.successors x = g.successors x := by
  simp only [successors, terminator_unnamed, instr_bind_unnamed]
  rfl

theorem addressTaken_unnamed (g : Graph) : g.unnamed.addressTaken = g.addressTaken := by
  simp only [addressTaken, block_bind_unnamed]
  rfl

theorem shapeOf_unnamed (g : Graph) (v : Operand) : g.unnamed.shapeOf v = g.shapeOf v := by
  cases v with
  | result i => exact instr_bind_unnamed g i _
  | arg n =>
    simp only [shapeOf, arg_unnamed]
    cases g.arg n <;> rfl
  | _ => rfl

theorem endsBlock_unnamed (g : Graph) (i : InstrId) : g.unnamed.endsBlock i = g.endsBlock i :=
  instr_bind_unnamed g i _

theorem usesPlaceholder_unnamed (g : Graph) (i : InstrId) : g.unnamed.usesPlaceholder i = g.usesPlaceholder i :=
  instr_bind_unnamed g i _

theorem endsEarly_unnamed (g : Graph) (body : List InstrId) : g.unnamed.endsEarly body = g.endsEarly body :=
  congrArg body.dropLast.anyM (funext (endsBlock_unnamed g))

theorem anyPlaceholder_unnamed (g : Graph) (body : List InstrId) :
    g.unnamed.anyPlaceholder body = g.anyPlaceholder body :=
  congrArg body.anyM (funext (usesPlaceholder_unnamed g))

theorem hasLandingPad_unnamed (g : Graph) : Build.hasLandingPad g.unnamed = Build.hasLandingPad g := by
  simp only [Build.hasLandingPad, block_bind_unnamed, instr_bind_unnamed]
  rfl

/-! ### Changing a graph -/

theorem newBlock_unnamed (g : Graph) (name : String) : (g.newBlock name).2.unnamed = (g.unnamed.newBlock "").2 := by
  simp [newBlock, unnamed, Block.unnamed]

theorem attach_unnamed (g : Graph) (x : BlockId) : (g.attach x).unnamed = g.unnamed.attach x := by
  unfold attach
  split
  · next laid => rw [if_pos (show x ∈ g.unnamed.layout from laid)]
  · next new => rw [if_neg (show x ∉ g.unnamed.layout from new)]; rfl

theorem newInstr_unnamed (g : Graph) (instr : Instr) :
    (g.newInstr instr).2.unnamed = (g.unnamed.newInstr instr.unnamed).2 := by
  simp [newInstr, unnamed]

/-- A change at one place is a change at that place of what is left without names. -/
theorem map_modify {forget f f' : α → α} (same : ∀ a, forget (f a) = f' (forget a))
    (xs : Array α) (k : Nat) : (xs.modify k f).map forget = (xs.map forget).modify k f' := by
  refine Array.ext (by simp) fun j below _ => ?_
  rw [Array.size_map, Array.size_modify] at below
  simp only [Array.getElem_map, Array.getElem_modify]
  split
  · exact same _
  · rfl

theorem updateBlock_unnamed {f f' : Block → Block} (same : ∀ b, (f b).unnamed = f' b.unnamed)
    (g : Graph) (x : BlockId) : (g.updateBlock x f).map unnamed = g.unnamed.updateBlock x f' := by
  unfold updateBlock
  simp only [unnamed, Array.size_map]
  split
  · simp only [Except.map, unnamed, map_modify same]
  · rfl

theorem append_unnamed (g : Graph) (x : BlockId) (i : InstrId) :
    (g.append x i).map unnamed = g.unnamed.append x i := by
  unfold append
  refine updateBlock_unnamed (fun _ => ?_) g x
  rfl

theorem insertFront_unnamed (g : Graph) (x : BlockId) (is : List InstrId) :
    (g.insertFront x is).map unnamed = g.unnamed.insertFront x is := by
  unfold insertFront
  refine updateBlock_unnamed (fun _ => ?_) g x
  rfl

theorem updateInstr_unnamed {f f' : Instr → Instr} (same : ∀ i, (f i).unnamed = f' i.unnamed)
    (g : Graph) (i : InstrId) : (g.updateInstr i f).map unnamed = g.unnamed.updateInstr i f' := by
  unfold updateInstr
  simp only [unnamed, Array.size_map]
  split
  · simp only [Except.map, unnamed, map_modify same]
  · rfl

theorem updateArg_unnamed {f f' : Arg → Arg} (same : ∀ a, (f a).unnamed = f' a.unnamed) (g : Graph)
    (n : Nat) : (g.updateArg n f).map unnamed = g.unnamed.updateArg n f' := by
  unfold updateArg
  simp only [unnamed, Array.size_map]
  split
  · simp only [Except.map, unnamed, map_modify same]
  · rfl

/-- Without names it does not matter what an argument is called. -/
theorem nameArg_unnamed (g : Graph) (n : Nat) (name : String) :
    (g.nameArg n name).map unnamed = g.unnamed.updateArg n id := by
  unfold nameArg
  refine updateArg_unnamed (fun _ => ?_) g n
  rfl

theorem addArgAttr_unnamed (g : Graph) (n : Nat) (attr : ArgAttr) :
    (g.addArgAttr n attr).map unnamed = g.unnamed.addArgAttr n attr := by
  unfold addArgAttr
  refine updateArg_unnamed (fun _ => ?_) g n
  rfl

/-! ### Reachability and soundness -/

theorem visit_unnamed (g : Graph) : ∀ (visits : Nat) (seen stack : List BlockId),
    g.unnamed.visit visits seen stack = g.visit visits seen stack
  | 0, _, _ => rfl
  | visits + 1, seen, stack => by
    simp only [visit, successors_unnamed, visit_unnamed g visits]

theorem reachable_unnamed (g : Graph) : g.unnamed.reachable = g.reachable := by
  simp only [reachable, roots, addressTaken_unnamed, visit_unnamed]
  simp only [unnamed, blockIds, entry?, Array.size_map]

theorem prune_unnamed (g : Graph) : g.unnamed.prune = g.prune.map fun pruned => (pruned.1, pruned.2.unnamed) := by
  simp only [prune, reachable_unnamed]
  cases g.reachable <;> rfl

/-- Checks that go on alike behind a block go on alike, whether they see the name of the block or not. -/
theorem block_bind_mapError {x : BlockId} {f f' : Block → Except (Halt VerifyError) Unit}
    (same : ∀ b, f' b.unnamed = (f b).mapError (Halt.map VerifyError.unnamed)) :
    (liftM (g.unnamed.block x) >>= f') =
      (liftM (g.block x) >>= f).mapError (Halt.map VerifyError.unnamed) := by
  rw [block_unnamed]
  cases g.block x with
  | error f => rfl
  | ok b => exact same b

theorem bind_mapError {x : Checked α} {f f' : α → Except (Halt VerifyError) Unit}
    (same : ∀ a, f' a = (f a).mapError (Halt.map VerifyError.unnamed)) :
    (liftM x >>= f') = (liftM x >>= f).mapError (Halt.map VerifyError.unnamed) := by
  cases x with
  | error f => rfl
  | ok a => exact same a

/-- The verifier finds the same in a block whatever the names are. -/
theorem verifyBlock_unnamed (g : Graph) (x : BlockId) :
    g.unnamed.verifyBlock x = (g.verifyBlock x).mapError (Halt.map VerifyError.unnamed) := by
  simp only [verifyBlock, endsBlock_unnamed, endsEarly_unnamed, anyPlaceholder_unnamed, successors_unnamed]
  refine block_bind_mapError fun b => ?_
  simp only [Block.unnamed]
  cases b.body.getLast? with
  | none => rfl
  | some last =>
    refine bind_mapError fun ends => ?_
    cases ends with
    | false => rfl
    | true =>
      refine bind_mapError fun early => ?_
      cases early with
      | true => rfl
      | false =>
        refine bind_mapError fun placeholder => ?_
        cases placeholder with
        | true => rfl
        | false =>
          refine bind_mapError fun succs => ?_
          have layout : g.unnamed.layout = g.layout := rfl
          rw [layout]
          cases succs.find? (· ∉ g.layout) with
          | none => rfl
          | some target => exact block_bind_mapError fun _ => rfl

theorem verify_unnamed (g : Graph) : g.unnamed.verify = g.verify.mapError (Halt.map VerifyError.unnamed) := by
  have all : ∀ layout : List BlockId, layout.forM g.unnamed.verifyBlock =
      (layout.forM g.verifyBlock).mapError (Halt.map VerifyError.unnamed) := by
    intro layout
    induction layout with
    | nil => rfl
    | cons x layout ih =>
      show (g.unnamed.verifyBlock x >>= fun _ => layout.forM g.unnamed.verifyBlock) =
        (g.verifyBlock x >>= fun _ => layout.forM g.verifyBlock).mapError _
      rw [verifyBlock_unnamed, ih]
      cases g.verifyBlock x <;> rfl
  unfold verify
  show (if g.layout.isEmpty then _ else _) = Except.mapError _ (if g.layout.isEmpty then _ else _)
  cases g.layout.isEmpty with
  | true => rfl
  | false => exact all g.layout

end Graph

end FlowIR
