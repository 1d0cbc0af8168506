import FlowIR.Graph.Operand
import FlowIR.Syntax.Span

/-!
Labels and the placeholders for their addresses.

A label gets its block when it is first mentioned. As long as it has no place in the body, its
address is a placeholder, one for each label, and the instructions that use it are recorded.
-/

namespace FlowIR

structure Label where
  span : Span
  /-- The block that the label starts, once it has been mentioned. -/
  block : Option BlockId := none
  /-- The label has its place in the body. -/
  defined : Bool := false
  addressTaken : Bool := false
  /-- The placeholder that stands for the address. -/
  placeholder : Option PlaceholderId := none

def Label.isDangling (l : Label) : Bool :=
  !l.defined && (l.block.isSome || l.addressTaken)

structure LabelTable where
  labels : Array Label := #[]
  /-- The instructions that use each placeholder; `none` once it has been replaced. -/
  uses : Array (Option (List InstrId)) := #[]
  /-- The indirect branches of the function. -/
  branches : List InstrId := []

namespace LabelTable

def add (t : LabelTable) (span : Span) : LabelId × LabelTable :=
  (⟨t.labels.size⟩, { t with labels := t.labels.push { span } })

def get? (t : LabelTable) (l : LabelId) : Option Label :=
  t.labels[l.index]?

def update (t : LabelTable) (l : LabelId) (f : Label → Label) : LabelTable :=
  { t with labels := t.labels.modify l.index f }

/-- The placeholder for the address of a label, made when it is first asked for. -/
def placeholderFor (t : LabelTable) (l : LabelId) : PlaceholderId × LabelTable :=
  match (t.get? l).bind (·.placeholder) with
  | some p => (p, t)
  | none =>
    let p : PlaceholderId := ⟨t.uses.size⟩
    (p, { t.update l ({ · with placeholder := some p }) with uses := t.uses.push (some []) })

/-- Records that an instruction uses a placeholder. -/
def recordUse (t : LabelTable) (p : PlaceholderId) (i : InstrId) : LabelTable :=
  { t with uses := t.uses.modify p.index fun entry =>
      entry.map fun is => if i ∈ is then is else is ++ [i] }

/-- Takes back the placeholder of a label, with the instructions that use it. -/
def retire (t : LabelTable) (l : LabelId) :
    Option (PlaceholderId × List InstrId) × LabelTable :=
  match (t.get? l).bind (·.placeholder) with
  | none => (none, t)
  | some p =>
    let t := t.update l ({ · with placeholder := none })
    match t.uses[p.index]?.join with
    | none => (none, t)
    | some is => (some (p, is), { t with uses := t.uses.setIfInBounds p.index none })

/-- The number of placeholders that have not been replaced. -/
def pending (t : LabelTable) : Nat :=
  t.uses.countP (·.isSome)

def recordBranch (t : LabelTable) (i : InstrId) : LabelTable :=
  { t with branches := t.branches ++ [i] }

/-- The labels that are used but have no place, in order. -/
def dangling (t : LabelTable) : List LabelId :=
  ((List.range t.labels.size).map LabelId.mk).filter fun l =>
    (t.get? l).any (·.isDangling)

end LabelTable

end FlowIR
