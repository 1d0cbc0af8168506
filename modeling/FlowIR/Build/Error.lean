import FlowIR.Graph.Verify
import FlowIR.Syntax.Expr

/-!
Errors of function construction. They mean that the caller broke a rule of the construction, not
that the source program is wrong: what has been reported about the source arrives as error nodes,
which are skipped.
-/

namespace FlowIR

inductive Malformed where
  /-- The operator is not defined on the type. -/
  | operator
  /-- A value of a scalar type is given by fields. -/
  | scalarComposite
  /-- The epilogue of a deferred call is not a call. -/
  | deferred
deriving DecidableEq, Repr

inductive Cause where
  | duplicateParameter (name : String)
  | tooManyParameters (declared : Nat)
  | parameterTypeMismatch (index : Nat)
  | unregisteredParameters (registered declared : Nat)
  | chainAlreadyRegistered
  | badAlias (var : VarId)
  | unknownVariable (var : VarId)
  | unknownLabel (label : LabelId)
  | inconsistentChunks (count : Nat)
  | labelRedefined (label : LabelId)
  | undefinedLabel (label : LabelId)
  | danglingLabelAddress (count : Nat)
  | notAnLvalue
  | nonConstantCase
  | duplicateCase (value : Int)
  | duplicateDefault
  | breakOutsideSwitch
  | returnArity (expected found : Nat)
  | invalidExpression (what : Malformed)
  | verify (error : VerifyError)
deriving DecidableEq, Repr

/-- An error, with the function and the position it belongs to. -/
structure BuildError where
  function : String
  span : Span
  cause : Cause
deriving DecidableEq, Repr

/-- The text of a variable's identifier in messages. -/
def VarId.text (v : VarId) : String :=
  "VarId(" ++ Nat.repr v.index ++ ")"

def LabelId.text (l : LabelId) : String :=
  "LabelId(" ++ Nat.repr l.index ++ ")"

def Malformed.message : Malformed → String
  | .operator => "operator does not apply to type"
  | .scalarComposite => "composite of scalar type"
  | .deferred => "deferred epilogue must be a call"

def Cause.message : Cause → String
  | .duplicateParameter name => "parameter `" ++ name ++ "` registered twice"
  | .tooManyParameters declared =>
    "more parameters registered than the signature declares (" ++ Nat.repr declared ++ ")"
  | .parameterTypeMismatch index =>
    "parameter " ++ Nat.repr index ++ " registered with a type that differs from the signature"
  | .unregisteredParameters registered declared =>
    "only " ++ Nat.repr registered ++ " of " ++ Nat.repr declared ++ " parameters were registered"
  | .chainAlreadyRegistered => "closure environment registered twice"
  | .badAlias var => "alias target " ++ var.text ++ " is not a variable of this function"
  | .unknownVariable var => "variable " ++ var.text ++ " is not known to this function"
  | .unknownLabel label => "label " ++ label.text ++ " is not known to this function"
  | .inconsistentChunks count => "direct value classified with " ++ Nat.repr count ++ " chunks"
  | .labelRedefined label => "label " ++ label.text ++ " defined twice"
  | .undefinedLabel label => "label " ++ label.text ++ " used but never defined"
  | .danglingLabelAddress count =>
    Nat.repr count ++ " label-address placeholders left unresolved"
  | .notAnLvalue => "expression is not addressable"
  | .nonConstantCase => "switch case value is not a constant"
  | .duplicateCase value => "switch case value " ++ Int.repr value ++ " appears twice"
  | .duplicateDefault => "switch has more than one default case"
  | .breakOutsideSwitch => "break outside of a switch"
  | .returnArity expected found =>
    "return expects " ++ Nat.repr expected ++ " values, found " ++ Nat.repr found
  | .invalidExpression what => "malformed expression: " ++ what.message
  | .verify error => "verification failed: " ++ error.message

def BuildError.message (e : BuildError) : String :=
  "internal error lowering `" ++ e.function ++ "` at " ++ e.span.text ++ ": " ++ e.cause.message

end FlowIR
