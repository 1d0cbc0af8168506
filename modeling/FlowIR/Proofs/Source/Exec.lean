import FlowIR.Machine.Arith
import FlowIR.Proofs.Source.Eval
import FlowIR.Syntax.Stmt

/-!
What statements mean.

A statement comes to its end, leaves the innermost switch, stops with an exception or a fault, or
returns. A switch goes on with the bodies of its cases, from the selected one to the last. A region
runs its body; an exception in it runs the handler, if there is one. The cleanup then runs once,
whichever way the body or the handler was left, and afterwards that way is taken, unless the cleanup
itself was left in another one.
-/

namespace FlowIR

structure State where
  vars : VarId → Int
  world : World
  /-- The value of the return that was executed last. -/
  latest : Option Int := none

def State.set (σ : State) (v : VarId) (a : Int) : State := { σ with vars := fun u => if u = v then a else σ.vars u }

inductive Exit where
  | normal
  /-- The innermost switch has been left. -/
  | left
  | stopped (stop : Stop)
  | returned (value : Option Int)
deriving DecidableEq, Repr

namespace Exit

def isRaised : Exit → Bool
  | .stopped (.raised _) => true
  | _ => false

theorem exists_of_isRaised {exit : Exit} (h : exit.isRaised = true) :
    ∃ exception, exit = .stopped (.raised exception) := by
  cases exit with
  | stopped stop =>
    cases stop with
    | raised exception => exact ⟨exception, rfl⟩
    | fault f => cases h
  | _ => cases h

def isFault : Exit → Bool
  | .stopped (.fault _) => true
  | _ => false

/-- How a region is left that was about to be left in the way `pending` when its cleanup was left in the
way `last`. -/
def after (pending : Exit) : (last : Exit) → Exit
  | .normal => pending
  | last => last

theorem after_of_ne {pending last : Exit} (early : last ≠ .normal) : pending.after last = last := by
  cases last with
  | normal => exact absurd rfl early
  | _ => rfl

/-- How a switch is left whose cases were left in the given way. -/
def ofCases : Exit → Exit
  | .left => .normal
  | exit => exit

end Exit

namespace Expr

/-- Evaluates an expression for its effects. What a call returns may be of any type. -/
def perform (vars : VarId → Int) : Expr → EvalM Unit
  | .call _ callee args => do
    let values ← evalAll vars args
    let _ ← World.ask callee values 0
  | e => do let _ ← e.eval vars

def initial (vars : VarId → Int) : Option Expr → EvalM Int
  | some e => e.eval vars
  | none => pure 0

def lists (a : Int) (values : List Expr) : Bool := values.any fun e => e.literal? = some a

end Expr

/-- The cases that a switch goes through for a value: from the one that lists the value on, or else from the
default case on. -/
def Stmt.selected (a : Int) (cases : List (List Expr × Stmt)) : List (List Expr × Stmt) :=
  if cases.any fun c => Expr.lists a c.1 then cases.dropWhile fun c => !Expr.lists a c.1
  else cases.dropWhile fun c => !c.1.isEmpty

/-- The cases that are gone through are the last ones. -/
theorem Stmt.exists_selected_eq_drop (a : Int) (cases : List (List Expr × Stmt)) :
    ∃ i, selected a cases = cases.drop i := by
  unfold selected
  split
  · exact ⟨_, (List.dropWhile_eq_drop_findIdx_not ..)⟩
  · exact ⟨_, (List.dropWhile_eq_drop_findIdx_not ..)⟩

/-- Executing a statement in a state leaves the statement and a state. -/
inductive Exec : Stmt → State → Exit → State → Prop where
  | eval {e : Expr} {σ : State} {w : World} (run : e.perform σ.vars σ.world = .ok () w) :
      Exec (.eval e) σ .normal { σ with world := w }
  | evalStops {e : Expr} {stop : Stop} {σ : State} {w : World}
      (run : e.perform σ.vars σ.world = .error stop w) : Exec (.eval e) σ (.stopped stop) { σ with world := w }
  | init {span : Span} {v : VarId} {value : Option Expr} {a : Int} {σ : State} {w : World}
      (run : Expr.initial σ.vars value σ.world = .ok a w) :
      Exec (.init span v value) σ .normal ({ σ with world := w }.set v a)
  | initStops {span : Span} {v : VarId} {value : Option Expr} {stop : Stop} {σ : State} {w : World}
      (run : Expr.initial σ.vars value σ.world = .error stop w) :
      Exec (.init span v value) σ (.stopped stop) { σ with world := w }
  | assign {n : Node} {v : VarId} {e : Expr} {a : Int} {σ : State} {w : World}
      (run : e.eval σ.vars σ.world = .ok a w) :
      Exec (.assign (.var n v) e) σ .normal ({ σ with world := w }.set v a)
  | assignStops {n : Node} {v : VarId} {e : Expr} {stop : Stop} {σ : State} {w : World}
      (run : e.eval σ.vars σ.world = .error stop w) :
      Exec (.assign (.var n v) e) σ (.stopped stop) { σ with world := w }
  | ret {span : Span} {values : List Expr} {v : Option Int} {σ : State} {w : World}
      (run : Expr.evalReturn σ.vars values σ.world = .ok v w) :
      Exec (.ret span values) σ (.returned v) { σ with world := w, latest := v }
  | retStops {span : Span} {values : List Expr} {stop : Stop} {σ : State} {w : World}
      (run : Expr.evalReturn σ.vars values σ.world = .error stop w) :
      Exec (.ret span values) σ (.stopped stop) { σ with world := w }
  | empty {σ : State} : Exec (.block []) σ .normal σ
  | sequence {s : Stmt} {ss : List Stmt} {exit : Exit} {σ σ₁ σ₂ : State} (first : Exec s σ .normal σ₁)
      (rest : Exec (.block ss) σ₁ exit σ₂) : Exec (.block (s :: ss)) σ exit σ₂
  | cutShort {s : Stmt} {ss : List Stmt} {exit : Exit} {σ σ₁ : State} (first : Exec s σ exit σ₁)
      (early : exit ≠ .normal) : Exec (.block (s :: ss)) σ exit σ₁
  | ite {cond : Expr} {yes no : Stmt} {a : Int} {exit : Exit} {σ σ₁ : State} {w : World}
      (run : cond.eval σ.vars σ.world = .ok a w)
      (arm : Exec (if a % 2 = 1 then yes else no) { σ with world := w } exit σ₁) :
      Exec (.ite cond yes no) σ exit σ₁
  | iteStops {cond : Expr} {yes no : Stmt} {stop : Stop} {σ : State} {w : World}
      (run : cond.eval σ.vars σ.world = .error stop w) :
      Exec (.ite cond yes no) σ (.stopped stop) { σ with world := w }
  | switch {span : Span} {value : Expr} {cases : List (List Expr × Stmt)} {a : Int} {exit : Exit}
      {σ σ₁ : State} {w : World} (run : value.eval σ.vars σ.world = .ok a w)
      (bodies : Exec (.block ((Stmt.selected a cases).map Prod.snd)) { σ with world := w } exit σ₁) :
      Exec (.switch span value cases) σ exit.ofCases σ₁
  | switchStops {span : Span} {value : Expr} {cases : List (List Expr × Stmt)} {stop : Stop} {σ : State}
      {w : World} (run : value.eval σ.vars σ.world = .error stop w) :
      Exec (.switch span value cases) σ (.stopped stop) { σ with world := w }
  | leave {span : Span} {σ : State} : Exec (.leave span) σ .left σ
  | bare {body : Stmt} {exit : Exit} {σ σ₁ : State} (run : Exec body σ exit σ₁) :
      Exec (.attempt body none none) σ exit σ₁
  | uncaught {body handler : Stmt} {exit : Exit} {σ σ₁ : State} (run : Exec body σ exit σ₁)
      (other : exit.isRaised = false) : Exec (.attempt body (some handler) none) σ exit σ₁
  | caught {body handler : Stmt} {exception : Nat} {exit : Exit} {σ σ₁ σ₂ : State}
      (run : Exec body σ (.stopped (.raised exception)) σ₁) (handled : Exec handler σ₁ exit σ₂) :
      Exec (.attempt body (some handler) none) σ exit σ₂
  | cleaned {body cleanup : Stmt} {handler : Option Stmt} {pending last : Exit} {σ σ₁ σ₂ : State}
      (region : Exec (.attempt body handler none) σ pending σ₁) (sane : pending.isFault = false)
      (clean : Exec cleanup σ₁ last σ₂) :
      Exec (.attempt body handler (some cleanup)) σ (pending.after last) σ₂
  | faulted {body cleanup : Stmt} {handler : Option Stmt} {f : Fault} {σ σ₁ : State}
      (region : Exec (.attempt body handler none) σ (.stopped (.fault f)) σ₁) :
      Exec (.attempt body handler (some cleanup)) σ (.stopped (.fault f)) σ₁
  | deferred {span : Span} {epilogue : Expr} {check : Stmt} {σ : State} {w : World}
      (run : epilogue.perform σ.vars σ.world = .ok () w) :
      Exec (.defer span epilogue check) σ .normal { σ with world := w }
  | deferFaults {span : Span} {epilogue : Expr} {check : Stmt} {f : Fault} {σ : State} {w : World}
      (run : epilogue.perform σ.vars σ.world = .error (.fault f) w) :
      Exec (.defer span epilogue check) σ (.stopped (.fault f)) { σ with world := w }
  | deferAgain {span : Span} {epilogue : Expr} {check : Stmt} {exception : Nat} {exit : Exit}
      {σ σ₁ σ₂ : State} {w : World} (run : epilogue.perform σ.vars σ.world = .error (.raised exception) w)
      (checked : Exec check { σ with world := w } .normal σ₁)
      (again : Exec (.defer span epilogue check) σ₁ exit σ₂) : Exec (.defer span epilogue check) σ exit σ₂
  | deferLeaves {span : Span} {epilogue : Expr} {check : Stmt} {exception : Nat} {exit : Exit}
      {σ σ₁ : State} {w : World} (run : epilogue.perform σ.vars σ.world = .error (.raised exception) w)
      (checked : Exec check { σ with world := w } exit σ₁) (early : exit ≠ .normal) :
      Exec (.defer span epilogue check) σ exit σ₁

/-- A statement is left in one way. -/
theorem Exec.unique {s : Stmt} {σ σ₁ σ₂ : State} {exit exit' : Exit} (h : Exec s σ exit σ₁)
    (k : Exec s σ exit' σ₂) : exit = exit' ∧ σ₁ = σ₂ := by
  induction h generalizing exit' σ₂ with
  | eval run | evalStops run | init run | initStops run | assign run | assignStops run | ret run
  | retStops run => cases k <;> next run' => cases run.symm.trans run' <;> exact ⟨rfl, rfl⟩
  | empty | leave =>
    cases k
    exact ⟨rfl, rfl⟩
  | sequence first rest ihFirst ihRest => cases k with
    | sequence first' rest' =>
      obtain ⟨-, rfl⟩ := ihFirst first'
      exact ihRest rest'
    | cutShort first' early => exact absurd (ihFirst first').1.symm early
  | cutShort first early ih => cases k with
    | sequence first' _ => exact absurd (ih first').1 early
    | cutShort first' _ => exact ih first'
  | ite run arm ih => cases k with
    | ite run' arm' =>
      cases run.symm.trans run'
      exact ih arm'
    | iteStops run' => cases run.symm.trans run'
  | iteStops run => cases k with
    | ite run' _ => cases run.symm.trans run'
    | iteStops run' => cases run.symm.trans run'; exact ⟨rfl, rfl⟩
  | switch run bodies ih => cases k with
    | switch run' bodies' =>
      cases run.symm.trans run'
      obtain ⟨rfl, rfl⟩ := ih bodies'
      exact ⟨rfl, rfl⟩
    | switchStops run' => cases run.symm.trans run'
  | switchStops run => cases k with
    | switch run' _ => cases run.symm.trans run'
    | switchStops run' => cases run.symm.trans run'; exact ⟨rfl, rfl⟩
  | bare _ ih => cases k with
    | bare run' => exact ih run'
  | uncaught _ other ih => cases k with
    | uncaught run' _ => exact ih run'
    | caught run' _ =>
      obtain ⟨rfl, -⟩ := ih run'
      cases other
  | caught _ _ ihBody ihHandler => cases k with
    | uncaught run' other =>
      obtain ⟨rfl, -⟩ := ihBody run'
      cases other
    | caught run' handled' =>
      obtain ⟨-, rfl⟩ := ihBody run'
      exact ihHandler handled'
  | cleaned _ sane _ ihRegion ihClean => cases k with
    | cleaned region' _ clean' =>
      obtain ⟨rfl, rfl⟩ := ihRegion region'
      obtain ⟨rfl, rfl⟩ := ihClean clean'
      exact ⟨rfl, rfl⟩
    | faulted region' =>
      obtain ⟨rfl, -⟩ := ihRegion region'
      cases sane
  | faulted _ ih => cases k with
    | cleaned region' sane _ =>
      obtain ⟨rfl, -⟩ := ih region'
      cases sane
    | faulted region' => exact ih region'
  | deferred run => cases k with
    | deferred run' => cases run.symm.trans run'; exact ⟨rfl, rfl⟩
    | deferFaults run' | deferAgain run' | deferLeaves run' => cases run.symm.trans run'
  | deferFaults run => cases k with
    | deferFaults run' => cases run.symm.trans run'; exact ⟨rfl, rfl⟩
    | deferred run' | deferAgain run' | deferLeaves run' => cases run.symm.trans run'
  | deferAgain run _ _ ihCheck ihAgain => cases k with
    | deferred run' | deferFaults run' => cases run.symm.trans run'
    | deferAgain run' checked' again' =>
      cases run.symm.trans run'
      obtain ⟨-, rfl⟩ := ihCheck checked'
      exact ihAgain again'
    | deferLeaves run' checked' early =>
      cases run.symm.trans run'
      exact absurd (ihCheck checked').1.symm early
  | deferLeaves run _ early ih => cases k with
    | deferred run' | deferFaults run' => cases run.symm.trans run'
    | deferAgain run' checked' _ =>
      cases run.symm.trans run'
      exact absurd (ih checked').1 early
    | deferLeaves run' checked' _ =>
      cases run.symm.trans run'
      exact ih checked'

end FlowIR
