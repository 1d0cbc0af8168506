import FlowIR.Proofs.Emit.Return

/-!
A function that returns an expression over integers computes the value of the expression.
-/

namespace FlowIR

open Machine

/-! ### Faults of an evaluation -/

mutual
/-- Whether somewhere in the expression the rethrow routine is called without an exception. -/
def Expr.rethrowsNothing : Expr → Bool
  | .binary _ _ lhs rhs => rethrowsNothing lhs || rethrowsNothing rhs
  | .call _ callee args => (callee = World.rethrow && args.isEmpty) || anyRethrowsNothing args
  | .conditional _ cond yes no => rethrowsNothing cond || (rethrowsNothing yes || rethrowsNothing no)
  | _ => false

def Expr.anyRethrowsNothing : List Expr → Bool
  | [] => false
  | e :: es => rethrowsNothing e || anyRethrowsNothing es
end

/-- The fault is one that the expression can come to. -/
def Fault.Explained (rethrows : Bool) (f : Fault) : Prop :=
  f = .divisionByZero ∨ f = .nothingToRethrow ∧ rethrows = true

theorem Fault.Explained.mono {p q : Bool} {f : Fault} (h : f.Explained p) (le : p = true → q = true) :
    f.Explained q :=
  h.imp id fun ⟨eq, rethrows⟩ => ⟨eq, le rethrows⟩

/-- The rules of evaluation for faults: a fault of a sequence is one of its parts. -/
theorem EvalM.fault_of_bind {α β : Type} {x : EvalM α} {g : α → EvalM β} {w after : World} {f : Fault}
    (run : (x >>= g) w = .error (.fault f) after) :
    (∃ w', x w = .error (.fault f) w') ∨ ∃ a w', x w = .ok a w' ∧ g a w' = .error (.fault f) after := by
  have run : EStateM.bind x g w = .error (.fault f) after := run
  unfold EStateM.bind at run
  cases first : x w with
  | ok a w' =>
    rw [first] at run
    exact .inr ⟨a, w', rfl, run⟩
  | error stop w' =>
    rw [first] at run
    cases run
    exact .inl ⟨_, rfl⟩

/-- Only the rethrow routine has no answer. -/
theorem World.fault_of_ask {callee : String} {args : List Bytes} {size : Nat} {w after : World} {f : Fault}
    (run : World.ask callee args size w = .error (.fault f) after) :
    f = .nothingToRethrow ∧ callee = rethrow ∧ args = [] := by
  unfold ask at run
  split at run
  · cases run
  · cases run
  · next failed =>
    cases run
    unfold call at failed
    dsimp only at failed
    split at failed
    · next isRethrow =>
      split at failed
      · cases failed
        exact ⟨rfl, isRethrow, rfl⟩
      · cases failed
    · split at failed <;> cases failed

/-- There are as many values as expressions. -/
theorem Expr.length_of_evalAll {vars : VarId → Int} : ∀ {es : List Expr} {w after : World} {bs : List Bytes},
    Expr.evalAll vars es w = .ok bs after → bs.length = es.length
  | [], _, _, _, run => by
    cases run
    rfl
  | e :: es, w, after, bs, run => by
    simp only [evalAll, bind, EStateM.bind] at run
    split at run
    · split at run
      · next rest =>
        cases run
        exact congrArg (· + 1) (length_of_evalAll rest)
      · cases run
    · cases run

mutual
/-- A fault of an expression has one of the explained reasons. -/
theorem Expr.explained_of_eval {vars : VarId → Int} : ∀ {e : Expr} {w after : World} {f : Fault},
    e.eval vars w = .error (.fault f) after → f.Explained e.rethrowsNothing
  | .binary _ op lhs rhs, w, after, f, run => by
    rw [eval] at run
    rw [rethrowsNothing]
    rcases EvalM.fault_of_bind run with ⟨w₁, first⟩ | ⟨a, w₁, -, run⟩
    · exact (explained_of_eval first).mono fun h => by rw [h]; rfl
    · rcases EvalM.fault_of_bind run with ⟨w₂, second⟩ | ⟨b, w₂, -, run⟩
      · exact (explained_of_eval second).mono fun h => by rw [h, Bool.or_true]
      · cases applied : op.apply lhs.ty a b with
        | some v => rw [applied] at run; cases run
        | none =>
          rw [applied] at run
          cases run
          exact .inl rfl
  | .call n callee args, w, after, f, run => by
    rw [eval] at run
    rw [rethrowsNothing]
    rcases EvalM.fault_of_bind run with ⟨w₁, first⟩ | ⟨values, w₁, done, run⟩
    · exact (explained_of_evalAll first).mono fun h => by rw [h, Bool.or_true]
    · rcases EvalM.fault_of_bind run with ⟨w₂, asked⟩ | ⟨b, w₂, -, run⟩
      · obtain ⟨rfl, isRethrow, none⟩ := World.fault_of_ask asked
        have empty : args = [] := by
          have length := length_of_evalAll done
          rw [none] at length
          exact List.eq_nil_of_length_eq_zero length.symm
        subst empty
        exact .inr ⟨rfl, by simp [isRethrow]⟩
      · cases run
  | .conditional _ cond yes no, w, after, f, run => by
    rw [eval] at run
    rw [rethrowsNothing]
    rcases EvalM.fault_of_bind run with ⟨w₁, first⟩ | ⟨a, w₁, -, run⟩
    · exact (explained_of_eval first).mono fun h => by rw [h]; rfl
    · split at run
      · exact (explained_of_eval run).mono fun h => by rw [h, Bool.true_or, Bool.or_true]
      · exact (explained_of_eval run).mono fun h => by rw [h, Bool.or_true, Bool.or_true]
  | .int _ _, w, _, _, run | .float _ _, w, _, _, run | .bool _ _, w, _, _, run | .nil _, w, _, _, run
  | .zero _, w, _, _, run | .var _ _, w, _, _, run | .addressOf _ _, w, _, _, run
  | .deref _ _, w, _, _, run | .field _ _ _, w, _, _, run | .composite _ _, w, _, _, run
  | .labelAddress _ _, w, _, _, run | .error _, w, _, _, run => by cases run

theorem Expr.explained_of_evalAll {vars : VarId → Int} : ∀ {es : List Expr} {w after : World} {f : Fault},
    Expr.evalAll vars es w = .error (.fault f) after → f.Explained (anyRethrowsNothing es)
  | [], _, _, _, run => by cases run
  | e :: es, w, after, f, run => by
    rw [evalAll] at run
    rw [anyRethrowsNothing]
    rcases EvalM.fault_of_bind run with ⟨w₁, first⟩ | ⟨a, w₁, -, run⟩
    · exact (explained_of_eval first).mono fun h => by rw [h]; rfl
    · rcases EvalM.fault_of_bind run with ⟨w₂, second⟩ | ⟨b, w₂, -, run⟩
      · exact (explained_of_evalAll second).mono fun h => by rw [h, Bool.or_true]
      · cases run
end

/-! ### Runs -/

/-- How a run of a function ends, by what evaluating the expression that it returns comes to. -/
inductive Evaluated.Ends (t : Ty) : Evaluated Int → Checked (Outcome × Machine) → Prop where
  | value {v : Int} {m : Machine} : Ends t (.ok v m.world) (.ok (.returned (some (t.encode v)), m))
  | raised {exception : Nat} {m : Machine} :
      Ends t (.error (.raised exception) m.world) (.ok (.raised exception, m))
  | fault {f : Fault} {w : World} : Ends t (.error (.fault f) w) (.error f)

/-- The code of a function that returns an expression. -/
theorem Emit.return_evaluates {s : Session} {signature : Signature} {h : Header} {e : Expr} {b : Builder}
    (starts : s.Starts signature h b) (scalar : e.isScalar h.scalars = true) (result : signature.result = e.ty)
    (span : Span) :
    Succeeds (Emit.stmt (.ret span [e])) b.cursor fun _ c => b.cursor.Adds c ∧
      ∀ S : Scene, c.In S → ∀ fuel vars m, S.Ready m → S.Holds h.scalars (fun v => ⟨v.index⟩) vars m →
        S.Leads fuel (b.cursor.spot S m)
          (fun t => ∃ r, t = .over r ∧ Evaluated.Ends e.ty (e.eval vars m.world) r) := by
  rw [Emit.stmt]
  have returnable : Expr.areReturnable h.scalars e.ty [e] = true := by simp [Expr.areReturnable, scalar]
  have sig : b.cursor.builder.signature.result = e.ty := (congrArg Signature.result starts.signature).trans result
  refine (Emit.returnValues_leaves starts.able starts.declares sig (result ▸ starts.returns) rfl returnable
    span).imp ?_
  rintro _ c ⟨mid, o, i, flows, pushed, runs⟩
  refine ⟨flows.adds.trans pushed.adds, fun S inside fuel vars m ready holds => ?_⟩
  refine (runs starts.isOpen S (inside.adds pushed.adds) fuel vars m ready holds).bind
    fun left t _ _ come => ?_
  have unfolded : Expr.evalReturn vars [e] m.world = EStateM.map some (e.eval vars) m.world := rfl
  dsimp only at come
  rw [unfolded, EStateM.map] at come
  cases evaluated : e.eval vars m.world with
  | ok v w =>
    rw [evaluated] at come
    obtain ⟨m', rfl, -, -, rfl, returned⟩ := come
    exact pushed.leave (flows.isOpen starts.isOpen) inside returned ⟨_, rfl, .value⟩
  | error stop w =>
    rw [evaluated] at come
    cases stop with
    | raised exception =>
      obtain ⟨m', rfl, -, -, rfl⟩ := come
      exact .here ⟨_, rfl, .raised⟩
    | fault f => exact .here ⟨_, come, .fault⟩

/-- A function that returns an expression over integers can be compiled. Whatever its variables hold and
however the world answers, a run of it is cut off, or it ends as the evaluation of the expression does: with
the bytes of the value, with the exception of the call that raised, or with a fault, and after the same
calls. A fault is a division by zero, or the rethrow routine called without an exception. -/
theorem Session.compiled_expr_evaluates {s : Session} {h : Header} {e : Expr} (name : String) (internal : Bool)
    (span : Span) (target : s.target = {}) (plain : h.isPlain = true) (scalar : e.isScalar h.scalars = true) :
    ∃ g, s.compile name { params := h.params.map (·.ty), result := e.ty, internal } h (.ret span [e]) = .ok g ∧
      ∀ (env : Bytes) (actuals : List Int) (world : World), actuals.length = h.params.length →
        (∃ m, execute g (h.physical env actuals) (Machine.start g {} world) =
          .ok (.trapped .stepLimit, m)) ∨
        (Evaluated.Ends e.ty (e.eval (Header.contents actuals) world)
          (execute g (h.physical env actuals) (Machine.start g {} world)) ∧
          ∀ f after, e.eval (Header.contents actuals) world = .error (.fault f) after →
            f.Explained e.rethrowsNothing) := by
  let signature : Signature := { params := h.params.map (·.ty), result := e.ty, internal }
  have integer : signature.result.isInteger = true := Expr.isInteger_of_isScalar scalar
  obtain ⟨g, b, c, compiled, starts, runs, -, -, ends⟩ := Session.compile_of_adds name target plain rfl
    (.inl integer) fun b (starts : s.Starts signature h b) => Emit.return_evaluates starts scalar rfl span
  refine ⟨g, compiled, fun env actuals world length => ?_⟩
  refine (ends env actuals world
    (fun t => ∃ r, t = .over r ∧ Evaluated.Ends e.ty (e.eval (Header.contents actuals) world) r) length
    (fun t ⟨r, eq, _⟩ => ⟨r, eq⟩) ?_).imp id ?_
  · intro S left m fewer graph args arrived
    have leads := runs S (arrived.inside c rfl) left _ m arrived.ready arrived.holds
    rwa [arrived.world] at leads
  · rintro ⟨_, ⟨r, eq, ended⟩, rfl⟩
    cases eq
    exact ⟨ended, fun f after failed => Expr.explained_of_eval failed⟩

/-- Unsigned bytes wrap, a signed quotient is of two calls, and only one arm is evaluated. -/
theorem Session.compiled_expr_evaluates_quotient :
    let h : Header := { params := [{ name := "p", ty := .u8 }] }
    let e : Expr := Typed.conditional (Typed.binary .lt (Typed.binary .add (Typed.var ⟨0⟩ .u8)
        (Typed.int .u8 200)) (Typed.var ⟨0⟩ .u8))
      (Typed.binary .div (Typed.call "f" [Typed.var ⟨0⟩ .u8] .i64) (Typed.call "g" [] .i64))
      (Typed.int .i64 7)
    h.isPlain = true ∧ e.isScalar h.scalars = true ∧
    ∃ g, Session.compile {} "q" { params := h.params.map (·.ty), result := e.ty, internal := false } h
        (.ret {} [e]) = .ok g ∧
      ∀ (env : Bytes) (actuals : List Int) (world : World), actuals.length = h.params.length →
        (∃ m, execute g (h.physical env actuals) (Machine.start g {} world) =
          .ok (.trapped .stepLimit, m)) ∨
        (Evaluated.Ends e.ty (e.eval (Header.contents actuals) world)
          (execute g (h.physical env actuals) (Machine.start g {} world)) ∧
          ∀ f after, e.eval (Header.contents actuals) world = .error (.fault f) after →
            f.Explained e.rethrowsNothing) :=
  ⟨by decide +kernel, by decide +kernel,
    Session.compiled_expr_evaluates "q" false {} rfl (by decide +kernel) (by decide +kernel)⟩

/-- An expression that divides nothing comes to a fault where it calls the rethrow routine without an
exception. -/
theorem Session.compiled_rethrow_faults :
    ∃ g, Session.compile {} "f" { params := [], result := .i64 } {}
        (.ret {} [Typed.call World.rethrow [] .i64]) = .ok g ∧
      execute g #[Bytes.zeros 8] (Machine.start g {} {}) = .error .nothingToRethrow := by
  have faults : Session.ends {} "f" { params := [], result := .i64 } {}
      (.ret {} [Typed.call World.rethrow [] .i64]) #[Bytes.zeros 8] {}
      (fun | .error f => f = .nothingToRethrow | .ok _ => false) = true := by decide +kernel
  obtain ⟨g, compiled, test⟩ := Session.exists_of_ends faults
  refine ⟨g, compiled, ?_⟩
  split at test
  · next failed => rw [failed, of_decide_eq_true test]
  · cases test

end FlowIR
