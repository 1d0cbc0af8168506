import FlowIR.Proofs.Perform.Function
import FlowIR.Proofs.Source.Returns

/-!
How the runs of structured functions end.

Regions and deferred calls keep the control flow of the program: a function makes the calls that its body
makes and ends as its body does, apart from the calls that raise kept exceptions again. All returns of a
function share one slot for the value, so what a function returns is the value of the return that was
executed last. That is the one that takes effect unless returns are abandoned in cleanups.
-/

namespace FlowIR

open Machine

variable {s : Session} {signature : Signature} {h : Header} {body : Stmt}

/-- The exceptions of a run are few enough to be kept apart. -/
theorem World.lastException_script (raises : Assoc Nat) (returns : Assoc Int) :
    ({ raises, returns } : World).lastException + stepLimit < wordCount := by
  show 100 + stepLimit < wordCount
  decide

/-- A function with regions and deferred calls compiles. Whatever the world answers to calls, a run of it is cut
off, or there is an execution of its body that makes the same calls, except for those that raise a kept
exception again, and that ends in the same way. -/
theorem Session.regions_preserve_control (name : String) (target : s.target = {})
    (rethrow : s.options.rethrow = World.rethrow) (plain : h.isPlain = true)
    (params : h.params.map (·.ty) = signature.params)
    (result : signature.result.isInteger = true ∨ signature.result = .void)
    (structured : body.isStructured h.scalars signature.result true false = true)
    (distinct : body.isDistinct = true) :
    ∃ g, s.compile name signature h body = .ok g ∧
      ∀ (env : Bytes) (actuals : List Int) (raises : Assoc Nat) (returns : Assoc Int),
        actuals.length = h.params.length →
        (∃ m, execute g (h.physical env actuals) (Machine.start g {} { raises, returns }) =
          .ok (.trapped .stepLimit, m)) ∨
        ∃ exit σ, Exec body (.start actuals { raises, returns }) exit σ ∧ σ.world.visible = σ.world ∧
          exit.Ends true signature.result σ
            (execute g (h.physical env actuals) (Machine.start g {} { raises, returns })) := by
  obtain ⟨g, compiled, runs⟩ := Session.compile_structured name target (fun _ => rethrow) plain params result structured
    distinct
  refine ⟨g, compiled, fun env actuals raises returns length => ?_⟩
  refine (runs env actuals { raises, returns } length fun _ => World.lastException_script raises returns).imp id ?_
  rintro ⟨exit, σ, exec, ended⟩
  exact ⟨exit, σ, exec, exec.seen_eq structured rfl, ended⟩

/-- The cleanup of a region with a handler has a region of its own and a deferred call. -/
theorem Session.regions_preserve_control_nested :
    let h : Header := {}
    let body : Stmt := .block [.attempt (.ite (Typed.call "c" [] .bool) (.ret {} [Typed.int .i64 1])
        (.eval (Typed.call "f" [] .void))) (some (.eval (Typed.call "g" [] .void)))
        (some (.attempt (.defer {} (Typed.call "d" [] .void) (.eval (Typed.call "e" [] .void)))
          (some (.ret {} [Typed.int .i64 2])) none)),
      .ret {} [Typed.int .i64 0]]
    h.isPlain = true ∧ body.isStructured h.scalars .i64 true false = true ∧ body.isDistinct = true ∧
    ∃ g, Session.compile {} "f" { params := [], result := .i64 } h body = .ok g ∧
      ∀ (env : Bytes) (actuals : List Int) (raises : Assoc Nat) (returns : Assoc Int),
        actuals.length = h.params.length →
        (∃ m, execute g (h.physical env actuals) (Machine.start g {} { raises, returns }) =
          .ok (.trapped .stepLimit, m)) ∨
        ∃ exit σ, Exec body (.start actuals { raises, returns }) exit σ ∧ σ.world.visible = σ.world ∧
          exit.Ends true .i64 σ
            (execute g (h.physical env actuals) (Machine.start g {} { raises, returns })) :=
  ⟨by decide +kernel, by decide +kernel, by decide +kernel,
    Session.regions_preserve_control "f" rfl rfl (by decide +kernel) rfl (.inl rfl) (by decide +kernel)
      (by decide +kernel)⟩

/-- A return in a cleanup that is abandoned: the cleanup of an outer return catches the exception that the
cleanup of an inner one raises. -/
def abandoningBody : Stmt :=
  .block [.attempt (.ret {} [Typed.int .i64 1]) none (some
      (.attempt (.attempt (.ret {} [Typed.int .i64 2]) none (some (.eval (Typed.call "boom" [] .void))))
        (some (.block [])) none)),
    .ret {} [Typed.int .i64 0]]

/-- A function returns the value of the return that was executed last, if it returns a value. That is the value
of the return that takes effect, if there is no return in a cleanup. -/
theorem Session.last_return_delivered (name : String) (target : s.target = {})
    (rethrow : s.options.rethrow = World.rethrow) (plain : h.isPlain = true)
    (params : h.params.map (·.ty) = signature.params) (integer : signature.result.isInteger = true)
    (structured : body.isStructured h.scalars signature.result true false = true)
    (distinct : body.isDistinct = true) :
    ∃ g, s.compile name signature h body = .ok g ∧
      ∀ (env : Bytes) (actuals : List Int) (raises : Assoc Nat) (returns : Assoc Int) (v : Option Int) (σ : State),
        actuals.length = h.params.length → Exec body (.start actuals { raises, returns }) (.returned v) σ →
        (∃ m, execute g (h.physical env actuals) (Machine.start g {} { raises, returns }) =
          .ok (.trapped .stepLimit, m)) ∨
        (∃ m, execute g (h.physical env actuals) (Machine.start g {} { raises, returns }) =
          .ok (.returned (σ.latest.map signature.result.encode), m)) ∧
          (body.cleansUpByReturn = false → σ.latest = v) := by
  obtain ⟨g, compiled, runs⟩ := Session.compile_structured name target (fun _ => rethrow) plain params (.inl integer)
    structured distinct
  refine ⟨g, compiled, fun env actuals raises returns v σ length returned => ?_⟩
  refine (runs env actuals { raises, returns } length fun _ => World.lastException_script raises returns).imp id ?_
  rintro ⟨exit, σ', exec, ended⟩
  obtain ⟨rfl, rfl⟩ := exec.unique returned
  obtain ⟨m, ran, -⟩ := ended
  exact ⟨⟨m, ran⟩, fun outside => returned.latest_of_returned outside rfl⟩

/-- Returns in cleanups that are abandoned are executed last. -/
theorem Session.last_return_delivered_abandoning :
    let h : Header := {}
    h.isPlain = true ∧ abandoningBody.isStructured h.scalars .i64 true false = true ∧
    abandoningBody.isDistinct = true ∧
    ∃ g, Session.compile {} "f" { params := [], result := .i64 } h abandoningBody = .ok g ∧
      ∀ (env : Bytes) (actuals : List Int) (raises : Assoc Nat) (returns : Assoc Int) (v : Option Int) (σ : State),
        actuals.length = h.params.length → Exec abandoningBody (.start actuals { raises, returns }) (.returned v) σ →
        (∃ m, execute g (h.physical env actuals) (Machine.start g {} { raises, returns }) =
          .ok (.trapped .stepLimit, m)) ∨
        (∃ m, execute g (h.physical env actuals) (Machine.start g {} { raises, returns }) =
          .ok (.returned (σ.latest.map Ty.i64.encode), m)) ∧
          (abandoningBody.cleansUpByReturn = false → σ.latest = v) :=
  ⟨by decide +kernel, by decide +kernel, by decide +kernel,
    Session.last_return_delivered "f" rfl rfl (by decide +kernel) rfl rfl (by decide +kernel) (by decide +kernel)⟩

/-- The return that takes effect is the outer one. -/
theorem exec_abandoningBody :
    ∃ σ, Exec abandoningBody (.start [] (({} : World).raising "boom")) (.returned (some 1)) σ := by
  have outer : Exec (.attempt (.ret {} [Typed.int .i64 1]) none none) (.start [] (({} : World).raising "boom"))
      (.returned (some 1)) _ := .bare (.ret rfl)
  have inner : Exec (.attempt (.ret {} [Typed.int .i64 2]) none none)
      { State.start [] (({} : World).raising "boom") with latest := some 1 } (.returned (some 2)) _ := .bare (.ret rfl)
  have boom : Exec (.eval (Typed.call "boom" [] .void))
      { State.start [] (({} : World).raising "boom") with latest := some 2 } (.stopped (.raised 101)) _ :=
    .evalStops rfl
  exact ⟨_, .cutShort (.cleaned outer rfl (.caught (.cleaned inner rfl boom) .empty)) (by rintro ⟨⟩)⟩

/-- A return that takes effect can deliver the value of another one, which was abandoned. -/
theorem Session.abandoned_return_delivered :
    ∃ g, Session.compile {} "f" { params := [], result := .i64 } {} abandoningBody = .ok g ∧
      (∃ σ, Exec abandoningBody (.start [] (({} : World).raising "boom")) (.returned (some 1)) σ) ∧
      ∃ m, execute g #[Bytes.zeros 8] (Machine.start g {} (({} : World).raising "boom")) =
        .ok (.returned (some (Ty.i64.encode 2)), m) := by
  have returns : Session.ends {} "f" { params := [], result := .i64 } {} abandoningBody #[Bytes.zeros 8]
      (({} : World).raising "boom") (fun r => r.toOption.map Prod.fst = some (.returned (some (Ty.i64.encode 2)))) =
        true := by decide +kernel
  obtain ⟨g, compiled, ran⟩ := Session.exists_returned returns
  exact ⟨g, compiled, exec_abandoningBody, ran⟩

end FlowIR
