import FlowIR.Proofs.Emit.Compile
import FlowIR.Proofs.Perform.Stmt

/-!
Functions with structured bodies.

Such a function compiles if no switch in it lists a value twice, and is rejected for that reason otherwise.
A run of it is cut off, or it ends as the execution of the body does (`Exit.Ends`).
-/

namespace FlowIR

open Machine

variable {s : Session} {signature : Signature} {h : Header} {body : Stmt} {hides : Bool}

/-- The state in which the body of a function is executed. -/
def State.start (actuals : List Int) (world : World) : State := { vars := Header.contents actuals, world }

/-- How the run of a function ends whose body was left in the given way. Where a body comes to its end, the
function returns if it has no result, and traps if it has one. -/
def Exit.Ends (hides : Bool) (result : Ty) : Exit → State → Checked (Outcome × Machine) → Prop
  | .normal, σ, r => ∃ m, r = .ok (if result = .void then .returned none else .trapped .unreachable, m) ∧
      m.world.seen hides = σ.world.seen hides
  | .returned _, σ, r => ∃ m, r = .ok (.returned (σ.latest.map result.encode), m) ∧
      m.world.seen hides = σ.world.seen hides
  | .stopped (.raised exception), σ, r => ∃ m, r = .ok (.raised exception, m) ∧
      m.world.seen hides = σ.world.seen hides
  | .stopped (.fault f), _, r => r = .error f
  | .left, _, _ => False

/-- The frame of the code of a function over integers. -/
def Header.frame (h : Header) (result : Ty) (hides : Bool) : Frame :=
  { types := h.scalars, slots := fun v => ⟨v.index⟩, result, hides }

theorem Session.Starts.hosts {b : Builder} (starts : s.Starts signature h b)
    (rethrow : hides = true → s.options.rethrow = World.rethrow) :
    b.cursor.Hosts (h.frame signature.result hides) where
  able := starts.able
  declares := starts.declares
  typed := starts.typed
  apart := fun u v eq => by
    cases u
    cases v
    cases eq
    rfl
  kept := fun v hv => by cases starts.returnSlot.symm.trans hv
  own := fun i hi => by cases starts.returnSlot.symm.trans hi
  flags := by rintro _ ⟨⟩
  result := congrArg Signature.result starts.signature
  returns := starts.returns
  rethrow := fun hidden => (congrArg Options.rethrow starts.options).trans (rethrow hidden)

/-- A body that comes to its end. -/
theorem Builder.Finishes.leads_end {S : Scene} {c : Cursor} {m : Machine} {fuel : Nat} {result : Ty}
    (finishes : c.builder.Finishes S.graph) (laid : c.current ∈ c.graph.layout) (isOpen : c.Open) (inside : c.In S)
    (front : S.front = c.builder.lateSlots) (returns : c.builder.convention.Returns result) :
    S.Leads fuel (c.spot S m) fun t =>
      t = .over (.ok (if result = .void then .returned none else .trapped .unreachable, m)) := by
  obtain ⟨i, body, closer⟩ := finishes.closes c.current laid isOpen
  have lead : S.lead c.current = Graph.lead c.builder.entry c.builder.lateSlots c.current := by
    unfold Scene.lead
    rw [inside.entry, front]
  have rest : c.rest S = [i] := by
    have whole := inside.body_current
    rw [body, lead] at whole
    exact (List.append_cancel_left whole).symm
  have exec : step S.graph S.args m i =
      .ok (.done (if result = .void then .returned none else .trapped .unreachable), m) := by
    unfold step
    rw [closer]
    unfold Builder.closer
    rcases returns.2 with ⟨integer, ext, passing⟩ | ⟨rfl, passing⟩
    · have other : result ≠ .void := fun eq => by
        rw [eq] at integer
        cases integer
      rw [passing, if_neg other]
      rfl
    · rw [passing, if_pos rfl]
      rfl
  unfold Cursor.spot
  rw [rest]
  exact .done exec rfl

/-- Where the code of a body leads, at the end of the function. -/
theorem Cursor.Lands.ends {F : Frame} {S : Scene} {b : Builder} {c : Cursor} {m : Machine} {exit : Exit} {σ : State}
    {t : Config} {fuel : Nat}
    (lands : b.cursor.Lands F S none c (fun m' t => c.Open ∧ t = c.spot S m') m exit σ t) (stays : exit ≠ .left)
    (closed : c.Open → ∀ m' left, S.Leads left (c.spot S m') fun t =>
      t = .over (.ok (if F.result = .void then .returned none else .trapped .unreachable, m'))) :
    S.Leads fuel t fun t => ∃ r, t = .over r ∧ exit.Ends F.hides F.result σ r := by
  cases exit with
  | left => exact absurd rfl stays
  | normal =>
    obtain ⟨m', ⟨isOpen, rfl⟩, follows⟩ := lands
    exact (closed isOpen m' fuel).mono fun t eq => ⟨_, eq, m', rfl, follows.world⟩
  | returned v =>
    obtain ⟨m', rfl, world⟩ := lands
    exact .here ⟨_, rfl, m', rfl, world⟩
  | stopped stop =>
    cases stop with
    | raised exception =>
      obtain ⟨m', rfl, -, follows⟩ := lands
      exact .here ⟨_, rfl, m', rfl, follows.world⟩
    | fault f => exact .here ⟨_, lands, rfl⟩

section

variable (name : String) (target : s.target = {}) (rethrow : hides = true → s.options.rethrow = World.rethrow)
  (plain : h.isPlain = true) (params : h.params.map (·.ty) = signature.params)
  (result : signature.result.isInteger = true ∨ signature.result = .void)

include target rethrow plain params result

/-- A function whose body has code that does what `R` says. -/
theorem Session.compile_of_lands {R : State → Exit → State → Prop} (stays : ∀ σ exit σ', R σ exit σ' → exit ≠ .left)
    (emits : ∀ b : Builder, b.cursor.Hosts (h.frame signature.result hides) →
      Succeeds (Emit.stmt body) b.cursor fun _ c =>
      b.cursor.Adds c ∧ (b.cursor.Open → ∀ S : Scene, c.In S → ∀ fuel σ m,
        b.cursor.Meets (h.frame signature.result hides) S none fuel σ m →
        S.Leads fuel (b.cursor.spot S m) fun t => ∃ exit σ', R σ exit σ' ∧
          b.cursor.Lands (h.frame signature.result hides) S none c (fun m' t =>
            c.Open ∧ t = c.spot S m') m exit σ' t)) :
    ∃ g, s.compile name signature h body = .ok g ∧
      ∀ (env : Bytes) (actuals : List Int) (world : World), actuals.length = h.params.length →
        (hides = true → world.lastException + stepLimit < wordCount) →
        (∃ m, execute g (h.physical env actuals) (Machine.start g {} world) = .ok (.trapped .stepLimit, m)) ∨
        ∃ exit σ, R (.start actuals world) exit σ ∧ exit.Ends hides signature.result σ
          (execute g (h.physical env actuals) (Machine.start g {} world)) := by
  obtain ⟨g, b, c, compiled, starts, ⟨adds, runs⟩, finishes, laid, ends⟩ := Session.compile_of_adds name target plain
    params result fun b (starts : s.Starts signature h b) =>
      (emits b (starts.hosts rethrow)).mono (fun _ c done => ⟨done.1, done⟩) fun _ _ no => no
  refine ⟨g, compiled, fun env actuals world length small => ?_⟩
  refine (ends env actuals world (fun t => ∃ r, t = .over r ∧ ∃ exit σ, R (.start actuals world) exit σ ∧
    exit.Ends hides signature.result σ r) length (by rintro t ⟨r, eq, -⟩; exact ⟨r, eq⟩) ?_).imp id ?_
  · rintro S left m fewer rfl - arrived
    have inside := arrived.inside c rfl
    have returns : c.builder.convention.Returns signature.result := adds.builder.convention ▸ starts.returns
    have meets : b.cursor.Meets (h.frame signature.result hides) S none left (.start actuals world) m :=
      { ready := arrived.ready
        holds := arrived.holds
        world := by rw [arrived.world]; rfl
        latest := by rintro _ ⟨⟩
        void := fun _ => rfl
        slot := by rintro _ ⟨⟩
        bound := fun hidden => by
          rw [arrived.world]
          exact Nat.lt_of_le_of_lt (Nat.add_le_add_left fewer _) (small hidden) }
    refine Leads.bind (runs starts.isOpen S inside left _ m meets) ?_
    rintro left' t - - ⟨exit, σ, related, lands⟩
    refine (lands.ends (stays _ _ _ related) fun isOpen m' left => ?_).mono ?_
    · exact finishes.leads_end laid isOpen inside arrived.front returns
    · rintro t ⟨r, eq, ended⟩
      exact ⟨r, eq, exit, σ, related, ended⟩
  · rintro ⟨_, ⟨r, eq, ended⟩, rfl⟩
    cases eq
    exact ended

variable (structured : body.isStructured h.scalars signature.result hides false = true)

include structured

/-- A function with a structured body in which no switch lists a value twice. -/
theorem Session.compile_structured (distinct : body.isDistinct = true) :
    ∃ g, s.compile name signature h body = .ok g ∧
      ∀ (env : Bytes) (actuals : List Int) (world : World), actuals.length = h.params.length →
        (hides = true → world.lastException + stepLimit < wordCount) →
        (∃ m, execute g (h.physical env actuals) (Machine.start g {} world) = .ok (.trapped .stepLimit, m)) ∨
        ∃ exit σ, Exec body (.start actuals world) exit σ ∧ exit.Ends hides signature.result σ
          (execute g (h.physical env actuals) (Machine.start g {} world)) := by
  refine Session.compile_of_lands name target rethrow plain params result
    (fun σ exit σ' exec => exec.ne_left structured) fun b host => ?_
  have enacts : Enacts (h.frame signature.result hides) body false (Emit.stmt body) := stmt_enacts structured
  refine (enacts b.cursor host (by rintro ⟨⟩)).mono ?_ fun _ _ failed => ?_
  · rintro _ c ⟨performs, -⟩
    exact ⟨performs.adds, fun isOpen S inside fuel σ m meets => performs.runs isOpen S inside none fuel σ m meets⟩
  · rw [distinct] at failed
    exact Bool.noConfusion failed.2

/-- A function with a structured body in which some switch lists a value twice. -/
theorem Session.compile_duplicate (twice : body.isDistinct = false) :
    ∃ e, s.compile name signature h body = .error e ∧ e.IsDuplicate := by
  obtain ⟨start, b, spills, prepares, starts, simple, first, compile⟩ :=
    Session.exists_starts name target plain params result
  have enacts : Enacts (h.frame signature.result hides) body false (Emit.stmt body) := stmt_enacts structured
  have run := enacts b.cursor (starts.hosts rethrow) (by rintro ⟨⟩)
  rw [compile body]
  unfold Builder.complete
  cases emitted : Emit.stmt body b.cursor with
  | ok _ c =>
    have done := run.of_ok emitted
    rw [twice] at done
    exact Bool.noConfusion done.2
  | error e c => exact ⟨e, rfl, (run.of_error emitted).1⟩

end

end FlowIR
