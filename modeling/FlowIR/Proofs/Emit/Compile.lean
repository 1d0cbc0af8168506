import FlowIR.Proofs.Emit.Scalar

/-!
A function from its declarations and its body.

`Session.compile` begins a function, declares what its header lists, and completes it with its body.
What it compiles to depends on the body alone once the prolog has been placed
(`Session.exists_compile_eq`). Code that uses no labels can always be finished, and then a run of the
function comes to the code of the body (`Session.compile_of_adds`).
-/

namespace FlowIR

open Machine Build Session Emit

/-- The graph of a function with the given declarations and the given body. -/
def Session.compile (s : Session) (name : String) (signature : Signature) (h : Header) (body : Stmt) :
    Except (Halt BuildError) Graph :=
  match s.begin name signature with
  | .error f => .error (.fault f)
  | .ok b₀ =>
    match prepare h.calls b₀ with
    | .error f => .error (.fault f)
    | .ok b =>
      match function body b with
      | .error e _ => .error e
      | .ok g _ => .ok g

/-- Whether a function compiles, and a run of it ends in a way that passes a test. -/
def Session.ends (s : Session) (name : String) (signature : Signature) (h : Header) (body : Stmt)
    (args : Array Bytes) (world : World) (test : Checked (Outcome × Machine) → Bool) : Bool :=
  match s.compile name signature h body with
  | .error _ => false
  | .ok g => test (execute g args (start g {} world))

theorem Session.exists_of_ends {s : Session} {name : String} {signature : Signature} {h : Header} {body : Stmt}
    {args : Array Bytes} {world : World} {test : Checked (Outcome × Machine) → Bool}
    (passes : s.ends name signature h body args world test = true) :
    ∃ g, s.compile name signature h body = .ok g ∧
      test (execute g args (start g {} world)) = true := by
  unfold ends at passes
  split at passes
  · cases passes
  · next g compiled => exact ⟨g, compiled, passes⟩

section Ends

variable {s : Session} {name : String} {signature : Signature} {h : Header} {body : Stmt} {args : Array Bytes}
  {world : World}

theorem Session.exists_fault (faults : s.ends name signature h body args world (!·.isOk) = true) :
    ∃ g f, s.compile name signature h body = .ok g ∧ execute g args (start g {} world) = .error f := by
  obtain ⟨g, compiled, test⟩ := exists_of_ends faults
  cases ran : execute g args (start g {} world) with
  | error f => exact ⟨g, f, compiled, ran⟩
  | ok _ => simp [ran, Except.isOk, Except.toBool] at test

theorem Session.exists_returned {v : Option Bytes} (returns : s.ends name signature h body args world
      (fun r => r.toOption.map Prod.fst = some (.returned v)) = true) :
    ∃ g, s.compile name signature h body = .ok g ∧
      ∃ m, execute g args (start g {} world) = .ok (.returned v, m) := by
  obtain ⟨g, compiled, test⟩ := exists_of_ends returns
  cases ran : execute g args (start g {} world) with
  | error _ => simp [ran, Except.toOption] at test
  | ok last =>
    have outcome : last.1 = .returned v := by simpa [ran, Except.toOption] using test
    exact ⟨g, compiled, last.2, by rw [ran, ← outcome]⟩

end Ends

/-- The graph of a function whose prolog has been placed. -/
def Builder.complete (b : Builder) (body : Stmt) : Except (Halt BuildError) Graph :=
  match stmt body b.cursor with
  | .error e _ => .error e
  | .ok _ c =>
    match finish c.builder with
    | .error e _ => .error e
    | .ok g _ => .ok g

/-- The function begins as `start`, and is `b` once its variables and labels have been declared and its
prolog has been placed. -/
structure Session.Prepares (s : Session) (signature : Signature) (h : Header) (start b : Builder)
    (spills : List InstrId) : Prop where
  opened : start.Opened b (h.vars start.convention) (h.locals.map (·.ty.shape)) h.labels spills
  placed : start.convention.Placed (h.params.map (·.ty))
  sound : ∃ su, b.Sound (fun _ => False) su
  signature : b.signature = signature
  options : b.options = s.options

variable {s : Session} {name : String} {signature : Signature} {h : Header} {start b : Builder}
  {spills : List InstrId} {body : Stmt}

/-- A function whose declarations have been made is prepared by placing its prolog. -/
theorem Session.exists_prepares {b₀ b₁ : Builder} (target : s.target = {})
    (params : h.params.map (·.ty) = signature.params) (begins : s.begin name signature = .ok b₀)
    (prepared : prepare h.calls b₀ = .ok b₁) :
    ∃ b spills, placeProlog b₁ = .ok () b ∧ s.Prepares signature h b₀ b spills := by
  obtain ⟨begun, sig, options, same⟩ := begin_begun target begins
  obtain ⟨b₁', prepared', declared⟩ := Header.prepare_declared begun params
  cases prepared.symm.trans prepared'
  obtain ⟨⟨⟩, b, placed, spills, opened⟩ := (placeProlog_opened begun params declared).exists_ok
  have apportioned := begin_apportioned begins
  obtain ⟨issued, kept⟩ := prepare_apportions apportioned prepared
  have sound₁ := prepare_sound (begin_sound begins) apportioned prepared
  obtain ⟨sound, -⟩ := (placeProlog_sound sound₁ kept).of_ok placed
  refine ⟨b, spills, placed, ?_⟩
  exact
    { opened
      placed := params ▸ (Signature.placed_convention? same).1
      sound := ⟨_, sound⟩
      signature := opened.signature.trans sig
      options := opened.options.trans options }

/-- Once the prolog has been placed, a function is completed by its body. -/
theorem Emit.function_of_placed {b₁ b : Builder} (placed : placeProlog b₁ = .ok () b) (body : Stmt) :
    function body b₁ = match stmt body b.cursor with
      | .error e c => .error e c.builder
      | .ok _ c => finish c.builder := by
  show EStateM.bind placeProlog _ b₁ = _
  simp only [EStateM.bind, placed]
  show EStateM.bind (fromEntry (stmt body)) _ b = _
  unfold EStateM.bind fromEntry Builder.cursor
  cases stmt body { builder := b, current := b.entry } <;> rfl

/-- What a function compiles to, by its body. -/
theorem Session.exists_compile_eq (name : String) {convention : Convention} (target : s.target = {})
    (params : h.params.map (·.ty) = signature.params) (found : signature.convention? {} = some convention) :
    ∃ start b spills, start.convention = convention ∧ s.Prepares signature h start b spills ∧
      ∀ body, s.compile name signature h body = b.complete body := by
  obtain ⟨b₀, begins⟩ : ∃ b₀, s.begin name signature = .ok b₀ := by
    unfold begin
    rw [target, found]
    exact ⟨_, rfl⟩
  obtain ⟨begun, -, -, same⟩ := begin_begun target begins
  cases found.symm.trans same
  obtain ⟨b₁, prepared, -⟩ := Header.prepare_declared begun params
  obtain ⟨b, spills, placed, prepares⟩ := exists_prepares target params begins prepared
  refine ⟨b₀, b, spills, rfl, prepares, fun body => ?_⟩
  unfold compile
  simp only [begins, prepared]
  rw [function_of_placed placed body]
  unfold Builder.complete
  cases stmt body b.cursor <;> rfl

namespace Session.Prepares

variable (p : s.Prepares signature h start b spills)

include p

/-- The cursor at the start of the body is a sound one. -/
theorem sound_cursor : ∃ su, b.cursor.Sound (fun _ => False) su := by
  obtain ⟨su, sound⟩ := p.sound
  exact ⟨su, sound, p.opened.placed, sound.formed.entry_mem, by simp [Builder.cursor], by simp [Builder.cursor],
    by simp [Builder.cursor]⟩

/-- The cursor at the end of the body is a sound one, and the function has grown. -/
theorem sound_of_ok {c : Cursor} (run : stmt body b.cursor = .ok () c) :
    ∃ su, c.Sound (fun _ => False) su ∧ b.Extends c.builder := by
  obtain ⟨su, sound⟩ := p.sound_cursor
  obtain ⟨su', grows, sound', -⟩ := (stmt_emittable body sound).of_ok run
  exact ⟨su', sound', grows.builder⟩

/-- A function whose body uses no labels can be finished. -/
theorem complete_of_adds {c : Cursor} (run : stmt body b.cursor = .ok () c) (adds : b.cursor.Adds c) :
    ∃ g, b.complete body = .ok g ∧ c.builder.Finishes g := by
  obtain ⟨su, sound, -⟩ := p.sound_of_ok run
  have labels : c.builder.labels = { labels := (h.labels.map fun span => ({ span } : Label)).toArray } :=
    adds.labels.trans p.opened.labels
  have dangling : c.builder.labels.dangling = [] := by
    rw [labels]
    unfold LabelTable.dangling
    refine List.filter_eq_nil_iff.mpr fun l _ => ?_
    simp only [LabelTable.get?, List.getElem?_toArray, List.getElem?_map]
    cases h.labels[l.index]? <;> simp [Label.isDangling]
  have pending : c.builder.labels.pending = 0 := by
    rw [labels]
    rfl
  have whole : c.graph.Whole := fun i op hop => by
    obtain ⟨instr, found, rfl⟩ := Option.map_eq_some_iff.mp hop
    by_cases old : i.index < b.graph.instrs.size
    · have there : b.graph.instrs[i.index]? = some b.graph.instrs[i.index] := by simp [old]
      cases found.symm.trans (adds.instr _ _ there)
      exact (p.opened.settled there).1
    · exact adds.whole i.index instr (Nat.le_of_not_lt old) found
  have finish := Build.finish_finishes sound.builder sound.placed dangling pending
  unfold Builder.complete
  rw [run]
  dsimp only
  cases finished : Build.finish c.builder with
  | ok g _ => exact ⟨g, rfl, finish.of_ok finished⟩
  | error e after =>
    refine absurd ⟨whole, ?_⟩ (finish.of_error finished)
    rw [labels]

end Session.Prepares

/-- A run of a finished function starts in the entry block. -/
theorem Machine.execute_eq {b : Builder} {g : Graph} {args : Array Bytes} {m : Machine} (finishes : b.Finishes g)
    (sound : ∃ su, b.Sound (fun _ => False) su) :
    execute g args m = Config.outcome g args stepLimit (.before b.entry (g.body b.entry) m) := by
  obtain ⟨su, sound⟩ := sound
  obtain ⟨x, hx⟩ := Graph.exists_block (g := g) (x := b.entry)
    (Nat.lt_of_lt_of_le (sound.formed.placed _ sound.formed.entry_mem) finishes.becomes.size)
  unfold execute
  rw [finishes.entry]
  simp only [hx, Graph.body_of_block hx]
  rfl

/-- What is known where the body of a function over integers starts. -/
structure Session.Starts (s : Session) (signature : Signature) (h : Header) (b : Builder) : Prop where
  able : b.cursor.Able
  isOpen : b.cursor.Open
  declares : b.cursor.Declares h.scalars fun v => ⟨v.index⟩
  typed : ∀ v t, h.scalars v = some t → ∃ x, b.var? v = some x ∧ x.ty = t
  returnSlot : b.returnSlot = none
  returns : b.convention.Returns signature.result
  signature : b.signature = signature
  options : b.options = s.options

/-- The body of a function over integers can be started. -/
theorem Session.exists_starts (name : String) (target : s.target = {}) (plain : h.isPlain = true)
    (params : h.params.map (·.ty) = signature.params)
    (result : signature.result.isInteger = true ∨ signature.result = .void) :
    ∃ start b spills, s.Prepares signature h start b spills ∧ s.Starts signature h b ∧
      start.convention.Simple ∧ start.convention.chainIndex = 0 ∧
      ∀ body, s.compile name signature h body = b.complete body := by
  have integers : ∀ t ∈ signature.params, t.isInteger = true := by
    rw [← params]
    intro t ht
    obtain ⟨d, hd, rfl⟩ := List.mem_map.mp ht
    exact Header.isInteger_of_param plain d hd
  obtain ⟨convention, found, simple, first, returns⟩ := Signature.exists_convention integers result
  obtain ⟨start, b, spills, rfl, prepares, compile⟩ :=
    exists_compile_eq name target params found
  have opened := prepares.opened
  refine ⟨start, b, spills, prepares, ?_, simple, first, compile⟩
  exact
    { able := opened.able
      isOpen := opened.isOpen
      declares := fun v t known => opened.declares simple prepares.placed.types v t
        (Header.scalars_eq_some_iff.mp known).1
      typed := fun v t known => by
        obtain ⟨d, decl, rfl⟩ := Option.map_eq_some_iff.mp (Header.scalars_eq_some_iff.mp known).1
        obtain ⟨x, var, -, ty⟩ := Header.getElem?_vars simple prepares.placed.types decl
        obtain ⟨x', var', -, ty'⟩ := opened.vars v.index x var
        exact ⟨x', var', ty'.trans ty⟩
      returnSlot := opened.returnSlot
      signature := prepares.signature
      options := prepares.options
      returns := opened.convention ▸ returns }

/-- A function over integers compiles if code can be emitted for its body that uses no labels. A run of it
is cut off, or ends as the code of the body does. -/
theorem Session.compile_of_adds (name : String) {Q : Builder → Cursor → Prop} (target : s.target = {})
    (plain : h.isPlain = true) (params : h.params.map (·.ty) = signature.params)
    (result : signature.result.isInteger = true ∨ signature.result = .void) (emits : ∀ b, s.Starts signature h b →
      Succeeds (stmt body) b.cursor fun _ c => b.cursor.Adds c ∧ Q b c) :
    ∃ g b c, s.compile name signature h body = .ok g ∧ s.Starts signature h b ∧ Q b c ∧
      c.builder.Finishes g ∧ c.current ∈ c.graph.layout ∧
      ∀ env actuals world P, actuals.length = h.params.length → (∀ t, P t → ∃ r, t = .over r) →
        (∀ (S : Scene) left m, left ≤ stepLimit → S.graph = g → S.args = h.physical env actuals →
          S.Arrived h c.builder actuals world m → S.Leads left (b.cursor.spot S m) P) →
        (∃ m, execute g (h.physical env actuals) (Machine.start g {} world) =
          .ok (.trapped .stepLimit, m)) ∨
        ∃ r, P (.over r) ∧ execute g (h.physical env actuals) (Machine.start g {} world) = r := by
  obtain ⟨start, b, spills, prepares, starts, simple, first, compile⟩ :=
    exists_starts name target plain params result
  have opened := prepares.opened
  obtain ⟨⟨⟩, c, run, adds, q⟩ := (emits b starts).exists_ok
  obtain ⟨g, completed, finishes⟩ := prepares.complete_of_adds run adds
  obtain ⟨su, sound, -⟩ := prepares.sound_of_ok run
  refine ⟨g, b, c, (compile body).trans completed, starts, q, finishes, sound.current, ?_⟩
  intro env actuals world P length ends later
  have entry : c.builder.entry = ⟨0⟩ := adds.builder.entry.trans opened.entry
  have leads := leads_body opened simple prepares.placed first plain adds.builder adds.stocks finishes length
    later
  rw [execute_eq finishes ⟨su, sound.builder⟩, entry]
  exact leads.outcome_eq ends

end FlowIR
