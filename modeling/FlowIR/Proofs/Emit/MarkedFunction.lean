import FlowIR.Proofs.Build.Owned
import FlowIR.Proofs.Emit.Linked
import FlowIR.Proofs.Emit.Compile

/-!
A function with error nodes in it is completed wherever the function without them is.

What may stand in the way when a function is finished is a label that is used and has no place, an address of a label
that is still a placeholder, or something that is not there. The first is no error once an error node has been seen, and
the others never happen (`Build.finish_succeeds`).
-/

namespace FlowIR

open Build List

namespace Build

variable {b : Builder} {su : Supply} {w : Footing}

/-! ### Finishing -/

theorem closeBlock_fits (op : Op) {x : BlockId} (there : x.index < w.blocks) :
    Fits w (closeBlock op x) fun _ _ => True := by
  refine .get fun b fit here => ?_
  cases here
  obtain ⟨ended, run⟩ := fit.exists_isTerminated there
  refine (Fits.checked (Q := fun _ _ => True) ⟨ended, run, trivial⟩).bind fun ended v le _ => ?_
  split
  · exact .pure trivial
  · exact (newInstr_fits _).bind fun i u le' made => append_fits (le'.block (le.block there)) made

theorem closeBlocks_fit (fit : b.Fit) (laid : ∀ x ∈ b.graph.layout, x.index < b.graph.blocks.size) :
    Succeeds closeBlocks b fun _ after => after.Fit := by
  have closed : Fits b.footing
      (b.graph.layout.forM (closeBlock (if b.convention.result.passing.isIgnored then .ret none else .unreachable)))
      fun _ _ => True :=
    .forM _ fun x hx v le => closeBlock_fits _ (le.block (laid x hx))
  exact .get ((closed b fit rfl).imp fun _ _ h => h.1)

/-- Once an error node has been seen, a label without a place is given a block that traps. -/
theorem closeLabel_fit (fit : b.Fit) (seen : b.trail.seen = true) {l : LabelId} (known : b.scope.labels l = true) :
    Succeeds (closeLabel l) b fun _ after => after.Fit ∧ after.trail.seen = true ∧ after.scope = b.scope := by
  refine .get (.get ?_)
  dsimp only
  rw [if_pos (show b.errorSeen = true from seen)]
  refine ensures_bind.mpr ((labelBlock_fit fit l _).mono ?_ fun _ _ unknown => by cases known.symm.trans unknown)
  rintro x mid ⟨-, fit', le, there⟩
  have rest : Fits mid.footing (do
      modify fun b => { b with graph := b.graph.attach x }
      let i ← newInstr { op := .unreachable }
      append x i
      resolve l x : BuildM Unit) fun _ _ => True :=
    (attach_fits x).bind fun _ v le _ => (newInstr_fits _).bind fun i u le' made =>
      (append_fits (le'.block (le.block there)) made).bind fun _ t le'' _ =>
        resolve_fits l (le''.block (le'.block (le.block there)))
  refine (rest.next fit' le).imp fun _ _ kept => ⟨kept.1, ?_, kept.2.1.scope⟩
  exact (congrArg Trail.seen kept.2.1.trail).trans seen

theorem closeLabels_fit : ∀ (ls : List LabelId) {b : Builder}, b.Fit → b.trail.seen = true →
    (∀ l ∈ ls, b.scope.labels l = true) → Succeeds (ls.forM closeLabel) b fun _ after => after.Fit
  | [], _, fit, _, _ => fit
  | l :: ls, b, fit, seen, known => by
    obtain ⟨here, rest⟩ := forall_mem_cons.mp known
    refine Ensures.bind (closeLabel_fit fit seen here) ?_
    rintro - mid ⟨fit', seen', scope⟩
    exact closeLabels_fit ls fit' seen' (scope ▸ rest)

/-- The labels that are used and have no place. -/
theorem mem_dangling {l : LabelId} : l ∈ b.labels.dangling ↔
    b.scope.labels l = true ∧ b.trail.used l = true ∧ b.trail.placed l = false := by
  unfold LabelTable.dangling Builder.scope Builder.trail LabelTable.trail LabelTable.status
  dsimp only
  rw [mem_filter]
  cases found : b.labels.get? l with
  | none => simp
  | some x =>
    have inside : l.index < b.labels.labels.size := (Array.getElem?_eq_some_iff.mp found).1
    have known : l ∈ (range b.labels.labels.size).map LabelId.mk :=
      mem_map.mpr ⟨l.index, mem_range.mpr inside, rfl⟩
    simp [known, Label.isDangling, Label.isUsed, and_comm]

/-- A function whose labels have been tracked can be finished, if an error node has been seen or every label that is
used has its place. -/
theorem finish_succeeds (sound : b.Sound (fun _ => False) su) (placed : b.prologPlaced = true) (fit : b.Fit)
    (tracked : b.Tracked True) (labels : b.errorSeen = true ∨ b.labels.dangling = []) :
    ∃ g last, finish b = .ok g last := by
  suffices done : Succeeds finish b fun _ _ => True by
    obtain ⟨g, last, run, -⟩ := done.exists_ok
    exact ⟨g, last, run⟩
  have ended : Notes True true closeBlocks b fun _ _ => True := closeBlocks_notes tracked
  refine ensures_finish (P := fun mid => mid.Fit ∧ mid.Tracked True ∧ mid.Closing su mid.labels.dangling ∧
      (mid.errorSeen = true ∨ mid.labels.dangling = []))
    (R := fun mid => mid.Fit ∧ mid.Closing su [] ∧ mid.Tied True ∧ ∀ l, mid.labels.mark l = none) placed ?_ ?_ ?_ ?_
  · refine ((closeBlocks_succeeds sound placed).and ((closeBlocks_fit fit sound.formed.placed).and ended)).mono ?_
      fun _ _ he => he.1
    rintro - mid ⟨⟨closes, sound₁, ends⟩, fit₁, tracked₁, -⟩
    obtain ⟨g, rfl⟩ := closes.same
    exact ⟨fit₁, tracked₁, sound₁.closing placed ends, labels⟩
  · rintro mid ⟨fit, tracked, closing, labels⟩
    have closed : Succeeds (mid.labels.dangling.forM closeLabel) mid fun _ after => after.Fit := by
      rcases labels with seen | none
      · exact closeLabels_fit _ fit seen fun l hl => (mem_dangling.mp hl).1
      · rw [none]
        exact fit
    exact (closed.and ((closeLabels_ensures _ mid closing).and (closeLabels_ties _ tracked.toTied
      tracked.mem_dangling))).mono (fun _ _ ⟨fit, ⟨closing, _⟩, tied⟩ => ⟨fit, closing, tied⟩) fun _ _ he => he.1
  · rintro mid ⟨-, -, tied, unmarked⟩ left
    rw [LabelTable.pending_eq_zero tied.paired unmarked] at left
    exact absurd left (Nat.lt_irrefl 0)
  · rintro mid ⟨fit, closing, tied, unmarked⟩
    exact (conclude_ensures mid).mono (fun _ _ _ => trivial) fun _ _ he =>
      he.1 (closing.sealable (tied.whole unmarked trivial) fit.branches)

end Build

/-- Where no error node has been seen, a function that can be finished has a place for every label that is used. -/
theorem Build.dangling_of_finish {b : Builder} {su : Supply} {g : Graph} {last : Builder}
    (sound : b.Sound (fun _ => False) su) (placed : b.prologPlaced = true) (calm : b.errorSeen = false)
    (run : finish b = .ok g last) : b.labels.dangling = [] := by
  unfold finish at run
  obtain ⟨_, b₀, first, run⟩ := exists_of_bind run
  cases (placeProlog_skips placed).symm.trans first
  obtain ⟨_, b₁, second, run⟩ := exists_of_bind run
  obtain ⟨g₁, rfl⟩ := ((closeBlocks_succeeds sound placed).of_ok second).1.same
  obtain ⟨_, b₂, here, run⟩ := exists_of_bind run
  cases here
  obtain ⟨_, b₃, closed, -⟩ := exists_of_bind run
  cases dangling : b.labels.dangling with
  | nil => rfl
  | cons l ls =>
    rw [show ({ b with graph := g₁ } : Builder).labels.dangling = l :: ls from dangling] at closed
    obtain ⟨_, b₄, failed, -⟩ := exists_of_bind closed
    unfold closeLabel at failed
    rw [get_bind_apply, get_bind_apply, if_neg (by simp [calm])] at failed
    cases failed

/-! ### Returned addresses -/

/-- The statement has a return of these values somewhere in it. -/
inductive Stmt.Returns (values : List Expr) : Stmt → Prop
  | ret (span : Span) : Returns values (.ret span values)
  | block {body : List Stmt} {s : Stmt} : s ∈ body → Returns values s → Returns values (.block body)
  | yes {cond : Expr} {yes no : Stmt} : Returns values yes → Returns values (.ite cond yes no)
  | no {cond : Expr} {yes no : Stmt} : Returns values no → Returns values (.ite cond yes no)
  | case {span : Span} {value : Expr} {cases : List (List Expr × Stmt)} {c : List Expr × Stmt} :
      c ∈ cases → Returns values c.2 → Returns values (.switch span value cases)
  | body {body : Stmt} {handler cleanup : Option Stmt} :
      Returns values body → Returns values (.attempt body handler cleanup)
  | handler {body handler : Stmt} {cleanup : Option Stmt} :
      Returns values handler → Returns values (.attempt body (some handler) cleanup)
  | cleanup {body cleanup : Stmt} {handler : Option Stmt} :
      Returns values cleanup → Returns values (.attempt body handler (some cleanup))
  | check {span : Span} {epilogue : Expr} {check : Stmt} :
      Returns values check → Returns values (.defer span epilogue check)

namespace Stmt

mutual

/-- A statement that returns just the address of a label has such a return. -/
theorem returns_of_returnsAddress : ∀ {s : Stmt}, s.returnsAddress = true →
    ∃ e : Expr, e.isLabelAddress = true ∧ s.Returns [e]
  | .ret span [value], h => ⟨value, h, .ret span⟩
  | .block body, h =>
    have ⟨s, mem, e, isAddress, returns⟩ := returns_of_returnAddress h
    ⟨e, isAddress, .block mem returns⟩
  | .ite _ yes no, h => by
    rcases Bool.or_eq_true_iff.mp h with first | second
    · obtain ⟨e, isAddress, returns⟩ := returns_of_returnsAddress first
      exact ⟨e, isAddress, .yes returns⟩
    · obtain ⟨e, isAddress, returns⟩ := returns_of_returnsAddress second
      exact ⟨e, isAddress, .no returns⟩
  | .switch _ _ cases, h =>
    have ⟨c, mem, e, isAddress, returns⟩ := returns_of_casesReturnAddress h
    ⟨e, isAddress, .case mem returns⟩
  | .attempt body none none, h =>
    have ⟨e, isAddress, returns⟩ := returns_of_returnsAddress (s := body) h
    ⟨e, isAddress, .body returns⟩
  | .attempt body (some handler) none, h => by
    rcases Bool.or_eq_true_iff.mp h with first | second
    · obtain ⟨e, isAddress, returns⟩ := returns_of_returnsAddress first
      exact ⟨e, isAddress, .body returns⟩
    · obtain ⟨e, isAddress, returns⟩ := returns_of_returnsAddress second
      exact ⟨e, isAddress, .handler returns⟩
  | .attempt _ handler (some cleanup), h => by
    have last : cleanup.returnsAddress = true := by cases handler <;> exact h
    obtain ⟨e, isAddress, returns⟩ := returns_of_returnsAddress last
    exact ⟨e, isAddress, .cleanup returns⟩
  | .defer _ _ check, h =>
    have ⟨e, isAddress, returns⟩ := returns_of_returnsAddress (s := check) h
    ⟨e, isAddress, .check returns⟩

theorem returns_of_returnAddress : ∀ {ss : List Stmt}, returnAddress ss = true →
    ∃ s ∈ ss, ∃ e : Expr, e.isLabelAddress = true ∧ s.Returns [e]
  | s :: ss, h => by
    rcases Bool.or_eq_true_iff.mp h with first | second
    · exact ⟨s, mem_cons_self, returns_of_returnsAddress first⟩
    · obtain ⟨s', mem, found⟩ := returns_of_returnAddress second
      exact ⟨s', mem_cons_of_mem s mem, found⟩

theorem returns_of_casesReturnAddress : ∀ {cases : List (List Expr × Stmt)}, casesReturnAddress cases = true →
    ∃ c ∈ cases, ∃ e : Expr, e.isLabelAddress = true ∧ c.2.Returns [e]
  | (values, body) :: cases, h => by
    rcases Bool.or_eq_true_iff.mp h with first | second
    · exact ⟨(values, body), mem_cons_self, returns_of_returnsAddress first⟩
    · obtain ⟨c, mem, found⟩ := returns_of_casesReturnAddress second
      exact ⟨c, mem_cons_of_mem _ mem, found⟩

end

theorem MarksAll.exists_of_mem : ∀ {ss ss' : List Stmt}, MarksAll ss ss' → ∀ s' ∈ ss', ∃ s ∈ ss, s.Marks s'
  | _, _, .cons head tail, s', mem => by
    rcases mem_cons.mp mem with rfl | later
    · exact ⟨_, mem_cons_self, head⟩
    · obtain ⟨s, there, marks⟩ := tail.exists_of_mem s' later
      exact ⟨s, mem_cons_of_mem _ there, marks⟩

theorem MarksCases.exists_of_mem : ∀ {cases cases' : List (List Expr × Stmt)}, MarksCases cases cases' →
    ∀ c' ∈ cases', ∃ c ∈ cases, c.2.Marks c'.2
  | _, _, .cons _ head tail, c', mem => by
    rcases mem_cons.mp mem with rfl | later
    · exact ⟨_, mem_cons_self, head⟩
    · obtain ⟨c, there, marks⟩ := tail.exists_of_mem c' later
      exact ⟨c, mem_cons_of_mem _ there, marks⟩

/-- A return in the marked statement stands where there is one in the statement. -/
theorem Returns.of_marks {values' : List Expr} {s s' : Stmt} (h : s'.Returns values') (marks : s.Marks s') :
    ∃ values, s.Returns values ∧ Expr.MarksAll values values' := by
  induction h generalizing s with
  | ret span =>
    cases marks with
    | ret _ all => exact ⟨_, .ret span, all⟩
  | block mem _ ih =>
    cases marks with
    | block all =>
      obtain ⟨s, there, marks⟩ := all.exists_of_mem _ mem
      obtain ⟨values, returns, match'⟩ := ih marks
      exact ⟨values, .block there returns, match'⟩
  | yes _ ih =>
    cases marks with
    | ite _ first _ =>
      obtain ⟨values, returns, all⟩ := ih first
      exact ⟨values, .yes returns, all⟩
  | no _ ih =>
    cases marks with
    | ite _ _ second =>
      obtain ⟨values, returns, all⟩ := ih second
      exact ⟨values, .no returns, all⟩
  | case mem _ ih =>
    cases marks with
    | switch _ _ every =>
      obtain ⟨c, there, marks⟩ := every.exists_of_mem _ mem
      obtain ⟨values, returns, all⟩ := ih marks
      exact ⟨values, .case there returns, all⟩
  | body _ ih =>
    cases marks with
    | attempt first _ _ =>
      obtain ⟨values, returns, all⟩ := ih first
      exact ⟨values, .body returns, all⟩
  | handler _ ih =>
    cases marks with
    | attempt _ second _ =>
      cases second with
      | some marks =>
        obtain ⟨values, returns, all⟩ := ih marks
        exact ⟨values, .handler returns, all⟩
  | cleanup _ ih =>
    cases marks with
    | attempt _ _ third =>
      cases third with
      | some marks =>
        obtain ⟨values, returns, all⟩ := ih marks
        exact ⟨values, .cleanup returns, all⟩
  | check _ ih =>
    cases marks with
    | defer _ _ marks =>
      obtain ⟨values, returns, all⟩ := ih marks
      exact ⟨values, .check returns, all⟩

/-- A single returned expression has the type of the result, and the address of a label is a pointer. -/
def ReturnsTyped (result : Ty) (s : Stmt) : Prop :=
  ∀ e : Expr, s.Returns [e] → e.ty = result ∧ (e.isLabelAddress = true → ∃ t, e.ty = .ptr t)

/-- Where the marked statement returns just the address of a label, the result is a pointer. -/
theorem ReturnsTyped.result_eq {result : Ty} {s s' : Stmt} (typed : s.ReturnsTyped result) (marks : s.Marks s')
    (returns : s'.returnsAddress = true) : ∃ t, result = .ptr t := by
  obtain ⟨e', isAddress, there⟩ := returns_of_returnsAddress returns
  obtain ⟨values, first, all⟩ := there.of_marks marks
  cases all with
  | cons head tail =>
    cases tail
    cases head with
    | labelAddress n l =>
      obtain ⟨same, pointer⟩ := typed _ first
      obtain ⟨t, eq⟩ := pointer rfl
      exact ⟨t, same.symm.trans eq⟩
    | _ => cases isAddress

end Stmt

/-- On the default target a pointer is returned as it is. -/
theorem Signature.loadsResult_of_ptr {sig : Signature} {c : Convention} {t : Ty} (pointer : sig.result = .ptr t)
    (found : sig.convention? {} = some c) : c.loadsResult = false := by
  obtain ⟨params, result, internal⟩ := sig
  cases pointer
  have passed : Convention.passResult? {} ⟨params, .ptr t, internal⟩ = some (.direct [(Ty.ptr t).shape] .none) := by
    cases internal <;> cases t <;> cbv
  unfold Signature.convention? at found
  rw [passed] at found
  obtain ⟨_, ⟨⟩, found⟩ := Option.bind_eq_some_iff.mp found
  obtain ⟨ps, -, found⟩ := Option.bind_eq_some_iff.mp found
  cases found
  cases t <;> rfl

/-! ### Whole functions -/

namespace Emit

/-- Where the code of a body ends, the function is as sound as it was before. -/
theorem sound_of_stmt {b : Builder} {su : Supply} (sound : b.Sound (fun _ => False) su) (placed : b.prologPlaced = true)
    {body : Stmt} {c : Cursor} (run : stmt body { builder := b, current := b.entry } = .ok () c) :
    ∃ su', c.builder.Sound (fun _ => False) su' ∧ c.builder.prologPlaced = true := by
  have start : Cursor.Sound (fun _ => False) su { builder := b, current := b.entry } :=
    ⟨sound, placed, sound.formed.entry_mem, by simp, by simp, by simp⟩
  obtain ⟨su', -, sound', -⟩ := (stmt_emittable body start).of_ok run
  exact ⟨su', sound'.builder, sound'.placed⟩

/-- On the default target: whatever is called to set a function up, if the function can be completed with the body, it
can be completed with error nodes in place of any parts of the body. -/
theorem function_marked_completes {s : Session} {name : String} {signature : Signature} {calls : List Build.Call}
    {b₀ b : Builder} {body body' : Stmt} {g : Graph} {last : Builder} (target : s.target = {})
    (begun : s.begin name signature = .ok b₀) (prepared : prepare calls b₀ = .ok b)
    (emitted : function body b = .ok g last) (typed : body.ReturnsTyped signature.result) (marks : body.Marks body') :
    ∃ g' last', function body' b = .ok g' last' := by
  obtain ⟨_, opened, prolog, rest⟩ := exists_of_bind emitted
  obtain ⟨_, mid, code, finished⟩ := exists_of_bind rest
  have start := Session.begin_apportioned begun
  obtain ⟨issued, kept⟩ := prepare_apportions start prepared
  have prepared_sound := prepare_sound (Session.begin_sound begun) start prepared
  obtain ⟨sound, placed, -⟩ := (placeProlog_sound prepared_sound kept).of_ok prolog
  have tracked : ∀ {strict : Prop}, opened.Tracked strict := fun {strict} =>
    ((placeProlog_notes (prepare_tracked (Session.begin_tracked begun) start prepared) kept).of_ok prolog).1
  have apportioned := ((placeProlog_stores kept).of_ok prolog).1.2
  have fit := apportioned.fit sound
  have allowed : opened.convention.loadsResult = true → body'.returnsAddress = false := by
    intro loads
    refine Bool.eq_false_iff.mpr fun returns => ?_
    obtain ⟨t, pointer⟩ := typed.result_eq marks returns
    rw [Signature.loadsResult_of_ptr pointer (target ▸ apportioned.convention)] at loads
    cases loads
  -- There is a way along the steps of the body, and so along those of the marked body.
  obtain ⟨c, emits, rfl⟩ := exists_of_fromEntry code
  obtain ⟨t, run, -, -, below, -⟩ := (stmt_walks fit tracked body False.elim).of_ok emits
  obtain ⟨t', run', covers⟩ := Stmt.events_cover opened.scope false marks opened.trail opened.trail t
    ⟨fun _ h => h, fun _ => rfl⟩ run
  obtain ⟨_, c', emits', u, same', fit', tracked', below', -⟩ := Ensures.exists_ok
    ((stmt_walks fit tracked body' fun (_ : True) => allowed).mono (fun _ _ h =>
    h) fun _ _ he => by cases run'.symm.trans he.2)
  cases same'.symm.trans run'
  obtain ⟨su, sound₁, placed₁⟩ := sound_of_stmt sound placed emits
  obtain ⟨su', sound₂, placed₂⟩ := sound_of_stmt sound placed emits'
  have labels : c'.builder.errorSeen = true ∨ c'.builder.labels.dangling = [] := by
    cases calm : c'.builder.errorSeen with
    | true => exact .inl rfl
    | false =>
      have scope : c'.builder.scope = c.builder.scope := below'.scope.trans below.scope.symm
      have trail : c'.builder.trail = c.builder.trail := by
        have trails : c'.builder.trail = t' := below'.trail
        exact trails.trans ((covers.exact (by rw [← trails]; exact calm)).trans below.trail.symm)
      have none := dangling_of_finish sound₁ placed₁ ((congrArg Trail.seen trail).symm.trans calm) finished
      refine .inr (eq_nil_iff_forall_not_mem.mpr fun l hl => ?_)
      have mem : l ∈ c.builder.labels.dangling := by
        rw [mem_dangling, scope, trail] at hl
        exact mem_dangling.mpr hl
      rw [none] at mem
      cases mem
  obtain ⟨g', last', done⟩ := finish_succeeds sound₂ placed₂ fit' tracked' labels
  have whole : Succeeds (function body') b fun _ _ => True := .after prolog
    (ensures_bind.mpr (ensures_fromEntry.mpr (.of_run emits' (.of_run done trivial))))
  obtain ⟨g', last', run, -⟩ := whole.exists_ok
  exact ⟨g', last', run⟩

/-- A label gets its place in a cleanup, and a return has a call in it. -/
def cleanupLabel : Stmt :=
  .block [.goto {} ⟨0⟩, .attempt (.ret {} [.call { ty := .ptr .void } "h" [.var { ty := .i64 } ⟨0⟩]]) none
    (some (.label {} ⟨0⟩)), .ret {} [.labelAddress { ty := .ptr .void } ⟨0⟩]]

/-- The label loses its place, and the call loses its argument. -/
theorem function_marked_completes_label : ∃ b₀ b g last g' last',
    Session.begin {} "f" { params := [], result := .ptr .void } = .ok b₀ ∧
    prepare [.newLabel {}, .registerLocal "x" .i64 none false {}] b₀ = .ok b ∧
    function cleanupLabel b = .ok g last ∧
    function (.block [.goto {} ⟨0⟩, .attempt (.ret {} [.call { ty := .ptr .void } "h" [.error { ty := .i64 }]]) none
      (some .error), .ret {} [.labelAddress { ty := .ptr .void } ⟨0⟩]]) b = .ok g' last' := by
  have ready : completes {} "f" { params := [], result := .ptr .void }
    [.newLabel {}, .registerLocal "x" .i64 none false {}] cleanupLabel = true := by decide +kernel
  have typed : Stmt.ReturnsTyped (.ptr .void) cleanupLabel := by
    rintro e (_ | ⟨mem, returns⟩)
    simp only [mem_cons, not_mem_nil, or_false] at mem
    rcases mem with rfl | rfl | rfl
    · cases returns
    · cases returns with
      | body returns =>
        cases returns
        exact ⟨rfl, fun no => by cases no⟩
      | cleanup returns => cases returns
    · cases returns
      exact ⟨rfl, fun _ => ⟨_, rfl⟩⟩
  obtain ⟨b₀, b, g, last, begun, prepared, emitted, g', last', marked⟩ := exists_of_completes ready
    fun _ _ _ _ begun prepared emitted _ => function_marked_completes rfl begun prepared emitted typed
      (.block (.cons (.goto {} ⟨0⟩)
      (.cons (.attempt (.ret {} (.cons (.call _ "h" (.cons (.error _ { ty := .i64 } rfl) .nil)) .nil)) .none
        (.some (.error _))) (.cons (.ret {} (.cons (.labelAddress _ ⟨0⟩) .nil)) .nil))))
  exact ⟨b₀, b, g, last, g', last', begun, prepared, emitted, marked⟩

end Emit

end FlowIR
