import FlowIR.Proofs.Perform.Function
import FlowIR.Proofs.Source.Returns

/-!
Which cases a switch goes through.

Over a signed type, the code of a switch goes through the cases from the one that lists the value on. The
machine reads the value as a signed number, whatever its type is, so over an unsigned type a value in the
upper half of the type is none of those that are listed (`Stmt.matched`).
-/

namespace FlowIR

open Machine

variable {s : Session} {signature : Signature} {h : Header} {body : Stmt}

/-- Switches fall through. A function with switches over signed types is rejected for a value that a switch
lists twice if there is one, and compiles otherwise. A run of it is cut off, or it makes the calls that the
execution of its body makes and ends in the same way. -/
theorem Session.switch_falls_through (name : String) (target : s.target = {}) (plain : h.isPlain = true)
    (params : h.params.map (·.ty) = signature.params)
    (result : signature.result.isInteger = true ∨ signature.result = .void)
    (structured : body.isStructured h.scalars signature.result false false = true) :
    ((∃ e, s.compile name signature h body = .error e ∧ e.IsDuplicate) ↔ body.isDistinct = false) ∧
      (body.isDistinct = true → ∃ g, s.compile name signature h body = .ok g ∧
        ∀ (env : Bytes) (actuals : List Int) (world : World), actuals.length = h.params.length →
          (∃ m, execute g (h.physical env actuals) (Machine.start g {} world) = .ok (.trapped .stepLimit, m)) ∨
          ∃ exit σ, Exec body (.start actuals world) exit σ ∧
            exit.Ends false signature.result σ
              (execute g (h.physical env actuals) (Machine.start g {} world)) ∧
            ∀ v, exit = .returned v → σ.latest = v) := by
  have compiles := @Session.compile_structured s signature h body false name target (by rintro ⟨⟩) plain params result
    structured
  refine ⟨⟨?_, fun twice => ?_⟩, fun distinct => ?_⟩
  · rintro ⟨e, failed, -⟩
    cases distinct : body.isDistinct with
    | false => rfl
    | true =>
      obtain ⟨g, compiled, -⟩ := compiles distinct
      cases compiled.symm.trans failed
  · exact Session.compile_duplicate name target (by rintro ⟨⟩) plain params result structured twice
  · obtain ⟨g, compiled, runs⟩ := compiles distinct
    refine ⟨g, compiled, fun env actuals world length => ?_⟩
    refine (runs env actuals world length (by rintro ⟨⟩)).imp id ?_
    rintro ⟨exit, σ, exec, ended⟩
    exact ⟨exit, σ, exec, ended, fun v returned =>
      exec.latest_of_returned (Stmt.cleansUpByReturn_of_isStructured structured) returned⟩

/-- A default in the middle, a case of two values, an empty one and a switch inside another. -/
theorem Session.switch_falls_through_nested :
    let h : Header := { params := [{ name := "p", ty := .i32 }] }
    let x : Expr := Typed.var ⟨0⟩ .i32
    let inner : Stmt := .switch {} (Typed.call "c" [] .i8) [([Typed.int .i8 (-1)], .leave {}), ([], .ret {} [])]
    let body : Stmt := .switch {} x [([Typed.int .i32 1, Typed.int .i32 (-3)], .block []),
      ([], .ite (Typed.binary .lt x (Typed.int .i32 0)) (.leave {}) inner),
      ([Typed.int .i32 7], .eval (Typed.call "f" [x] .void))]
    h.isPlain = true ∧ body.isStructured h.scalars .void false false = true ∧
    ((∃ e, Session.compile {} "f" { params := [.i32], result := .void } h body = .error e ∧ e.IsDuplicate) ↔
      body.isDistinct = false) ∧
      (body.isDistinct = true → ∃ g, Session.compile {} "f" { params := [.i32], result := .void } h body = .ok g ∧
        ∀ (env : Bytes) (actuals : List Int) (world : World), actuals.length = h.params.length →
          (∃ m, execute g (h.physical env actuals) (Machine.start g {} world) = .ok (.trapped .stepLimit, m)) ∨
          ∃ exit σ, Exec body (.start actuals world) exit σ ∧
            exit.Ends false .void σ (execute g (h.physical env actuals) (Machine.start g {} world)) ∧
            ∀ v, exit = .returned v → σ.latest = v) :=
  ⟨by decide +kernel, by decide +kernel,
    Session.switch_falls_through "f" rfl (by decide +kernel) rfl (.inr rfl) (by decide +kernel)⟩

/-! ### Unsigned values -/

/-- The cases that the code of a switch over a type goes through for a value. An unsigned value in the upper
half of its type is taken for one that is not listed. -/
def Stmt.matched (t : Ty) (a : Int) (cases : List (List Expr × Stmt)) : List (List Expr × Stmt) :=
  if t.isSigned = true ∨ 2 * a < t.modulus then selected a cases else cases.dropWhile fun c => !c.1.isEmpty

/-- The case that the stored word selects is the one that the value matches. -/
theorem Stmt.selected_signedOf {t : Ty} {a : Int} {cases : List (List Expr × Stmt)} (integer : t.isInteger = true)
    (fits : t.Fits a) (literals : ∀ k ∈ cases, ∀ e ∈ k.1, e.isLiteral t = true) :
    selected (signedOf t.bits (t.word a)) cases = matched t a cases := by
  unfold matched
  cases signed : t.isSigned with
  | true => rw [if_pos (.inl rfl), Ty.signedOf_word integer signed fits]
  | false =>
    rw [Ty.signedOf_word_of_unsigned integer signed fits]
    by_cases low : 2 * a < t.modulus
    · rw [if_pos low, if_pos (.inr low)]
    · rw [if_neg low, if_neg (by simp [low])]
      -- What the machine reads is negative, and no literal is.
      have unlisted : (cases.any fun c => Expr.lists (a - t.modulus) c.1) = false := by
        refine List.any_eq_false.mpr fun k hk listed => ?_
        obtain ⟨e, he, found⟩ := List.any_eq_true.mp listed
        have value := literals k hk e he
        rw [Expr.isLiteral, of_decide_eq_true found] at value
        have fitted : t.wrap (a - t.modulus) = a - t.modulus := of_decide_eq_true value
        have bounds := fits.bounds signed
        have bounds' := Ty.Fits.bounds signed fitted
        omega
      unfold selected
      rw [unlisted, if_neg Bool.false_ne_true]

/-- What comes of a switch as the whole body of a function: what comes of the cases that are matched, or an early
end of the evaluation. -/
def Stmt.Matches (value : Expr) (cases : List (List Expr × Stmt)) (σ : State) (exit : Exit) (σ' : State) : Prop :=
  (∃ a w exit', value.eval σ.vars σ.world = .ok a w ∧
    Exec (.block ((matched value.ty a cases).map Prod.snd)) { σ with world := w } exit' σ' ∧ exit = exit'.ofCases) ∨
  ∃ stop w, value.eval σ.vars σ.world = .error stop w ∧ exit = .stopped stop

theorem Stmt.Matches.ne_left {value : Expr} {cases : List (List Expr × Stmt)} {σ σ' : State} {exit : Exit}
    (h : Stmt.Matches value cases σ exit σ') : exit ≠ .left := by
  rcases h with ⟨a, w, exit', -, -, rfl⟩ | ⟨stop, w, -, rfl⟩
  · exact Exit.ofCases_ne_left exit'
  · rintro ⟨⟩

/-- A switch over any integer type goes on with the case that lists the value, if the type is signed or the value
is in the lower half of the type, and with the default case only if there is no such case. Unsigned values in
the upper half go on with the default case, whatever is listed. -/
theorem Session.switch_selects_matched {span : Span} {value : Expr} {cases : List (List Expr × Stmt)} (name : String)
    (target : s.target = {}) (plain : h.isPlain = true) (params : h.params.map (·.ty) = signature.params)
    (result : signature.result.isInteger = true ∨ signature.result = .void)
    (scalar : value.isScalar h.scalars = true) (literals : ∀ k ∈ cases, ∀ e ∈ k.1, e.isLiteral value.ty = true)
    (single : cases.countP (·.1.isEmpty) ≤ 1)
    (bodies : Stmt.casesStructured h.scalars signature.result false cases = true)
    (distinct : (Stmt.switch span value cases).isDistinct = true) :
    ∃ g, s.compile name signature h (.switch span value cases) = .ok g ∧
      ∀ (env : Bytes) (actuals : List Int) (world : World) (a : Int) (w : World),
        actuals.length = h.params.length → value.eval (Header.contents actuals) world = .ok a w →
        (∃ m, execute g (h.physical env actuals) (Machine.start g {} world) = .ok (.trapped .stepLimit, m)) ∨
        ∃ exit σ, Exec (.block ((Stmt.matched value.ty a cases).map Prod.snd)) (.start actuals w) exit σ ∧
          exit.ofCases.Ends false signature.result σ
            (execute g (h.physical env actuals) (Machine.start g {} world)) := by
  have integer := Expr.isInteger_of_isScalar scalar
  obtain ⟨g, compiled, runs⟩ := @Session.compile_of_lands s signature h (.switch span value cases) false name
    target (by rintro ⟨⟩) plain params result (Stmt.Matches value cases) (fun _ _ _ related => related.ne_left)
    fun b host => by
      refine (switch_ensures host scalar rfl (fun k hk => .of_isLiteral (literals k hk)) single
        (cases_enact bodies)).mono ?_ fun _ _ failed => ?_
      · rintro _ c ⟨switches, -⟩
        refine ⟨switches.adds, fun isOpen S inside fuel σ m meets => ?_⟩
        refine (switches.runs isOpen S inside none fuel σ m meets).mono ?_
        rintro t (⟨a, w, exit, σ', fits, given, exec, lands⟩ | ⟨stop, w, failed, lands⟩)
        · rw [Stmt.selected_signedOf integer fits literals] at exec
          exact ⟨_, σ', .inl ⟨a, w, exit, given, exec, rfl⟩, lands⟩
        · exact ⟨_, _, .inr ⟨stop, w, failed, rfl⟩, lands⟩
      · exact Bool.noConfusion (distinct.symm.trans failed.2)
  refine ⟨g, compiled, fun env actuals world a w length given => ?_⟩
  refine (runs env actuals world length (by rintro ⟨⟩)).imp id ?_
  rintro ⟨exit, σ, ⟨a', w', exit', given', exec, rfl⟩ | ⟨stop, w', failed, rfl⟩, ended⟩
  · cases given.symm.trans given'
    exact ⟨exit', σ, exec, ended⟩
  · cases given.symm.trans failed

def byteCases : List (List Expr × Stmt) :=
  [([Typed.int .u8 200], .ret {} [Typed.int .i64 1]), ([], .ret {} [Typed.int .i64 0])]

/-- A switch over a byte, from the value of a parameter. -/
theorem Session.switch_selects_matched_byte :
    let h : Header := { params := [{ name := "p", ty := .u8 }] }
    h.isPlain = true ∧ (Typed.var ⟨0⟩ .u8).isScalar h.scalars = true ∧
    (∀ k ∈ byteCases, ∀ e ∈ k.1, e.isLiteral .u8 = true) ∧ byteCases.countP (·.1.isEmpty) ≤ 1 ∧
    Stmt.casesStructured h.scalars .i64 false byteCases = true ∧
    (Stmt.switch {} (Typed.var ⟨0⟩ .u8) byteCases).isDistinct = true ∧
    ∃ g, Session.compile {} "f" { params := [.u8], result := .i64 } h
        (.switch {} (Typed.var ⟨0⟩ .u8) byteCases) = .ok g ∧
      ∀ (env : Bytes) (actuals : List Int) (world : World) (a : Int) (w : World),
        actuals.length = h.params.length →
        (Typed.var ⟨0⟩ .u8).eval (Header.contents actuals) world = .ok a w →
        (∃ m, execute g (h.physical env actuals) (Machine.start g {} world) = .ok (.trapped .stepLimit, m)) ∨
        ∃ exit σ, Exec (.block ((Stmt.matched .u8 a byteCases).map Prod.snd)) (.start actuals w) exit σ ∧
          exit.ofCases.Ends false .i64 σ
            (execute g (h.physical env actuals) (Machine.start g {} world)) :=
  ⟨by decide +kernel, by decide +kernel, by decide +kernel, by decide +kernel, by decide +kernel, by decide +kernel,
    Session.switch_selects_matched "f" rfl (by decide +kernel) rfl (.inl rfl) (by decide +kernel) (by decide +kernel)
      (by decide +kernel) (by decide +kernel) (by decide +kernel)⟩

/-- An unsigned value that is listed can go on with the default case. -/
theorem Session.listed_byte_unmatched :
    Stmt.selected 200 byteCases = byteCases ∧
    ∃ g, Session.compile {} "f" { params := [.u8], result := .i64 } { params := [{ name := "p", ty := .u8 }] }
        (.switch {} (Typed.var ⟨0⟩ .u8) byteCases) = .ok g ∧
      ∃ m, execute g #[Bytes.zeros 8, Ty.u8.encode 200] (Machine.start g {} {}) =
        .ok (.returned (some (Ty.i64.encode 0)), m) :=
  ⟨rfl, Session.exists_returned (by decide +kernel)⟩

end FlowIR
