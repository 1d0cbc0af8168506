import FlowIR.Proofs.Perform.Branch
import FlowIR.Proofs.Perform.Finally

/-!
Structured statements are performed by their code: one case for each kind of statement, each of which is a
theorem about the code for that kind.
-/

namespace FlowIR

open Stmt Emit

variable {F : Frame}

/-! ### The traversal -/

mutual
/-- The code of a structured statement does what the statement does. -/
theorem stmt_enacts : ∀ {s : Stmt} {within : Bool}, s.isStructured F.types F.result F.hides within = true →
    Enacts F s within (stmt s)
  | .eval e, within, h => by
    simp only [isStructured, Bool.and_eq_true] at h
    exact enacts_eval h.1 h.2 within
  | .init span v none, within, h => by
    simp only [isStructured, Option.any_eq_true] at h
    obtain ⟨t, known, integer⟩ := h
    exact enacts_init known integer (by rintro _ ⟨⟩) within
  | .init span v (some e), within, h => by
    simp only [isStructured, Bool.and_eq_true, decide_eq_true_eq] at h
    refine enacts_init h.1.1 (Expr.isInteger_of_isScalar h.1.2) ?_ within
    rintro _ ⟨⟩
    exact ⟨rfl, h.1.2, h.2⟩
  | .assign (.var n v) e, within, h => by
    simp only [isStructured, Bool.and_eq_true, decide_eq_true_eq] at h
    exact enacts_assign h.1.1.1 h.1.1.2 h.1.2 h.2 within
  | .ret span values, within, h => by
    simp only [isStructured, Bool.and_eq_true] at h
    exact enacts_ret h.1 h.2 within
  | .block body, within, h => by
    rw [isStructured] at h
    rw [stmt]
    exact stmts_enact h
  | .ite cond yes no, within, h => by
    simp only [isStructured, Bool.and_eq_true, decide_eq_true_eq] at h
    rw [stmt]
    exact enacts_ite h.1.1.1.1 h.1.1.1.2 h.1.1.2 (stmt_enacts h.1.2) (stmt_enacts h.2)
  | .switch span value cases, within, h => by
    simp only [isStructured, Bool.and_eq_true, decide_eq_true_eq, List.all_eq_true] at h
    obtain ⟨⟨⟨⟨⟨scalar, signed⟩, quiet⟩, literals⟩, single⟩, bodies⟩ := h
    exact enacts_switch scalar signed quiet (fun k hk => .of_isLiteral (literals k hk)) single
      (cases_enact bodies) within
  | .leave span, within, h => by
    rw [isStructured] at h
    subst h
    exact enacts_leave span
  | .attempt body none none, within, h => by
    rw [isStructured] at h
    rw [stmt]
    exact enacts_bare (stmt_enacts h)
  | .attempt body (some handler) none, within, h => by
    simp only [isStructured, Bool.and_eq_true] at h
    rw [stmt]
    exact enacts_tryCatch (stmt_enacts h.1) (stmt_enacts h.2)
  | .attempt body none (some cleanup), within, h => by
    simp only [isStructured, Bool.and_eq_true] at h
    rw [stmt]
    exact enacts_tryFinally h.1.1 (stmt_enacts h.1.2) (stmt_enacts h.2) fun σ σ' left => left.ne_left h.1.2 rfl
  | .attempt body (some handler) (some cleanup), within, h => by
    simp only [isStructured, Bool.and_eq_true] at h
    rw [stmt]
    exact enacts_tryCatchFinally h.1.1.1 (stmt_enacts h.1.1.2) (stmt_enacts h.1.2) (stmt_enacts h.2)
      (fun σ σ' left => left.ne_left h.1.1.2 rfl) fun σ σ' left => left.ne_left h.1.2 rfl
  | .defer span epilogue check, within, h => by
    simp only [isStructured, Bool.and_eq_true] at h
    rw [stmt]
    exact enacts_defer h.1.1.1 h.1.1.2 h.1.2 (stmt_enacts h.2)

/-- Statements in a row, as `stmt_enacts` has it for one. -/
theorem stmts_enact : ∀ {ss : List Stmt} {within : Bool},
    areStructured F.types F.result F.hides within ss = true → Enacts F (.block ss) within (stmts ss)
  | [], within, _ => by
    intro c host _
    rw [stmts]
    exact ensures_pure.mpr ⟨.empty host.able, by rw [isDistinct, areDistinct]⟩
  | s :: ss, within, h => by
    simp only [areStructured, Bool.and_eq_true] at h
    intro c host exits
    have distinct : (block (s :: ss)).isDistinct = (s.isDistinct && (block ss).isDistinct) := by
      simp only [isDistinct, areDistinct]
    rw [stmts, distinct]
    refine (stmt_enacts h.1).bind host exits (fun twice => by rw [twice]; rfl) fun mid performs first => ?_
    refine (stmts_enact h.2 mid (host.adds performs.adds performs.able) fun w =>
      (exits w).adds performs.adds).mono ?_ ?_
    · rintro _ after ⟨rest, second⟩
      exact ⟨performs.sequence rest, by rw [first, second]; rfl⟩
    · exact fun _ _ failed => ⟨failed.1, by rw [failed.2, Bool.and_false]⟩

theorem cases_enact : ∀ {cases : List (List Expr × Stmt)},
    casesStructured F.types F.result F.hides cases = true → CasesEnact F cases
  | [], _ => by rintro _ ⟨⟩
  | (values, body) :: cases, h => by
    simp only [casesStructured, Bool.and_eq_true] at h
    exact List.forall_mem_cons.mpr ⟨stmt_enacts h.1, cases_enact h.2⟩
end

end FlowIR
