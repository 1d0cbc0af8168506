import FlowIR.Proofs.Source.Structured

/-!
Which return is the last one.

A return that is on its way can be abandoned, by a cleanup that it passes through. Where a statement
returns, the return that takes effect is the one that was executed last, unless a return was executed and
abandoned inside of a cleanup while the one that takes effect was waiting for the end of that cleanup. It is
so in particular where cleanups contain no returns (`Exec.latest_of_returned`).
-/

namespace FlowIR

open Stmt

namespace Stmt

mutual
def hasReturn : Stmt → Bool
  | .ret _ _ => true
  | .block body => anyReturn body
  | .ite _ yes no => hasReturn yes || hasReturn no
  | .switch _ _ cases => casesReturn cases
  | .attempt body none none => hasReturn body
  | .attempt body (some handler) none => hasReturn body || hasReturn handler
  | .attempt body none (some cleanup) => hasReturn body || hasReturn cleanup
  | .attempt body (some handler) (some cleanup) => hasReturn body || hasReturn handler || hasReturn cleanup
  | .defer _ _ check => hasReturn check
  | _ => false

def anyReturn : List Stmt → Bool
  | [] => false
  | s :: ss => hasReturn s || anyReturn ss

/-- Whether there is one in the body of some case. -/
def casesReturn : List (List Expr × Stmt) → Bool
  | [] => false
  | (_, body) :: cases => hasReturn body || casesReturn cases
end

mutual
/-- Whether there is a return in some cleanup of the statement. -/
def cleansUpByReturn : Stmt → Bool
  | .block body => anyCleansUpByReturn body
  | .ite _ yes no => cleansUpByReturn yes || cleansUpByReturn no
  | .switch _ _ cases => casesCleanUpByReturn cases
  | .attempt body none none => cleansUpByReturn body
  | .attempt body (some handler) none => cleansUpByReturn body || cleansUpByReturn handler
  | .attempt body none (some cleanup) => cleansUpByReturn body || hasReturn cleanup
  | .attempt body (some handler) (some cleanup) =>
    cleansUpByReturn body || cleansUpByReturn handler || hasReturn cleanup
  | .defer _ _ check => cleansUpByReturn check
  | _ => false

def anyCleansUpByReturn : List Stmt → Bool
  | [] => false
  | s :: ss => cleansUpByReturn s || anyCleansUpByReturn ss

/-- Whether there is one in the body of some case. -/
def casesCleanUpByReturn : List (List Expr × Stmt) → Bool
  | [] => false
  | (_, body) :: cases => cleansUpByReturn body || casesCleanUpByReturn cases
end

theorem anyReturn_drop : ∀ {cases : List (List Expr × Stmt)}, casesReturn cases = false →
    ∀ i, anyReturn ((cases.drop i).map Prod.snd) = false
  | [], _, i => by simp [anyReturn]
  | (_, body) :: cases, h, i => by
    simp only [casesReturn, Bool.or_eq_false_iff] at h
    cases i with
    | zero =>
      have rest := anyReturn_drop h.2 0
      simp only [List.drop_zero, List.map_cons, anyReturn, Bool.or_eq_false_iff] at rest ⊢
      exact ⟨h.1, rest⟩
    | succ i => exact anyReturn_drop h.2 i

theorem anyCleansUpByReturn_drop : ∀ {cases : List (List Expr × Stmt)}, casesCleanUpByReturn cases = false →
    ∀ i, anyCleansUpByReturn ((cases.drop i).map Prod.snd) = false
  | [], _, i => by simp [anyCleansUpByReturn]
  | (_, body) :: cases, h, i => by
    simp only [casesCleanUpByReturn, Bool.or_eq_false_iff] at h
    cases i with
    | zero =>
      have rest := anyCleansUpByReturn_drop h.2 0
      simp only [List.drop_zero, List.map_cons, anyCleansUpByReturn, Bool.or_eq_false_iff] at rest ⊢
      exact ⟨h.1, rest⟩
    | succ i => exact anyCleansUpByReturn_drop h.2 i

theorem hasReturn_region {body cleanup : Stmt} {handler : Option Stmt}
    (h : (attempt body handler (some cleanup)).hasReturn = false) :
    (attempt body handler none).hasReturn = false ∧ cleanup.hasReturn = false := by
  cases handler <;> simpa only [hasReturn, Bool.or_eq_false_iff] using h

theorem cleansUpByReturn_region {body cleanup : Stmt} {handler : Option Stmt}
    (h : (attempt body handler (some cleanup)).cleansUpByReturn = false) :
    (attempt body handler none).cleansUpByReturn = false ∧ cleanup.hasReturn = false := by
  cases handler <;> simpa only [cleansUpByReturn, Bool.or_eq_false_iff] using h

section Structured

variable {types : VarId → Option Ty} {result : Ty}

mutual
/-- Where nothing is hidden there are no cleanups. -/
theorem cleansUpByReturn_of_isStructured : ∀ {s : Stmt} {inside : Bool},
    s.isStructured types result false inside = true → s.cleansUpByReturn = false
  | .block body, inside, h => by
    rw [isStructured] at h
    rw [cleansUpByReturn]
    exact anyCleansUpByReturn_of_areStructured h
  | .ite cond yes no, inside, h => by
    simp only [isStructured, Bool.and_eq_true] at h
    rw [cleansUpByReturn, cleansUpByReturn_of_isStructured h.1.2, cleansUpByReturn_of_isStructured h.2]
    rfl
  | .switch span value cases, inside, h => by
    simp only [isStructured, Bool.and_eq_true] at h
    rw [cleansUpByReturn]
    exact casesCleanUpByReturn_of_casesStructured h.2
  | .attempt body none none, inside, h => by
    rw [isStructured] at h
    rw [cleansUpByReturn]
    exact cleansUpByReturn_of_isStructured h
  | .attempt body (some handler) none, inside, h => by
    simp only [isStructured, Bool.and_eq_true] at h
    rw [cleansUpByReturn, cleansUpByReturn_of_isStructured h.1, cleansUpByReturn_of_isStructured h.2]
    rfl
  | .attempt body none (some cleanup), inside, h => by simp [isStructured] at h
  | .attempt body (some handler) (some cleanup), inside, h => by simp [isStructured] at h
  | .defer span epilogue check, inside, h => by
    simp only [isStructured, Bool.and_eq_true] at h
    rw [cleansUpByReturn]
    exact cleansUpByReturn_of_isStructured h.2
  | .eval _, _, _ | .init _ _ _, _, _ | .assign _ _, _, _ | .ret _ _, _, _ | .leave _, _, _ | .goto _ _, _, _
  | .label _ _, _, _ | .gotoAddress _, _, _ | .error, _, _ => rfl

theorem anyCleansUpByReturn_of_areStructured : ∀ {ss : List Stmt} {inside : Bool},
    areStructured types result false inside ss = true → anyCleansUpByReturn ss = false
  | [], _, _ => by rw [anyCleansUpByReturn]
  | s :: ss, inside, h => by
    simp only [areStructured, Bool.and_eq_true] at h
    rw [anyCleansUpByReturn, cleansUpByReturn_of_isStructured h.1, anyCleansUpByReturn_of_areStructured h.2]
    rfl

theorem casesCleanUpByReturn_of_casesStructured : ∀ {cases : List (List Expr × Stmt)},
    casesStructured types result false cases = true → casesCleanUpByReturn cases = false
  | [], _ => by rw [casesCleanUpByReturn]
  | (_, body) :: cases, h => by
    simp only [casesStructured, Bool.and_eq_true] at h
    rw [casesCleanUpByReturn, cleansUpByReturn_of_isStructured h.1, casesCleanUpByReturn_of_casesStructured h.2]
    rfl
end

end Structured

end Stmt

namespace Exec

variable {s : Stmt} {σ σ' : State} {exit : Exit}

/-- A statement without returns does not return, and the last return is the one that was the last before. -/
theorem of_not_hasReturn (h : Exec s σ exit σ') (none : s.hasReturn = false) :
    (∀ v, exit ≠ .returned v) ∧ σ'.latest = σ.latest := by
  induction h with
  | eval | evalStops | init | initStops | assign | assignStops | retStops | empty | iteStops | switchStops | leave
  | deferred | deferFaults => exact ⟨by rintro _ ⟨⟩, rfl⟩
  | ret => cases none
  | sequence _ _ ihFirst ihRest =>
    simp only [hasReturn, anyReturn, Bool.or_eq_false_iff] at none ihRest
    exact ⟨(ihRest none.2).1, (ihRest none.2).2.trans (ihFirst none.1).2⟩
  | cutShort _ _ ih =>
    simp only [hasReturn, anyReturn, Bool.or_eq_false_iff] at none
    exact ih none.1
  | ite _ _ ih =>
    simp only [hasReturn, Bool.or_eq_false_iff] at none
    refine ih ?_
    split
    · exact none.1
    · exact none.2
  | @switch _ _ cases a exit _ _ _ _ _ ih =>
    obtain ⟨i, eq⟩ := exists_selected_eq_drop a cases
    simp only [hasReturn] at none ih
    obtain ⟨stays, latest⟩ := ih (eq ▸ anyReturn_drop none i)
    refine ⟨?_, latest⟩
    cases exit <;> first | exact stays | rintro _ ⟨⟩
  | bare _ ih => exact ih (by rwa [hasReturn] at none)
  | uncaught _ _ ih =>
    simp only [hasReturn, Bool.or_eq_false_iff] at none
    exact ih none.1
  | caught _ _ ihBody ihHandler =>
    simp only [hasReturn, Bool.or_eq_false_iff] at none
    exact ⟨(ihHandler none.2).1, (ihHandler none.2).2.trans (ihBody none.1).2⟩
  | @cleaned _ _ _ pending last _ _ _ _ _ _ ihRegion ihClean =>
    obtain ⟨region, cleanup⟩ := hasReturn_region none
    refine ⟨?_, (ihClean cleanup).2.trans (ihRegion region).2⟩
    cases last with
    | normal => exact (ihRegion region).1
    | _ => exact (ihClean cleanup).1
  | faulted _ ih => exact ih (hasReturn_region none).1
  | deferAgain _ _ _ ihCheck ihAgain =>
    have check := none
    rw [hasReturn] at check
    exact ⟨(ihAgain none).1, (ihAgain none).2.trans (ihCheck check).2⟩
  | deferLeaves _ _ _ ih => exact ih (by rwa [hasReturn] at none)

/-- Where cleanups contain no returns, the return that takes effect is the last one. -/
theorem latest_of_returned (h : Exec s σ exit σ') (outside : s.cleansUpByReturn = false) {v : Option Int}
    (returned : exit = .returned v) : σ'.latest = v := by
  induction h with
  | eval | evalStops | init | initStops | assign | assignStops | retStops | empty | iteStops | switchStops | leave
  | deferred | deferFaults | faulted => cases returned
  | ret =>
    cases returned
    rfl
  | sequence _ _ _ ih =>
    simp only [cleansUpByReturn, anyCleansUpByReturn, Bool.or_eq_false_iff] at outside ih
    exact ih outside.2 returned
  | cutShort _ _ ih =>
    simp only [cleansUpByReturn, anyCleansUpByReturn, Bool.or_eq_false_iff] at outside
    exact ih outside.1 returned
  | ite _ _ ih =>
    simp only [cleansUpByReturn, Bool.or_eq_false_iff] at outside
    refine ih ?_ returned
    split
    · exact outside.1
    · exact outside.2
  | @switch _ _ cases a exit _ _ _ _ _ ih =>
    obtain ⟨i, eq⟩ := exists_selected_eq_drop a cases
    simp only [cleansUpByReturn] at outside ih
    refine ih (eq ▸ anyCleansUpByReturn_drop outside i) ?_
    cases exit <;> first | exact returned | cases returned
  | bare _ ih => exact ih (by rwa [cleansUpByReturn] at outside) returned
  | uncaught _ _ ih =>
    simp only [cleansUpByReturn, Bool.or_eq_false_iff] at outside
    exact ih outside.1 returned
  | caught _ _ _ ih =>
    simp only [cleansUpByReturn, Bool.or_eq_false_iff] at outside
    exact ih outside.2 returned
  | @cleaned _ _ _ pending last _ _ _ _ _ clean ihRegion _ =>
    -- A cleanup without returns can only let the pending one go on.
    obtain ⟨region, cleanup⟩ := cleansUpByReturn_region outside
    obtain ⟨stays, latest⟩ := clean.of_not_hasReturn cleanup
    cases last with
    | normal => exact latest.trans (ihRegion region returned)
    | returned w => exact absurd rfl (stays w)
    | left | stopped => cases returned
  | deferAgain _ _ _ _ ih => exact ih outside returned
  | deferLeaves _ _ _ ih => exact ih (by rwa [cleansUpByReturn] at outside) returned

end Exec

end FlowIR
