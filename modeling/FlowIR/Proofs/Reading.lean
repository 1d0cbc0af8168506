/-!
Reading texts back.

A text is made of numbers, separators and other texts. It can be read if no text is the beginning of another one
(`Reads`), and a number or a list ends where something follows that cannot be part of it.
-/

namespace FlowIR

open List

variable {α : Type} {code : α → List Char} {x : Char} {sep r s : List Char}

/-- What has the code of `a` in front has no other code in front, and what follows it is known. -/
def Reads (code : α → List Char) (a : α) : Prop := ∀ b r s, code a ++ r = code b ++ s → a = b ∧ r = s

/-- Where the first character of a code tells the kind, it is enough to read it among the codes of its kind. -/
theorem Reads.of_mark {mark : α → Char} {kind : Char → Char} {a : α}
    (marks : ∀ a r, (code a ++ r).head?.map kind = some (mark a))
    (read : ∀ b r s, mark a = mark b → code a ++ r = code b ++ s → a = b ∧ r = s) : Reads code a := by
  intro b r s h
  have same := marks a r
  rw [h, marks b s] at same
  exact read b r s (Option.some.inj same).symm h

/-- The code of what is the only one of its kind. -/
theorem Reads.of_alone {mark : α → Char} {kind : Char → Char} {a : α}
    (marks : ∀ a r, (code a ++ r).head?.map kind = some (mark a)) (alone : ∀ b, mark a = mark b → a = b) :
    Reads code a :=
  .of_mark marks fun b _ _ same h => by
    obtain rfl := alone b same
    exact ⟨rfl, append_cancel_left h⟩

theorem Reads.eq {a b : α} (h : Reads code a) (same : code a = code b) : a = b := (h b [] [] (by rw [same])).1

/-- What stands in front of the first `x` is known. -/
theorem cut_inj {d e : List Char} (hd : x ∉ d) (he : x ∉ e) (h : d ++ x :: r = e ++ x :: s) : d = e ∧ r = s := by
  induction d generalizing e with
  | nil =>
    cases e with
    | nil => exact ⟨rfl, tail_eq_of_cons_eq h⟩
    | cons c e => exact absurd (mem_cons.mpr (.inl (head_eq_of_cons_eq h))) he
  | cons c d ih =>
    cases e with
    | nil => exact absurd (mem_cons.mpr (.inl (head_eq_of_cons_eq h).symm)) hd
    | cons c' e =>
      obtain ⟨rfl, next⟩ := cons.inj h
      obtain ⟨rfl, rest⟩ := ih (fun mem => hd (.tail _ mem)) (fun mem => he (.tail _ mem)) next
      exact ⟨rfl, rest⟩

theorem repr_inj {m n : Nat} (h : m.repr.toList = n.repr.toList) : m = n := by
  have read := congrArg (Nat.ofDigitChars 10 · 0) h
  simpa [Nat.toList_repr] using read

theorem isDigit_of_mem_repr {n : Nat} (mem : x ∈ n.repr.toList) : x.isDigit = true :=
  Nat.isDigit_of_mem_toDigits (by decide) (by decide) (Nat.toList_repr ▸ mem)

section

variable (other : x.isDigit = false)

include other

theorem not_mem_repr (n : Nat) : x ∉ n.repr.toList := fun mem =>
  Bool.false_ne_true (other.symm.trans (isDigit_of_mem_repr mem))

/-- A number ends where something else than a digit follows. -/
theorem number_inj {m n : Nat} (h : m.repr.toList ++ x :: r = n.repr.toList ++ x :: s) : m = n ∧ r = s :=
  (cut_inj (not_mem_repr other m) (not_mem_repr other n) h).imp repr_inj id

theorem reverse_number_inj {m n : Nat}
    (h : m.repr.toList.reverse ++ x :: r = n.repr.toList.reverse ++ x :: s) : m = n ∧ r = s := by
  have absent : ∀ n : Nat, x ∉ n.repr.toList.reverse := fun n mem => not_mem_repr other n (mem_reverse.mp mem)
  exact (cut_inj (absent m) (absent n) h).imp (fun same => repr_inj (reverse_inj.mp same)) id

end

/-- A list of codes, each behind a separator, ends where no separator follows. -/
theorem separated_inj {l m : List α} (reads : ∀ a ∈ l, Reads code a) (hr : ¬ sep <+: r) (hs : ¬ sep <+: s)
    (h : (l.flatMap fun a => sep ++ code a) ++ r = (m.flatMap fun a => sep ++ code a) ++ s) : l = m ∧ r = s := by
  induction l generalizing m with
  | nil =>
    cases m with
    | nil => exact ⟨rfl, h⟩
    | cons b m =>
      simp only [flatMap_nil, flatMap_cons, append_assoc, nil_append] at h
      exact absurd ⟨_, h.symm⟩ hr
  | cons a l ih =>
    cases m with
    | nil =>
      simp only [flatMap_nil, flatMap_cons, append_assoc, nil_append] at h
      exact absurd ⟨_, h⟩ hs
    | cons b m =>
      simp only [flatMap_cons, append_assoc] at h
      obtain ⟨rfl, next⟩ := reads a mem_cons_self b _ _ (append_cancel_left h)
      obtain ⟨rfl, rest⟩ := ih (fun a ha => reads a (.tail _ ha)) next
      exact ⟨rfl, rest⟩

/-- The same where there is no separator in front. -/
theorem listed_inj {a b : α} {l m : List α} (reads : ∀ c ∈ a :: l, Reads code c) (hr : ¬ sep <+: r) (hs : ¬ sep <+: s)
    (h : code a ++ ((l.flatMap fun a => sep ++ code a) ++ r) = code b ++ ((m.flatMap fun a => sep ++ code a) ++ s)) :
    a :: l = b :: m ∧ r = s := by
  obtain ⟨rfl, next⟩ := reads a mem_cons_self b _ _ h
  obtain ⟨rfl, rest⟩ := separated_inj (fun c hc => reads c (.tail _ hc)) hr hs next
  exact ⟨rfl, rest⟩

end FlowIR
