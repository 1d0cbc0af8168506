import FlowIR.Proofs.Reading
import FlowIR.Shape.Text
import FlowIR.Ty.Text

/-!
Texts of types are unambiguous.

The text of a source type is read from its start, and that of a shape from its end, where the stars of pointers
stand. Read this way its first character tells the kind of type, and no text is the beginning of another one.
-/

namespace FlowIR

open List

/-! ### Shapes -/

namespace Shape

def code (a : Shape) : List Char := a.text.toList.reverse

theorem code_int (n : Nat) (r : List Char) : code (.int n) ++ r = n.repr.toList.reverse ++ 'i' :: r := by
  simp [code, text]

theorem code_ptr (a : Shape) (r : List Char) : code (.ptr a) ++ r = '*' :: (a.code ++ r) := by
  simp [code, text]

theorem code_array (a : Shape) (n : Nat) (r : List Char) :
    code (.array a n) ++ r = ']' :: (a.code ++ ([' ', 'x', ' '] ++ (n.repr.toList.reverse ++ '[' :: r))) := by
  simp [code, text]

theorem code_vector (a : Shape) (n : Nat) (r : List Char) :
    code (.vector a n) ++ r = '>' :: (a.code ++ ([' ', 'x', ' '] ++ (n.repr.toList.reverse ++ '<' :: r))) := by
  simp [code, text]

/-- The fields of a struct, from the last one on. -/
theorem code_struct_cons (f : Shape) (fs : List Shape) : ∃ g gs, (f :: fs).reverse = g :: gs ∧
    ∀ r, code (.struct (f :: fs)) ++ r =
      ['}', ' '] ++ (g.code ++ ((gs.flatMap fun a => [' ', ','] ++ a.code) ++ ' ' :: '{' :: r)) := by
  have fields : ∀ f, ∃ g gs, (f :: fs).reverse = g :: gs ∧ (f.text ++ moreText fs).toList.reverse =
      g.code ++ gs.flatMap fun a => [' ', ','] ++ a.code := by
    induction fs with
    | nil => exact fun f => ⟨f, [], rfl, by simp [code, moreText]⟩
    | cons f' fs ih =>
      intro f
      obtain ⟨g, gs, order, read⟩ := ih f'
      refine ⟨g, gs ++ [f], by simp [order], ?_⟩
      have more : (f.text ++ moreText (f' :: fs)).toList.reverse =
          (f'.text ++ moreText fs).toList.reverse ++ ([' ', ','] ++ f.code) := by
        simp [code, moreText]
      rw [more, read, flatMap_append, append_assoc, flatMap_singleton]
  obtain ⟨g, gs, order, read⟩ := fields f
  refine ⟨g, gs, order, fun r => ?_⟩
  have whole : code (.struct (f :: fs)) ++ r =
      ['}', ' '] ++ ((f.text ++ moreText fs).toList.reverse ++ ' ' :: '{' :: r) := by
    simp [code, text]
  rw [whole, read, append_assoc]

/-- What tells the kind of a shape: the last character of its text, where one digit is as good as another. -/
def mark : Shape → Char
  | .void => 'd'
  | .int _ => '0'
  | .f32 => 't'
  | .f64 => 'e'
  | .ptr _ => '*'
  | .struct _ => '}'
  | .array _ _ => ']'
  | .vector _ _ => '>'

theorem mark_of_code (a : Shape) (r : List Char) :
    (a.code ++ r).head?.map (fun c => if c.isDigit then '0' else c) = some a.mark := by
  cases a with
  | int n =>
    rw [code_int]
    cases split : n.repr.toList.reverse with
    | nil => simp [Nat.toList_repr, Nat.toDigits_ne_nil] at split
    | cons d ds =>
      have mem : d ∈ n.repr.toList := mem_reverse.mp (split ▸ mem_cons_self)
      exact congrArg some (if_pos (isDigit_of_mem_repr mem))
  | ptr a => rw [code_ptr]; rfl
  | struct fields =>
    cases fields with
    | nil => rfl
    | cons f fs =>
      obtain ⟨g, gs, -, read⟩ := code_struct_cons f fs
      rw [read]
      rfl
  | array a n => rw [code_array]; rfl
  | vector a n => rw [code_vector]; rfl
  | _ => rfl

theorem struct_inj {fs gs : List Shape} {r s : List Char} (reads : ∀ f ∈ fs, Reads code f)
    (h : code (.struct fs) ++ r = code (.struct gs) ++ s) : fs = gs ∧ r = s := by
  cases fs with
  | nil =>
    cases gs with
    | nil => exact ⟨rfl, append_cancel_left h⟩
    | cons g gs =>
      obtain ⟨_, _, -, read⟩ := code_struct_cons g gs
      rw [read] at h
      cases h
  | cons f fs =>
    obtain ⟨last, others, order, read⟩ := code_struct_cons f fs
    rw [read] at h
    cases gs with
    | nil => cases h
    | cons g gs =>
      obtain ⟨last', others', order', read'⟩ := code_struct_cons g gs
      rw [read'] at h
      have all : ∀ c ∈ last :: others, Reads code c := fun c hc => reads c (mem_reverse.mp (order ▸ hc))
      obtain ⟨same, rest⟩ := listed_inj all (by simp) (by simp) (append_cancel_left h)
      exact ⟨reverse_inj.mp (order.trans (same.trans order'.symm)), by simpa using rest⟩

/-- Elements and their number. -/
theorem counted_inj {a b : Shape} {m n : Nat} {x : Char} {r s : List Char} (other : x.isDigit = false)
    (reads : Reads code a) (h : a.code ++ ([' ', 'x', ' '] ++ (m.repr.toList.reverse ++ x :: r)) =
      b.code ++ ([' ', 'x', ' '] ++ (n.repr.toList.reverse ++ x :: s))) : (a = b ∧ m = n) ∧ r = s := by
  obtain ⟨elem, rest⟩ := reads b _ _ h
  obtain ⟨len, rest⟩ := reverse_number_inj other (append_cancel_left rest)
  exact ⟨⟨elem, len⟩, rest⟩

mutual
/-- Read from its end, no text of a shape is the beginning of another one. -/
theorem reads : ∀ a : Shape, Reads code a
  | .void => .of_alone mark_of_code fun b same => by cases b <;> simp [mark] at same ⊢
  | .int m => .of_mark mark_of_code fun b _ _ same h => by
    cases b with
    | int n =>
      rw [code_int, code_int] at h
      exact (reverse_number_inj rfl h).imp (congrArg _) id
    | _ => simp [mark] at same
  | .f32 => .of_alone mark_of_code fun b same => by cases b <;> simp [mark] at same ⊢
  | .f64 => .of_alone mark_of_code fun b same => by cases b <;> simp [mark] at same ⊢
  | .ptr a => .of_mark mark_of_code fun b _ _ same h => by
    cases b with
    | ptr b =>
      rw [code_ptr, code_ptr] at h
      exact (reads a b _ _ (tail_eq_of_cons_eq h)).imp (congrArg _) id
    | _ => simp [mark] at same
  | .struct fs => .of_mark mark_of_code fun b _ _ same h => by
    cases b with
    | struct gs => exact (struct_inj (fields_read fs) h).imp (congrArg _) id
    | _ => simp [mark] at same
  | .array a m => .of_mark mark_of_code fun b _ _ same h => by
    cases b with
    | array b n =>
      rw [code_array, code_array] at h
      exact (counted_inj rfl (reads a) (tail_eq_of_cons_eq h)).imp (fun ⟨elem, len⟩ => by rw [elem, len]) id
    | _ => simp [mark] at same
  | .vector a m => .of_mark mark_of_code fun b _ _ same h => by
    cases b with
    | vector b n =>
      rw [code_vector, code_vector] at h
      exact (counted_inj rfl (reads a) (tail_eq_of_cons_eq h)).imp (fun ⟨elem, len⟩ => by rw [elem, len]) id
    | _ => simp [mark] at same

theorem fields_read : ∀ fs : List Shape, ∀ f ∈ fs, Reads code f
  | [] => forall_mem_nil _
  | f :: fs => forall_mem_cons.mpr ⟨reads f, fields_read fs⟩
end

end Shape

/-! ### Source types -/

def Width.digits : Width → List Char
  | .w8 => ['8']
  | .w16 => ['1', '6']
  | .w32 => ['3', '2']
  | .w64 => ['6', '4']

namespace Ty

def code (a : Ty) : List Char := a.text.toList

theorem code_ptr (a : Ty) (r : List Char) : code (.ptr a) ++ r = '*' :: (a.code ++ r) := by
  simp [code, text]

theorem code_array (a : Ty) (n : Nat) (r : List Char) :
    code (.array a n) ++ r = '[' :: (a.code ++ ([';', ' '] ++ (n.repr.toList ++ ']' :: r))) := by
  simp [code, text]

theorem code_struct (fs : List Ty) (r : List Char) :
    code (.struct fs) ++ r = ['s', 't', 'r', 'u', 'c', 't', ' ', '{'] ++ ((listText fs).toList ++ '}' :: r) := by
  simp [code, text]

theorem code_tuple (fs : List Ty) (r : List Char) : code (.tuple fs) ++ r =
    '(' :: ((listText fs).toList ++ ')' :: r) := by
  simp [code, text]

theorem code_list (f : Ty) (fs : List Ty) (r : List Char) :
    (listText (f :: fs)).toList ++ r = f.code ++ ((fs.flatMap fun a => [',', ' '] ++ a.code) ++ r) := by
  have more : ∀ fs, (moreText fs).toList = fs.flatMap fun a => [',', ' '] ++ a.code := fun fs => by
    induction fs with
    | nil => rfl
    | cons f fs ih => simp [moreText, code, ih]
  simp [listText, code, more]

/-- What tells the kind of a type: the first character of its text, where one sign is as good as the other. -/
def mark : Ty → Char
  | .void => 'v'
  | .bool => 'b'
  | .int _ _ => 'i'
  | .f32 | .f64 => 'f'
  | .ptr _ => '*'
  | .struct _ => 's'
  | .tuple _ => '('
  | .array _ _ => '['

theorem mark_of_code (a : Ty) (r : List Char) :
    (a.code ++ r).head?.map (fun c => if c = 'u' then 'i' else c) = some a.mark := by
  cases a with
  | int sign width => cases sign <;> simp [code, text, signLetter, mark]
  | _ => simp [code, text, mark]

/-- Types between brackets. -/
theorem list_inj {fs gs : List Ty} {x : Char} {r s : List Char} (reads : ∀ f ∈ fs, Reads code f)
    (bracket : x = '}' ∨ x = ')') (h : (listText fs).toList ++ x :: r = (listText gs).toList ++ x :: s) :
    fs = gs ∧ r = s := by
  have apart : ∀ f fs r s, (listText (f :: fs)).toList ++ r ≠ x :: s := fun f fs r s eq => by
    have mark := f.mark_of_code ((fs.flatMap fun a => [',', ' '] ++ a.code) ++ r)
    rw [← code_list, eq] at mark
    rcases bracket with rfl | rfl <;> cases f <;> simp [Ty.mark] at mark
  have ends : ∀ r, ¬ [',', ' '] <+: x :: r := by
    rcases bracket with rfl | rfl <;> simp
  cases fs with
  | nil =>
    cases gs with
    | nil => exact ⟨rfl, tail_eq_of_cons_eq h⟩
    | cons g gs => exact absurd h.symm (apart g gs _ _)
  | cons f fs =>
    cases gs with
    | nil => exact absurd h (apart f fs _ _)
    | cons g gs =>
      rw [code_list, code_list] at h
      exact (listed_inj reads (ends r) (ends s) h).imp id tail_eq_of_cons_eq

theorem int_inj {sign sign' : Signedness} {width width' : Width} {r s : List Char}
    (h : code (.int sign width) ++ r = code (.int sign' width') ++ s) : Ty.int sign width =
    .int sign' width' ∧ r = s := by
  have digits : ∀ w : Width, w.bits.repr.toList = w.digits := fun w => by cases w <;> rfl
  simp only [code, text, String.toList_append, digits] at h
  cases sign <;> cases sign' <;> simp [signLetter] at h ⊢
  all_goals cases width <;> cases width' <;> simp [Width.digits] at h ⊢ <;> exact h

mutual
/-- No text of a type is the beginning of another one. -/
theorem reads : ∀ a : Ty, Reads code a
  | .void => .of_alone mark_of_code fun b same => by cases b <;> simp [mark] at same ⊢
  | .bool => .of_alone mark_of_code fun b same => by cases b <;> simp [mark] at same ⊢
  | .int _ _ => .of_mark mark_of_code fun b _ _ same h => by
    cases b with
    | int => exact int_inj h
    | _ => simp [mark] at same
  | .f32 => .of_mark mark_of_code fun b _ _ same h => by
    cases b with
    | f32 => exact ⟨rfl, append_cancel_left h⟩
    | f64 => simp [code, text] at h
    | _ => simp [mark] at same
  | .f64 => .of_mark mark_of_code fun b _ _ same h => by
    cases b with
    | f64 => exact ⟨rfl, append_cancel_left h⟩
    | f32 => simp [code, text] at h
    | _ => simp [mark] at same
  | .ptr a => .of_mark mark_of_code fun b _ _ same h => by
    cases b with
    | ptr b =>
      rw [code_ptr, code_ptr] at h
      exact (reads a b _ _ (tail_eq_of_cons_eq h)).imp (congrArg _) id
    | _ => simp [mark] at same
  | .struct fs => .of_mark mark_of_code fun b _ _ same h => by
    cases b with
    | struct gs =>
      rw [code_struct, code_struct] at h
      exact (list_inj (fields_read fs) (.inl rfl) (append_cancel_left h)).imp (congrArg _) id
    | _ => simp [mark] at same
  | .tuple fs => .of_mark mark_of_code fun b _ _ same h => by
    cases b with
    | tuple gs =>
      rw [code_tuple, code_tuple] at h
      exact (list_inj (fields_read fs) (.inr rfl) (tail_eq_of_cons_eq h)).imp (congrArg _) id
    | _ => simp [mark] at same
  | .array a m => .of_mark mark_of_code fun b _ _ same h => by
    cases b with
    | array b n =>
      rw [code_array, code_array] at h
      obtain ⟨rfl, rest⟩ := reads a b _ _ (tail_eq_of_cons_eq h)
      exact (number_inj rfl (append_cancel_left rest)).imp (congrArg _) id
    | _ => simp [mark] at same

theorem fields_read : ∀ fs : List Ty, ∀ f ∈ fs, Reads code f
  | [] => forall_mem_nil _
  | f :: fs => forall_mem_cons.mpr ⟨reads f, fields_read fs⟩
end

end Ty

/-- Shapes with the same text are the same, and so are source types with the same text. -/
theorem texts_unambiguous : (∀ a b : Shape, a.text = b.text ↔ a = b) ∧ ∀ a b : Ty, a.text = b.text ↔ a = b := by
  refine ⟨fun a b => ⟨fun same => a.reads.eq ?_, congrArg _⟩, fun a b => ⟨fun same => a.reads.eq ?_, congrArg _⟩⟩
  · rw [Shape.code, Shape.code, same]
  · rw [Ty.code, Ty.code, same]

end FlowIR
