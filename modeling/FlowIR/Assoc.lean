/-!
Association lists keyed by strings. A key has one entry, the one that was set last, and the most
recently set key comes first.
-/

namespace FlowIR

structure Assoc (β : Type) where
  entries : List (String × β) := []

namespace Assoc

variable {β : Type}

def get? (m : Assoc β) (key : String) : Option β :=
  m.entries.lookup key

/-- Gives a key a value, in place of any that it had. -/
def set (m : Assoc β) (key : String) (value : β) : Assoc β :=
  ⟨(key, value) :: m.entries.filter fun e => e.1 != key⟩

@[simp] theorem get?_empty (key : String) : get? ({} : Assoc β) key = none := rfl

@[simp] theorem get?_set_self (m : Assoc β) (key : String) (value : β) :
    (m.set key value).get? key = some value := by
  simp [get?, set]

private theorem lookup_filter_ne {key other : String} (h : other ≠ key)
    (entries : List (String × β)) :
    (entries.filter fun e => e.1 != key).lookup other = entries.lookup other := by
  induction entries with
  | nil => rfl
  | cons e rest ih =>
    obtain ⟨k, v⟩ := e
    by_cases same : k = key
    · have miss : (other == key) = false := by simpa using h
      simp [same, List.lookup_cons, ih, miss]
    · simp [same, List.lookup_cons, ih]

theorem get?_set_of_ne (m : Assoc β) {key other : String} (value : β) (h : other ≠ key) :
    (m.set key value).get? other = m.get? other := by
  have miss : (other == key) = false := by simpa using h
  simp [get?, set, List.lookup_cons, miss, lookup_filter_ne h]

end Assoc

end FlowIR
