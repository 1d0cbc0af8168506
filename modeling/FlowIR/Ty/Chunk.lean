import FlowIR.Shape.Leaf
import FlowIR.Ty.Basic

/-!
How a value is cut into words to travel in registers.

A word that holds a single scalar, and holds all of it, keeps that scalar's shape. A word that
holds exactly two `f32` becomes a vector of two. Any other word, also one that holds a part of a
wider scalar, becomes an integer of the bytes of the value that lie in it. A value without bytes
has no chunks. What a word holds is looked up in a table, whose entries are the leaves that touch
each word (`getElem?_wordTable`).
-/

namespace FlowIR

inductive RegClass where
  | int
  | sse
deriving DecidableEq, Repr

structure Chunk where
  shape : Shape
  cls : RegClass
deriving DecidableEq

structure Leaf.Span where
  leaf : Leaf
  size : Nat
  firstWord : Nat
  lastWord : Nat

namespace Leaf

/-- The words of `word` bytes that a leaf touches. -/
def span? (leaf : Leaf) (word : Nat) : Option Leaf.Span := do
  let size ← leaf.shape.size?
  let top ← Size.add leaf.offset (max size 1)
  return ⟨leaf, size, leaf.offset / word, (top - 1) / word⟩

def Span.touches (s : Leaf.Span) (index : Nat) : Bool :=
  s.firstWord ≤ index && index ≤ s.lastWord

def Span.within (s : Leaf.Span) (start stop : Nat) : Bool :=
  start ≤ s.leaf.offset && s.leaf.offset + s.size ≤ stop

/-- Enters a leaf in front of what `count` words of a table hold, from the one at `index` on. -/
def Span.enter (s : Leaf.Span) :
    (count index : Nat) → Array (List Leaf.Span) → Array (List Leaf.Span)
  | 0, _, table => table
  | count + 1, index, table => s.enter count (index + 1) (table.modify index (s :: ·))

/-- What each of the first `words` words holds: the leaves that touch it, in their order. -/
def wordTable (words : Nat) (spans : List Leaf.Span) : Array (List Leaf.Span) :=
  spans.foldr (fun s => s.enter (s.lastWord + 1 - s.firstWord) s.firstWord)
    (Array.replicate words [])

theorem Span.getElem?_enter (s : Leaf.Span) (count index k : Nat)
    (table : Array (List Leaf.Span)) :
    (s.enter count index table)[k]? =
      if index ≤ k ∧ k < index + count then table[k]?.map (s :: ·) else table[k]? := by
  induction count generalizing index table with
  | zero => rw [enter, if_neg (by omega)]
  | succ count ih =>
    rw [enter, ih, Array.getElem?_modify]
    by_cases here : index = k
    · rw [if_neg (by omega), if_pos here, if_pos (by omega)]
    · rw [if_neg here]
      split
      · next later => rw [if_pos (by omega)]
      · next outside => rw [if_neg (by omega)]

/-- A word's entry lists the leaves that touch it. -/
theorem getElem?_wordTable (spans : List Leaf.Span) {words k : Nat} (h : k < words) :
    (wordTable words spans)[k]? = some (spans.filter (·.touches k)) := by
  induction spans with
  | nil => simp [wordTable, h]
  | cons s spans ih =>
    have entry : (wordTable words (s :: spans))[k]? =
        if s.firstWord ≤ k ∧ k < s.firstWord + (s.lastWord + 1 - s.firstWord)
        then (wordTable words spans)[k]?.map (s :: ·) else (wordTable words spans)[k]? :=
      s.getElem?_enter _ _ k _
    rw [entry, ih, List.filter_cons, Span.touches]
    by_cases touched : s.firstWord ≤ k ∧ k ≤ s.lastWord
    · rw [if_pos (by omega), if_pos (by simpa using touched)]
      rfl
    · rw [if_neg (by omega), if_neg (by simpa using touched)]

end Leaf

namespace Ty

/-- The class of a word that holds the given leaves. -/
def chunkClass (leaves : List Leaf.Span) (start stop : Nat) : RegClass :=
  if !leaves.isEmpty && leaves.all (fun l => l.leaf.shape.isFloat && l.within start stop) then
    .sse
  else
    .int

/-- The integer that covers `bytes` bytes; widths count modulo `2 ^ 32`. -/
def coveringInt? (bytes : Nat) : Option Shape := do
  return .int ((← Size.mul bytes 8) % 0x100000000)

/-- The shape of a word that holds the given leaves and `bytes` bytes of the value. -/
def chunkShape? (leaves : List Leaf.Span) (start stop bytes : Nat) : Option Shape :=
  match leaves with
  | [l] => if l.within start stop then some l.leaf.shape else coveringInt? bytes
  | [a, b] =>
    if a.leaf.shape = .f32 ∧ b.leaf.shape = .f32 then some (.vector .f32 2)
    else coveringInt? bytes
  | _ => coveringInt? bytes

/-- The chunk of the word at `index`, which holds the given leaves of a value of `size` bytes. -/
def chunkAt? (size word : Nat) (inside : List Leaf.Span) (index : Nat) : Option Chunk := do
  let start := index * word
  let stop ← Size.add start word
  let shape ← chunkShape? inside start stop (min (size - start) word)
  return ⟨shape, chunkClass inside start stop⟩

def leaves? (t : Ty) : Option (List Leaf) :=
  t.shape.leaves? 0

/-- The most words that a value can be cut into. What lies in them is kept in a table with 24 bytes
for each word, which is no larger than any other allocation. -/
def maxWords : Nat := Size.capacity / 24

/-- The words of `word` bytes that a value of the type travels in, unless they are too many. -/
def chunks? (t : Ty) (word : Nat) : Option (List Chunk) := do
  let size ← t.size?
  if size = 0 ∨ word = 0 then
    return []
  let words := (size + word - 1) / word
  if maxWords < words then
    none
  let spans ← (← t.leaves?).mapM (·.span? word)
  let table := Leaf.wordTable words spans
  (List.range words).mapM fun index => chunkAt? size word (table.getD index []) index

end Ty

end FlowIR
