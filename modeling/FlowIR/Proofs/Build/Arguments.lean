import FlowIR.Proofs.Build.Prepare
import FlowIR.Proofs.Convention.Registers

/-!
How the physical arguments of a function are divided.

The convention lists the shapes of the arguments and gives each parameter the position where its own start. The
builder works from these positions: it adds attributes and makes instructions that store arguments. Here both are
put side by side. The attributes are those of the pointers to the result, the closure environment and the
parameters that travel behind pointers, and no others (`Builder.Apportioned.tells`). What the prolog stores is the
closure environment and then the arguments of the parameters in registers, one after the other
(`Builder.Opens.stored`).
-/

namespace FlowIR

open Placement Signature List

/-! ### Attributes -/

def Graph.Tells (g : Graph) (n : Nat) (a : ArgAttr) : Prop := ∃ arg, g.args[n]? = some arg ∧ a ∈ arg.attrs

theorem Graph.tells_iff {g : Graph} {n : Nat} {a : ArgAttr} : g.Tells n a ↔ ∃ l, g.attrs[n]? = some l ∧ a ∈ l := by
  unfold Tells attrs
  rw [getElem?_map, Array.getElem?_toList]
  constructor
  · rintro ⟨arg, found, there⟩
    exact ⟨arg.attrs, congrArg _ found, there⟩
  · rintro ⟨_, found, there⟩
    obtain ⟨arg, here, rfl⟩ := Option.map_eq_some_iff.mp found
    exact ⟨arg, here, there⟩

theorem mem_tell {n : Nat} {a : ArgAttr} : ∀ {l : List (Nat × ArgAttr)} {said : List (List ArgAttr)},
    (∃ as, (tell l said)[n]? = some as ∧ a ∈ as) ↔
      (∃ as, said[n]? = some as ∧ a ∈ as) ∨ ((n, a) ∈ l ∧ n < said.length)
  | [], said => by simp [tell]
  | (m, b) :: l, said => by
    rw [tell, mem_tell, getElem?_modify, length_modify, mem_cons, Prod.mk.injEq]
    by_cases same : m = n
    · subst same
      by_cases below : m < said.length
      · rw [getElem?_eq_getElem below]
        by_cases there : b ∈ said[m] <;> by_cases eq : a = b <;> simp_all
      · rw [getElem?_eq_none (Nat.le_of_not_lt below)]
        simp [below]
    · have other : ¬ n = m := fun eq => same eq.symm
      simp [same, other]

/-- Of the parameters, those behind pointers have attributes other than how they are widened. -/
theorem Placement.mem_attrs {p : Placement} {n : Nat} {a : ArgAttr} (other : ∀ ext, Build.extensionAttr? ext ≠ some a) :
    (n, a) ∈ p.attrs ↔ a = .byval ∧ p.passing.isIndirect = true ∧ n = p.offset := by
  unfold attrs
  cases passing : p.passing with
  | ignored => simp [Passing.isIndirect]
  | indirect => simp [Passing.isIndirect, and_comm]
  | direct chunks ext =>
    refine ⟨fun there => ?_, fun there => absurd there.2.1 Bool.false_ne_true⟩
    obtain ⟨widened, found, there⟩ := mem_flatMap.mp there
    obtain ⟨k, -, eq⟩ := mem_map.mp there
    cases eq
    exact absurd (Option.mem_toList.mp found) (other ext)

namespace Builder

variable {b after : Builder} {target : Target} {sig : Signature} {given : Build.Issued}

/-- The attributes, but for how arguments are widened. -/
theorem Apportioned.tells (h : b.Apportioned target sig given) (ready : b.argsReady = true)
    (fits : ∀ p ∈ b.convention.params, p.Fits) {n : Nat} {a : ArgAttr}
    (other : ∀ ext, Build.extensionAttr? ext ≠ some a) :
    b.graph.Tells n a ↔ (a = .sret ∧ n = 0 ∧ b.convention.result.passing.isIndirect = true) ∨
      (a = .nest ∧ n = b.convention.chainIndex) ∨
      a = .byval ∧ ∃ p ∈ b.convention.params, p.passing.isIndirect = true ∧ n = p.offset := by
  have told : b.told = b.convention.hidden ++ b.convention.params.flatMap Placement.attrs := by
    rw [told, if_pos ready, h.ready ready fits, take_length]
  have length := h.lists.length
  have mem : (n, a) ∈ b.told ↔ (a = .sret ∧ n = 0 ∧ b.convention.result.passing.isIndirect = true) ∨
      (a = .nest ∧ n = b.convention.chainIndex) ∨
      a = .byval ∧ ∃ p ∈ b.convention.params, p.passing.isIndirect = true ∧ n = p.offset := by
    rw [told, mem_append, mem_flatMap, Convention.hidden, mem_append, or_assoc]
    refine or_congr ?_ (or_congr ?_ ?_)
    · unfold Convention.resultPointer?
      split <;> simp_all [and_comm]
    · simp [and_comm]
    · simp only [mem_attrs other]
      constructor
      · rintro ⟨p, hp, eq, rest⟩
        exact ⟨eq, p, hp, rest⟩
      · rintro ⟨eq, p, hp, rest⟩
        exact ⟨p, hp, eq, rest⟩
  rw [Graph.tells_iff, h.attrs, mem_tell, length_replicate, mem]
  constructor
  · rintro (⟨as, found, there⟩ | ⟨there, -⟩)
    · rw [getElem?_replicate] at found
      split at found <;> cases found
      cases there
    · exact there
  · intro there
    refine .inr ⟨there, ?_⟩
    rcases there with ⟨-, rfl, -⟩ | ⟨-, rfl⟩ | ⟨-, p, hp, indirect, rfl⟩
    · omega
    · omega
    · have inside := h.inside p hp
      have one := slots_of_isIndirect indirect
      have least := p.slots_le
      rw [h.size] at inside
      omega

end Builder

/-! ### Stores -/

/-- The arguments in which a parameter travels, if it travels in registers. -/
def Placement.carried (p : Placement) : List Operand :=
  if p.passing.isDirect then (range p.slots).map fun k => .arg (p.offset + k) else []

theorem Graph.Spills.stored {g : Graph} {p : Placement} {slot : Operand} {is : List InstrId} (h : g.Spills p slot is) :
    g.stored is = p.carried := by
  unfold Graph.stored carried slots
  cases h with
  | nothing passing => rw [if_neg (by simp [passing])]; rfl
  | whole passing store =>
    simp [passing, Passing.isDirect, store.op?, Op.stored?]
    rfl
  | single passing other cast store =>
    simp [passing, Passing.isDirect, cast.op?, store.op?]
    rfl
  | double passing cast field₀ store₀ field₁ store₁ =>
    simp [passing, Passing.isDirect, cast.op?, field₀.op?, store₀.op?, field₁.op?, store₁.op?]
    rfl

theorem Graph.stored_append (g : Graph) (is js : List InstrId) : g.stored (is ++ js) = g.stored is ++ g.stored js := by
  simp [stored]

/-- The arguments of the parameters are stored one after the other. -/
theorem Graph.SpillsAll.stored {g : Graph} : ∀ {ps : List Placement} {slots : List Operand} {is : List InstrId},
    g.SpillsAll ps slots is → ps.length ≤ slots.length → g.stored is = ps.flatMap carried
  | p :: ps, slot :: slots, _, ⟨here, rest, eq, spills, all⟩, enough => by
    rw [eq, stored_append, spills.stored, all.stored (Nat.le_of_succ_le_succ enough), flatMap_cons]
  | [], _, _, h, _ => by
    unfold SpillsAll at h
    rw [h]
    rfl

/-- Slots store nothing. -/
theorem Graph.stored_slots {g : Graph} {is : List InstrId} (slots : ∀ i ∈ is, g.Slot i) : g.stored is = [] := by
  refine filterMap_eq_nil_iff.mpr fun found hf => ?_
  obtain ⟨i, hi, rfl⟩ := mem_map.mp hf
  obtain ⟨op, hop, slot⟩ := slots i hi
  rw [hop]
  cases op <;> first | rfl | cases slot

/-- What the prolog stores: the closure environment, if anything, and the arguments of the parameters. -/
theorem Builder.Opens.stored {b after : Builder} {env spills : List InstrId} (h : b.Opens after env spills)
    (pending : ∀ i ∈ b.pendingSlots, b.graph.Slot i) (empty : b.graph.body b.entry = [])
    (enough : b.convention.params.length ≤ b.paramSlots.length) :
    after.graph.stored (after.graph.body after.entry) =
      after.graph.stored env ++ b.convention.params.flatMap carried := by
  rw [h.entry, h.body, empty, append_nil, Graph.stored_append, Graph.stored_append,
    Graph.stored_slots fun i hi => h.slots i (pending i hi), (h.spills enough).stored enough, nil_append]

/-! ### The division -/

namespace Build

end Build

end FlowIR
