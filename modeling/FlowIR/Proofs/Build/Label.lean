import FlowIR.Proofs.Build.Sound

/-!
Placeholders and the labels that they stand for.

`LabelTable.Paired` says that a placeholder is pending exactly as long as it is the mark of a label, and
that no two labels have the same mark. `LabelTable.Exact` adds when a label has a mark: if its address
has been taken and it has no place. Recording a use adds a user to a pending placeholder and changes
nothing else.
-/

namespace FlowIR.LabelTable

variable {t : LabelTable} {l k : LabelId} {p q : PlaceholderId} {i j : InstrId}

/-- The placeholder that stands for the address of a label. -/
def mark (t : LabelTable) (l : LabelId) : Option PlaceholderId := (t.get? l).bind (·.placeholder)

def wanted (t : LabelTable) (l : LabelId) : Prop := (t.get? l).any (·.addressTaken) = true

/-- The instructions that use a placeholder, as long as it is pending. -/
def users (t : LabelTable) (p : PlaceholderId) : Option (List InstrId) := t.uses[p.index]?.join

/-- The placeholder has been handed out and not been replaced. -/
def IsPending (t : LabelTable) (p : PlaceholderId) : Prop := (t.users p).isSome = true

/-- The instruction is recorded among the users of a pending placeholder. -/
def UsedBy (t : LabelTable) (p : PlaceholderId) (i : InstrId) : Prop := ∃ is, t.users p = some is ∧ i ∈ is

theorem UsedBy.isPending (h : t.UsedBy p i) : t.IsPending p := by
  obtain ⟨is, found, -⟩ := h
  exact Option.isSome_iff_exists.mpr ⟨is, found⟩

/-- Placeholders are pending exactly as long as they are marks of labels, one for each. -/
structure Paired (t : LabelTable) : Prop where
  owner : ∀ p, t.IsPending p → ∃ l, t.mark l = some p
  pending : ∀ l p, t.mark l = some p → t.IsPending p
  inj : ∀ l k p, t.mark l = some p → t.mark k = some p → l = k
  wanted : ∀ l p, t.mark l = some p → t.wanted l

/-- A label has a mark exactly if its address has been taken and it has no place. -/
structure Exact (t : LabelTable) : Prop where
  marked : ∀ l, t.wanted l → ¬ t.settled l → (t.mark l).isSome
  unsettled : ∀ l p, t.mark l = some p → ¬ t.settled l

/-- A table with the same marks, users and taken addresses. -/
theorem Paired.congr {t' : LabelTable} (h : t.Paired) (mark : t'.mark = t.mark) (users : t'.users = t.users)
    (wanted : ∀ l, t.wanted l → t'.wanted l) : t'.Paired := by
  have pending : t'.IsPending = t.IsPending := by
    funext p
    rw [IsPending, IsPending, users]
  constructor
  · rw [pending, mark]
    exact h.owner
  · rw [pending, mark]
    exact h.pending
  · rw [mark]
    exact h.inj
  · rw [mark]
    exact fun l p hp => wanted l (h.wanted l p hp)

theorem Exact.congr {t' : LabelTable} (h : t.Exact) (mark : t'.mark = t.mark) (settled : t'.settled = t.settled)
    (wanted : t'.wanted = t.wanted) : t'.Exact := by
  constructor
  · rw [mark, settled, wanted]
    exact h.marked
  · rw [mark, settled]
    exact h.unsettled

/-! ### Changing a label -/

theorem mark_update (f : Label → Label) :
    (t.update l f).mark k = if k = l then (t.get? k).bind fun x => (f x).placeholder else t.mark k := by
  simp only [mark, get?_update]
  split
  · cases t.get? k <;> rfl
  · rfl

theorem mark_update_of_same {f : Label → Label} (hf : ∀ x, (f x).placeholder = x.placeholder) :
    (t.update l f).mark = t.mark := by
  funext k
  rw [mark_update]
  split
  · simp only [hf]
    rfl
  · rfl

theorem wanted_update_of_same {f : Label → Label} (hf : ∀ x, (f x).addressTaken = x.addressTaken) :
    (t.update l f).wanted = t.wanted := by
  funext k
  simp only [wanted, get?_update]
  split
  · cases t.get? k <;> simp [hf]
  · rfl

/-- Giving a label its block. -/
theorem Paired.setHome (h : t.Paired) (x : BlockId) : (t.update l ({ · with block := some x })).Paired :=
  h.congr (mark_update_of_same fun _ => rfl) rfl fun k hk => by
    have same : (t.update l ({ · with block := some x })).wanted = t.wanted :=
      wanted_update_of_same fun _ => rfl
    rwa [same]

theorem Exact.setHome (h : t.Exact) (x : BlockId) : (t.update l ({ · with block := some x })).Exact :=
  h.congr (mark_update_of_same fun _ => rfl) (settled_update fun _ => rfl)
    (wanted_update_of_same fun _ => rfl)

/-! ### New labels -/

theorem mark_add (span : Span) : (t.add span).2.mark = t.mark := by
  funext k
  simp only [mark, get?, add, Array.getElem?_push]
  split
  · next new => simp [new]
  · rfl

theorem wanted_add (span : Span) : (t.add span).2.wanted = t.wanted := by
  funext k
  simp only [wanted, get?, add, Array.getElem?_push]
  split
  · next new => simp [new]
  · rfl

theorem Paired.add (h : t.Paired) (span : Span) : (t.add span).2.Paired :=
  h.congr (mark_add span) rfl fun k hk => (congrFun (wanted_add span) k).mpr hk

theorem Exact.add (h : t.Exact) (span : Span) : (t.add span).2.Exact :=
  h.congr (mark_add span) (settled_add t span) (wanted_add span)

/-! ### Users -/

theorem users_recordUse : (t.recordUse p i).users q =
    if q = p then (t.users p).map fun is => if i ∈ is then is else is ++ [i] else t.users q := by
  simp only [users, recordUse, Array.getElem?_modify]
  by_cases same : q = p
  · subst same
    simp only [↓reduceIte]
    cases t.uses[q.index]? <;> rfl
  · have apart : p.index ≠ q.index := fun eq => same (by cases p; cases q; exact congrArg _ eq.symm)
    simp [same, apart]

theorem isPending_recordUse : (t.recordUse p i).IsPending q ↔ t.IsPending q := by
  simp only [IsPending, users_recordUse]
  split
  · next same => rw [same, Option.isSome_map]
  · rfl

theorem usedBy_recordUse (h : t.UsedBy q j) : (t.recordUse p i).UsedBy q j := by
  obtain ⟨is, found, mem⟩ := h
  simp only [UsedBy, users_recordUse]
  split
  · next same =>
    subst same
    refine ⟨if i ∈ is then is else is ++ [i], by rw [found]; rfl, ?_⟩
    split
    · exact mem
    · exact List.mem_append_left _ mem
  · exact ⟨is, found, mem⟩

theorem usedBy_recordUse_self (h : t.IsPending p) : (t.recordUse p i).UsedBy p i := by
  obtain ⟨is, found⟩ := Option.isSome_iff_exists.mp h
  refine ⟨if i ∈ is then is else is ++ [i], by rw [users_recordUse, if_pos rfl, found]; rfl, ?_⟩
  split
  · next old => exact old
  · exact List.mem_append_right _ (List.mem_singleton_self i)

/-- Records an instruction with all placeholders that it uses. -/
def recordUses (t : LabelTable) (ps : List PlaceholderId) (i : InstrId) : LabelTable :=
  ps.foldl (fun t p => t.recordUse p i) t

theorem isPending_recordUses (ps : List PlaceholderId) : (t.recordUses ps i).IsPending q ↔ t.IsPending q := by
  induction ps generalizing t with
  | nil => rfl
  | cons p ps ih => exact ih.trans isPending_recordUse

theorem UsedBy.recordUses (h : t.UsedBy q j) (ps : List PlaceholderId) : (t.recordUses ps i).UsedBy q j := by
  induction ps generalizing t with
  | nil => exact h
  | cons p ps ih => exact ih (usedBy_recordUse h)

theorem usedBy_recordUses_self {ps : List PlaceholderId} (mem : p ∈ ps) (h : t.IsPending p) :
    (t.recordUses ps i).UsedBy p i := by
  induction ps generalizing t with
  | nil => cases mem
  | cons q ps ih =>
    rcases List.mem_cons.mp mem with rfl | later
    · exact (usedBy_recordUse_self h).recordUses ps
    · exact ih later (isPending_recordUse.mpr h)

structure Records (t t' : LabelTable) : Prop where
  get? : ∀ l, t'.get? l = t.get? l
  pending : ∀ p, t'.IsPending p ↔ t.IsPending p
  usedBy : ∀ p i, t.UsedBy p i → t'.UsedBy p i
  branches : ∀ i ∈ t.branches, i ∈ t'.branches

namespace Records

variable {t' : LabelTable}

theorem refl (t : LabelTable) : t.Records t :=
  ⟨fun _ => rfl, fun _ => Iff.rfl, fun _ _ h => h, fun _ h => h⟩

theorem recordUses (t : LabelTable) (ps : List PlaceholderId) (i : InstrId) : t.Records (t.recordUses ps i) where
  get? := fun l => by rw [LabelTable.get?, LabelTable.get?, LabelTable.recordUses, labels_recordUses]
  pending := fun _ => isPending_recordUses ps
  usedBy := fun _ _ h => h.recordUses ps
  branches := fun j hj => by
    induction ps generalizing t with
    | nil => exact hj
    | cons p ps ih => exact ih (t.recordUse p i) hj

variable (h : t.Records t')

include h

theorem recordBranch (i : InstrId) : t.Records (t'.recordBranch i) :=
  ⟨h.get?, h.pending, h.usedBy, fun j hj => List.mem_append_left _ (h.branches j hj)⟩

theorem home : t'.home = t.home := by
  funext l
  rw [LabelTable.home, h.get?, LabelTable.home]

theorem mark : t'.mark = t.mark := by
  funext l
  rw [LabelTable.mark, h.get?, LabelTable.mark]

theorem wanted : t'.wanted = t.wanted := by
  funext l
  rw [LabelTable.wanted, h.get?, LabelTable.wanted]

theorem settled : t'.settled = t.settled := by
  funext l
  rw [LabelTable.settled, h.get?, LabelTable.settled]

theorem exact (exact : t.Exact) : t'.Exact := exact.congr h.mark h.settled h.wanted

theorem paired (paired : t.Paired) : t'.Paired := by
  constructor
  · intro p hp
    rw [h.mark]
    exact paired.owner p ((h.pending p).mp hp)
  · intro l p hp
    rw [h.mark] at hp
    exact (h.pending p).mpr (paired.pending l p hp)
  · rw [h.mark]
    exact paired.inj
  · rw [h.mark, h.wanted]
    exact paired.wanted

end Records

/-! ### Taking an address -/

theorem settled_iff : t.settled l ↔ ∃ x, t.get? l = some x ∧ x.defined = true := by
  unfold settled
  cases t.get? l <;> simp

theorem wanted_iff : t.wanted l ↔ ∃ x, t.get? l = some x ∧ x.addressTaken = true := by
  unfold wanted
  cases t.get? l <;> simp

/-- The table once the address of a label has been taken. -/
abbrev want (t : LabelTable) (l : LabelId) : LabelTable := t.update l ({ · with addressTaken := true })

theorem wanted_want : (t.want l).wanted k ↔ t.wanted k ∨ k = l ∧ (t.get? k).isSome := by
  simp only [wanted, want, get?_update]
  by_cases same : k = l
  · cases t.get? k <;> simp [same]
  · simp [same]

theorem mark_want : (t.want l).mark = t.mark := mark_update_of_same fun _ => rfl

theorem home_want : (t.want l).home = t.home := home_update fun _ => rfl

theorem settled_want : (t.want l).settled = t.settled := settled_update fun _ => rfl

/-- The address of a label that has its place. -/
theorem Paired.want (h : t.Paired) : (t.want l).Paired := h.congr mark_want rfl fun _ hk => wanted_want.mpr (.inl hk)

/-- No new mark is needed for the address of a label that has its place or has a mark. -/
theorem Exact.want (h : t.Exact) (fine : t.settled l ∨ (t.mark l).isSome) : (t.want l).Exact := by
  constructor
  · intro k hk open'
    rw [settled_want] at open'
    rw [mark_want]
    rcases wanted_want.mp hk with old | ⟨rfl, -⟩
    · exact h.marked k old open'
    · exact fine.resolve_left open'
  · rw [mark_want, settled_want]
    exact h.unsettled

/-- The table with a new placeholder as the mark of a label. -/
abbrev mint (t : LabelTable) (l : LabelId) : LabelTable :=
  { t.update l ({ · with placeholder := some ⟨t.uses.size⟩ }) with uses := t.uses.push (some []) }

/-- The placeholder for the address of a label is its mark; the label gets a new one if it has none. -/
theorem placeholderFor_cases (t : LabelTable) (l : LabelId) :
    (∃ p, t.mark l = some p ∧ t.placeholderFor l = (p, t)) ∨
      t.mark l = none ∧ t.placeholderFor l = (⟨t.uses.size⟩, t.mint l) := by
  unfold placeholderFor mark
  cases (t.get? l).bind (·.placeholder) with
  | some p => exact .inl ⟨p, rfl, rfl⟩
  | none => exact .inr ⟨rfl, rfl⟩

theorem users_mint : (t.mint l).users q = if q = ⟨t.uses.size⟩ then some [] else t.users q := by
  simp only [users, Array.getElem?_push]
  by_cases new : q = ⟨t.uses.size⟩
  · simp [new]
  · have old : q.index ≠ t.uses.size := fun eq => new (by cases q; exact congrArg _ eq)
    simp [new, old]

theorem not_isPending_size : ¬ t.IsPending ⟨t.uses.size⟩ := by
  simp [IsPending, users]

theorem isPending_mint : (t.mint l).IsPending q ↔ t.IsPending q ∨ q = ⟨t.uses.size⟩ := by
  simp only [IsPending, users_mint]
  split
  · next new => simp [new]
  · next old => simp [old]

theorem UsedBy.mint (h : t.UsedBy q j) : (t.mint l).UsedBy q j := by
  obtain ⟨is, found, mem⟩ := h
  refine ⟨is, ?_, mem⟩
  rw [users_mint, if_neg, found]
  rintro rfl
  exact not_isPending_size (Option.isSome_iff_exists.mpr ⟨is, found⟩)

theorem mark_mint (known : (t.get? l).isSome) :
    (t.mint l).mark k = if k = l then some ⟨t.uses.size⟩ else t.mark k := by
  refine (mark_update _).trans ?_
  split
  · next same =>
    obtain ⟨x, found⟩ := Option.isSome_iff_exists.mp known
    rw [same, found]
    rfl
  · rfl

theorem wanted_mint : (t.mint l).wanted = t.wanted := wanted_update_of_same (t := t) fun _ => rfl

theorem settled_mint : (t.mint l).settled = t.settled := settled_update (t := t) fun _ => rfl

theorem home_mint : (t.mint l).home = t.home := home_update (t := t) fun _ => rfl

theorem Paired.mint (h : t.Paired) (wanted : t.wanted l) (unmarked : t.mark l = none) : (t.mint l).Paired := by
  have known : (t.get? l).isSome := by
    obtain ⟨x, found, -⟩ := wanted_iff.mp wanted
    rw [found]
    rfl
  -- The new placeholder is the mark of no other label, since none of the old marks is it.
  have fresh : ∀ k, t.mark k ≠ some ⟨t.uses.size⟩ := fun k hk => not_isPending_size (h.pending k _ hk)
  constructor
  · intro p hp
    rcases isPending_mint.mp hp with old | rfl
    · obtain ⟨k, hk⟩ := h.owner p old
      refine ⟨k, ?_⟩
      rw [mark_mint known, if_neg, hk]
      rintro rfl
      cases unmarked.symm.trans hk
    · exact ⟨l, by rw [mark_mint known, if_pos rfl]⟩
  · intro k p hp
    rw [mark_mint known] at hp
    split at hp
    · exact isPending_mint.mpr (.inr (Option.some.inj hp).symm)
    · exact isPending_mint.mpr (.inl (h.pending k p hp))
  · intro k k' p hk hk'
    rw [mark_mint known] at hk hk'
    split at hk <;> split at hk'
    · next same same' => exact same.trans same'.symm
    · exact absurd (hk' ▸ hk ▸ rfl) (fresh k')
    · exact absurd (hk ▸ hk' ▸ rfl) (fresh k)
    · exact h.inj k k' p hk hk'
  · intro k p hk
    rw [mark_mint known] at hk
    rw [wanted_mint]
    split at hk
    · next eq => exact eq ▸ wanted
    · exact h.wanted k p hk

theorem Exact.mint (h : t.Exact) (known : (t.get? l).isSome) (open' : ¬ t.settled l) : ((t.want l).mint l).Exact := by
  have known' : ((t.want l).get? l).isSome := by
    rw [get?_update, if_pos rfl, Option.isSome_map]
    exact known
  constructor
  · intro k hk unsettled
    rw [settled_mint, settled_want] at unsettled
    rw [wanted_mint, wanted_want] at hk
    rw [mark_mint known', mark_want]
    split
    · rfl
    · next other => exact h.marked k (hk.resolve_right fun same => other same.1) unsettled
  · intro k p hk
    rw [settled_mint, settled_want]
    rw [mark_mint known', mark_want] at hk
    split at hk
    · next same => exact same ▸ open'
    · exact h.unsettled k p hk

/-! ### Giving a label its place -/

abbrev release (t : LabelTable) (l : LabelId) (p : PlaceholderId) : LabelTable :=
  { t.update l ({ · with placeholder := none }) with uses := t.uses.setIfInBounds p.index none }

/-- A label without a mark has nothing to take back. A mark is taken back with its users. -/
theorem retire_cases (h : t.Paired) (l : LabelId) :
    t.mark l = none ∧ t.retire l = (none, t) ∨
      ∃ p is, t.mark l = some p ∧ t.users p = some is ∧ t.retire l = (some (p, is), t.release l p) := by
  cases marked : t.mark l with
  | none =>
    unfold mark at marked
    exact .inl ⟨rfl, by simp only [retire, marked]⟩
  | some p =>
    obtain ⟨is, found⟩ := Option.isSome_iff_exists.mp (h.pending l p marked)
    unfold mark at marked
    have found' : (t.update l ({ · with placeholder := none })).uses[p.index]?.join = some is := found
    exact .inr ⟨p, is, rfl, found, by simp only [retire, marked, found']; rfl⟩

theorem users_release : (t.release l p).users q = if q = p then none else t.users q := by
  simp only [users, Array.getElem?_setIfInBounds]
  by_cases same : q = p
  · subst same
    simp only [↓reduceIte]
    split <;> rfl
  · have apart : p.index ≠ q.index := fun eq => same (by cases p; cases q; exact congrArg _ eq.symm)
    simp [same, apart]

theorem isPending_release : (t.release l p).IsPending q ↔ t.IsPending q ∧ q ≠ p := by
  simp only [IsPending, users_release]
  split
  · next same => simp [same]
  · next other => simp [other]

theorem UsedBy.release (h : t.UsedBy q j) (other : q ≠ p) : (t.release l p).UsedBy q j := by
  obtain ⟨is, found, mem⟩ := h
  exact ⟨is, by rw [users_release, if_neg other, found], mem⟩

theorem mark_release : (t.release l p).mark k = if k = l then none else t.mark k := by
  refine (mark_update _).trans ?_
  split
  · cases t.get? k <;> rfl
  · rfl

theorem Paired.release (h : t.Paired) (marked : t.mark l = some p) : (t.release l p).Paired := by
  constructor
  · intro q hq
    obtain ⟨pending, other⟩ := isPending_release.mp hq
    obtain ⟨k, hk⟩ := h.owner q pending
    refine ⟨k, ?_⟩
    rw [mark_release, if_neg, hk]
    rintro rfl
    exact other (Option.some.inj (hk.symm.trans marked))
  · intro k q hk
    rw [mark_release] at hk
    split at hk
    · cases hk
    · next other =>
      refine isPending_release.mpr ⟨h.pending k q hk, ?_⟩
      rintro rfl
      exact other (h.inj k l q hk marked)
  · intro k k' q hk hk'
    rw [mark_release] at hk hk'
    split at hk <;> split at hk'
    · next same same' => exact same.trans same'.symm
    · cases hk
    · cases hk'
    · exact h.inj k k' q hk hk'
  · intro k q hk
    have same : (t.release l p).wanted = t.wanted := wanted_update_of_same (t := t) fun _ => rfl
    rw [mark_release] at hk
    rw [same]
    split at hk
    · cases hk
    · exact h.wanted k q hk

abbrev settle (t : LabelTable) (l : LabelId) : LabelTable := t.update l ({ · with defined := true })

theorem settled_settle : (t.settle l).settled k ↔ t.settled k ∨ k = l ∧ (t.get? k).isSome := by
  simp only [settled, get?_update]
  by_cases same : k = l
  · cases t.get? k <;> simp [same]
  · simp [same]

theorem mark_settle : (t.settle l).mark = t.mark := mark_update_of_same fun _ => rfl

theorem home_settle : (t.settle l).home = t.home := home_update fun _ => rfl

theorem wanted_settle : (t.settle l).wanted = t.wanted := wanted_update_of_same fun _ => rfl

theorem Paired.settle (h : t.Paired) : (t.settle l).Paired :=
  h.congr mark_settle rfl fun k hk => (congrFun wanted_settle k).mpr hk

/-- What is left of the marks once the label has got its place and its mark has been taken back. -/
theorem mark_retire (h : t.Paired) (l k : LabelId) : (t.retire l).2.mark k = if k = l then none else t.mark k := by
  rcases retire_cases h l with ⟨unmarked, eq⟩ | ⟨p, is, -, -, eq⟩
  · rw [eq]
    split
    · next same => rw [same, unmarked]
    · rfl
  · rw [eq, mark_release]

theorem Paired.retire (h : t.Paired) (l : LabelId) : (t.retire l).2.Paired := by
  rcases retire_cases h l with ⟨-, eq⟩ | ⟨p, is, marked, -, eq⟩
  · rwa [eq]
  · rw [eq]
    exact h.release marked

theorem UsedBy.retire (h : t.Paired) (used : t.UsedBy q j) (other : t.mark l ≠ some q) :
    (t.retire l).2.UsedBy q j := by
  rcases retire_cases h l with ⟨-, eq⟩ | ⟨p, is, marked, -, eq⟩
  · rwa [eq]
  · rw [eq]
    refine used.release ?_
    rintro rfl
    exact other marked

theorem wanted_retire (t : LabelTable) (l : LabelId) : (t.retire l).2.wanted = t.wanted := by
  unfold LabelTable.retire
  split
  · rfl
  · dsimp only
    split
    · exact wanted_update_of_same (t := t) fun _ => rfl
    · exact wanted_update_of_same (t := t) fun _ => rfl

theorem branches_retire (t : LabelTable) (l : LabelId) : (t.retire l).2.branches = t.branches := by
  unfold LabelTable.retire
  split
  · rfl
  · dsimp only
    split <;> rfl

theorem Exact.settle (h : t.Exact) (paired : t.Paired) (known : (t.get? l).isSome) :
    ((t.settle l).retire l).2.Exact := by
  have mark : ∀ k, ((t.settle l).retire l).2.mark k = if k = l then none else t.mark k := fun k => by
    rw [mark_retire paired.settle, mark_settle]
  have settled : ((t.settle l).retire l).2.settled = (t.settle l).settled := settled_retire _ l
  have wanted : ((t.settle l).retire l).2.wanted = t.wanted := (wanted_retire _ l).trans wanted_settle
  constructor
  · intro k hk open'
    rw [settled, settled_settle, not_or] at open'
    rw [wanted] at hk
    have other : k ≠ l := fun same => open'.2 ⟨same, same ▸ known⟩
    rw [mark, if_neg other]
    exact h.marked k hk open'.1
  · intro k p hk
    rw [mark] at hk
    split at hk
    · cases hk
    · next other =>
      rw [settled, settled_settle, not_or]
      exact ⟨h.unsettled k p hk, fun same => other same.1⟩

/-- Nothing is pending exactly if there is no mark left. -/
theorem pending_eq_zero (h : t.Paired) (none : ∀ l, t.mark l = none) : t.pending = 0 := by
  unfold LabelTable.pending
  rw [Array.countP_eq_zero]
  rintro entry mem some
  obtain ⟨n, bound, found⟩ := Array.getElem_of_mem mem
  have pending : t.IsPending ⟨n⟩ := by
    rw [IsPending, users, Array.getElem?_eq_getElem bound, found]
    simpa using some
  obtain ⟨l, hl⟩ := h.owner ⟨n⟩ pending
  cases (none l).symm.trans hl

/-! ### Users and branches that are recorded -/

theorem usedBy_of_recordUses {ps : List PlaceholderId} (h : (t.recordUses ps i).UsedBy q j) : t.UsedBy q j ∨ j = i := by
  induction ps generalizing t with
  | nil => exact .inl h
  | cons p ps ih =>
    rcases ih h with ⟨is, found, mem⟩ | new
    · rw [users_recordUse] at found
      split at found
      · next same =>
        obtain ⟨old, before, rfl⟩ := Option.map_eq_some_iff.mp found
        split at mem
        · exact .inl ⟨old, same ▸ before, mem⟩
        · exact (List.mem_append.mp mem).imp (fun earlier => ⟨old, same ▸ before, earlier⟩) List.mem_singleton.mp
      · exact .inl ⟨is, found, mem⟩
    · exact .inr new

theorem branches_recordUses (t : LabelTable) (ps : List PlaceholderId) (i : InstrId) :
    (t.recordUses ps i).branches = t.branches := by
  induction ps generalizing t with
  | nil => rfl
  | cons p ps ih => exact ih (t.recordUse p i)

/-- Taking back a placeholder gives its users, and leaves no new ones. -/
theorem users_of_retire (t : LabelTable) (l : LabelId) : (∀ q j, (t.retire l).2.UsedBy q j → t.UsedBy q j) ∧
    ∀ p is, (t.retire l).1 = some (p, is) → t.users p = some is := by
  unfold LabelTable.retire
  split
  · exact ⟨fun _ _ h => h, by rintro _ _ ⟨⟩⟩
  · next p marked =>
    dsimp only
    split
    · exact ⟨fun _ _ h => h, by rintro _ _ ⟨⟩⟩
    · next is found =>
      refine ⟨fun q i used => ?_, fun q js eq => ?_⟩
      · obtain ⟨js, there, mem⟩ := used
        refine ⟨js, ?_, mem⟩
        simp only [LabelTable.users, Array.getElem?_setIfInBounds] at there ⊢
        split at there
        · split at there <;> cases there
        · exact there
      · cases eq
        exact found

/-- A new placeholder has no users. -/
theorem usedBy_of_placeholderFor (h : (t.placeholderFor l).2.UsedBy q j) : t.UsedBy q j := by
  rcases t.placeholderFor_cases l with ⟨p, -, same⟩ | ⟨-, same⟩
  · rwa [same] at h
  · rw [same] at h
    obtain ⟨is, found, mem⟩ := h
    rw [users_mint] at found
    split at found
    · cases found
      cases mem
    · exact ⟨is, found, mem⟩

theorem branches_placeholderFor (t : LabelTable) (l : LabelId) : (t.placeholderFor l).2.branches = t.branches := by
  unfold LabelTable.placeholderFor
  split <;> rfl

end FlowIR.LabelTable
