import FlowIR.Proofs.Perform.Branch

/-!
Switches.

The table of a switch has a block for every case (`Cursor.Tabled`). The switch goes to the block of the
case that lists the value, or else to that of the default case, or else behind the cases
(`exists_drop_selected`). The bodies of the cases are parts in these blocks, and one that comes to its end
goes on in the next: what the code does from the block of a case on is what all the bodies from that case
on do in a row (`Cursor.Chain`).
-/

namespace FlowIR

open Machine Emit FlowIR.Expr Stmt List

variable {F : Frame} {S : Scene} {c mid after : Cursor} {m m' : Machine} {σ : State} {fuel : Nat}
  {watched : Option InstrId} {cases : List (List Expr × Stmt)} {base : Cursor} {es : List Expr} {a : Int}
  {span : Span} {exit : BlockId} {x : BlockId}

/-! ### The entries of a table -/

def Expr.literals (es : List Expr) : List Int := es.filterMap (·.literal?)

theorem Expr.lists_iff : lists a es = true ↔ a ∈ literals es := by
  simp [lists, literals]

/-- The entries of the table of a switch whose cases have the given blocks. -/
def caseEntries : List (List Expr) → List BlockId → List (Int × BlockId)
  | es :: cases, x :: blocks => (literals es).map (·, x) ++ caseEntries cases blocks
  | _, _ => []

def defaultBlock : List (List Expr) → List BlockId → Option BlockId
  | es :: cases, x :: blocks => if es.isEmpty then some x else defaultBlock cases blocks
  | _, _ => none

theorem lookup_map_pair : ∀ {values : List Int}, (values.map (·, x)).lookup a = if a ∈ values then some x else none
  | [] => rfl
  | v :: values => by
    rw [map_cons, lookup_cons, lookup_map_pair]
    by_cases same : a = v
    · simp [same]
    · have differs : (a == v) = false := by simp [same]
      rw [differs]
      simp [same]

/-- Where a value is listed, its entry is that of the first case that lists it. -/
theorem exists_lookup_caseEntries : ∀ {cases : List (List Expr × Stmt)} {blocks : List BlockId},
    blocks.length = cases.length → (cases.any fun k => lists a k.1) = true →
    ∃ i x, blocks[i]? = some x ∧ (caseEntries (cases.map Prod.fst) blocks).lookup a = some x ∧
      (cases.dropWhile fun k => !lists a k.1) = cases.drop i
  | [], _, _, listed => by cases listed
  | k :: cases, [], same, _ => by cases same
  | k :: cases, x :: blocks, same, listed => by
    rw [map_cons, caseEntries, lookup_append, lookup_map_pair]
    by_cases here : lists a k.1 = true
    · refine ⟨0, x, rfl, ?_, ?_⟩
      · rw [if_pos (lists_iff.mp here)]
        rfl
      · rw [dropWhile_cons_of_neg (by simp [here])]
        rfl
    · have later : (cases.any fun k => lists a k.1) = true := by
        rw [any_cons, Bool.or_eq_true] at listed
        exact listed.resolve_left here
      obtain ⟨i, y, there, found, dropped⟩ := exists_lookup_caseEntries (Nat.succ.inj same) later
      refine ⟨i + 1, y, there, ?_, ?_⟩
      · rw [if_neg fun mem => here (lists_iff.mpr mem)]
        exact found
      · rw [dropWhile_cons_of_pos (by simp [here])]
        exact dropped

/-- A value that is not listed has no entry. -/
theorem lookup_caseEntries_of_unlisted : ∀ {cases : List (List Expr × Stmt)} {blocks : List BlockId},
    (cases.any fun k => lists a k.1) = false → (caseEntries (cases.map Prod.fst) blocks).lookup a = none
  | [], _, _ => rfl
  | k :: cases, [], _ => rfl
  | k :: cases, x :: blocks, unlisted => by
    rw [any_cons, Bool.or_eq_false_iff] at unlisted
    rw [map_cons, caseEntries, lookup_append, lookup_map_pair, lookup_caseEntries_of_unlisted unlisted.2,
      if_neg fun mem => by rw [lists_iff.mpr mem] at unlisted; cases unlisted.1]
    rfl

/-- The default case is the first one without values. -/
theorem exists_defaultBlock (exit : BlockId) : ∀ {cases : List (List Expr × Stmt)} {blocks : List BlockId},
    blocks.length = cases.length →
    ∃ i, (defaultBlock (cases.map Prod.fst) blocks).getD exit = (blocks[i]?).getD exit ∧
      (cases.dropWhile fun k => !k.1.isEmpty) = cases.drop i
  | [], [], _ => ⟨0, rfl, rfl⟩
  | k :: cases, [], same => by cases same
  | [], _ :: _, same => by cases same
  | k :: cases, x :: blocks, same => by
    rw [map_cons, defaultBlock]
    by_cases here : k.1.isEmpty = true
    · refine ⟨0, ?_, ?_⟩
      · rw [if_pos here]
        rfl
      · rw [dropWhile_cons_of_neg (by simp [here])]
        rfl
    · obtain ⟨i, found, dropped⟩ := exists_defaultBlock exit (Nat.succ.inj same)
      refine ⟨i + 1, ?_, ?_⟩
      · rw [if_neg here]
        exact found
      · rw [dropWhile_cons_of_pos (by simp [here])]
        exact dropped

/-- The block that a value leads to is that of the first of the cases that are selected. -/
theorem exists_drop_selected (a : Int) {blocks : List BlockId} (same : blocks.length = cases.length) :
    ∃ i, ((caseEntries (cases.map Prod.fst) blocks).lookup a).getD
        ((defaultBlock (cases.map Prod.fst) blocks).getD exit) = (blocks[i]?).getD exit ∧
      selected a cases = cases.drop i := by
  unfold selected
  by_cases listed : (cases.any fun k => lists a k.1) = true
  · obtain ⟨i, x, there, found, dropped⟩ := exists_lookup_caseEntries same listed
    refine ⟨i, ?_, ?_⟩
    · rw [found, there]
      rfl
    · rw [if_pos listed]
      exact dropped
  · obtain ⟨i, found, dropped⟩ := exists_defaultBlock exit same
    refine ⟨i, ?_, ?_⟩
    · rw [lookup_caseEntries_of_unlisted (Bool.not_eq_true _ ▸ listed)]
      exact found
    · rw [if_neg listed]
      exact dropped

/-! ### Making the table -/

def Expr.AreLiterals (es : List Expr) : Prop := ∀ e ∈ es, e.literal?.isSome = true

theorem Expr.AreLiterals.of_isLiteral {t : Ty} (h : ∀ e ∈ es, e.isLiteral t = true) :
    AreLiterals es := fun e he => by
  obtain ⟨v, found, -⟩ := (Option.any_eq_true _ _).mp (h e he)
  exact Option.isSome_iff_exists.mpr ⟨v, found⟩

/-- The values of one case are added in order, unless one of them is there already. -/
theorem addValues_ensures {block : BlockId} : ∀ {es : List Expr} {values : List (Int × BlockId)},
    Expr.AreLiterals es → (values.map Prod.fst).Nodup → Ensures (addValues block es values) c
      (fun r after => after = c ∧ r = values ++ (Expr.literals es).map (·, block) ∧ (r.map Prod.fst).Nodup)
      fun e _ => e.IsDuplicate ∧ ¬ (values.map Prod.fst ++ Expr.literals es).Nodup
  | [], values, _, distinct => by
    rw [addValues]
    exact ensures_pure.mpr ⟨rfl, (append_nil _).symm, distinct⟩
  | e :: es, values, literals, distinct => by
    obtain ⟨v, found⟩ := Option.isSome_iff_exists.mp (literals e mem_cons_self)
    have plain : e.isError = false := by
      cases e <;> first | rfl | cases found
    have rest : Expr.literals (e :: es) = v :: Expr.literals es := by simp [Expr.literals, found]
    rw [addValues, plain, if_neg Bool.false_ne_true, found]
    dsimp only
    by_cases twice : (values.any fun x => decide (x.1 = v)) = true
    · rw [if_pos twice]
      refine ensures_bind.mpr (ensures_lift.mpr ?_)
      refine ⟨⟨_, _, v, rfl⟩, fun nodup => ?_⟩
      obtain ⟨p, hp, eq⟩ := any_eq_true.mp twice
      rw [rest] at nodup
      refine (nodup_append.mp nodup).2.2 p.1 (mem_map_of_mem hp) v mem_cons_self ?_
      exact of_decide_eq_true eq
    · rw [if_neg twice]
      have new : v ∉ values.map Prod.fst := fun mem => by
        obtain ⟨p, hp, eq⟩ := mem_map.mp mem
        exact twice (any_eq_true.mpr ⟨p, hp, decide_eq_true eq⟩)
      have distinct' : ((values ++ [(v, block)]).map Prod.fst).Nodup := by
        rw [map_append, nodup_append]
        refine ⟨distinct, by simp, ?_⟩
        rintro a ha b hb rfl
        cases mem_singleton.mp hb
        exact new ha
      have literals' : Expr.AreLiterals es := fun e' he' => literals e' (mem_cons_of_mem _ he')
      refine (addValues_ensures literals' distinct').mono ?_ ?_
      · rintro r _ ⟨rfl, rfl, nodup⟩
        refine ⟨rfl, ?_, nodup⟩
        rw [rest, append_assoc]
        rfl
      · rintro err _ ⟨dup, twice'⟩
        refine ⟨dup, fun nodup => twice' ?_⟩
        rw [rest] at nodup
        rw [map_append, append_assoc]
        exact nodup

theorem caseEntries_concat (es : List Expr) (x : BlockId) : ∀ {cases : List (List Expr)} {blocks : List BlockId},
    blocks.length = cases.length →
    caseEntries (cases ++ [es]) (blocks ++ [x]) = caseEntries cases blocks ++ (literals es).map (·, x)
  | [], [], _ => by simp [caseEntries]
  | [], _ :: _, same => by cases same
  | _ :: _, [], same => by cases same
  | vs :: cases, y :: blocks, same => by
    rw [cons_append, cons_append, caseEntries, caseEntries,
      caseEntries_concat es x (Nat.succ.inj same), append_assoc]

theorem defaultBlock_concat (es : List Expr) (x : BlockId) : ∀ {cases : List (List Expr)} {blocks : List BlockId},
    blocks.length = cases.length → defaultBlock (cases ++ [es]) (blocks ++ [x]) =
      (defaultBlock cases blocks).or (if es.isEmpty then some x else none)
  | [], [], _ => by
    simp only [nil_append, defaultBlock, Option.none_or]
  | [], _ :: _, same => by cases same
  | _ :: _, [], same => by cases same
  | vs :: cases, y :: blocks, same => by
    rw [cons_append, cons_append, defaultBlock, defaultBlock,
      defaultBlock_concat es x (Nat.succ.inj same)]
    split <;> rfl

theorem isSome_defaultBlock : ∀ {cases : List (List Expr)} {blocks : List BlockId}, blocks.length = cases.length →
    (defaultBlock cases blocks).isSome = cases.any (·.isEmpty)
  | [], _, _ => rfl
  | _ :: _, [], same => by cases same
  | vs :: cases, y :: blocks, same => by
    rw [defaultBlock, any_cons]
    cases vs.isEmpty with
    | true => rfl
    | false => exact isSome_defaultBlock (Nat.succ.inj same)

/-- The values of an entry are those of the cases. -/
theorem map_fst_caseEntries : ∀ {cases : List (List Expr)} {blocks : List BlockId}, blocks.length = cases.length →
    (caseEntries cases blocks).map Prod.fst = cases.flatMap literals
  | [], _, _ => rfl
  | _ :: _, [], same => by cases same
  | vs :: cases, y :: blocks, same => by
    rw [caseEntries, map_append, flatMap_cons, map_fst_caseEntries (Nat.succ.inj same), map_map]
    congr 1
    exact (map_congr_left fun _ _ => rfl).trans (map_id _)

/-- What the table of a switch is like whose cases list the given values, where each case has got a new block. -/
structure Cursor.Tabled (c : Cursor) (cases : List (List Expr)) (table : Emit.CaseTable) (after : Cursor) :
    Prop where
  able : after.Able
  adds : c.Adds after
  instrs : after.graph.instrs = c.graph.instrs
  spot : ∀ S m, after.spot S m = c.spot S m
  isOpen : after.Open ↔ c.Open
  length : table.blocks.length = cases.length
  new : ∀ x ∈ table.blocks, after.Waits x ∧ c.graph.blocks.size ≤ x.index
  apart : table.blocks.Nodup
  values : table.values = caseEntries cases table.blocks
  default : table.default = defaultBlock cases table.blocks
  distinct : (cases.flatMap literals).Nodup

theorem Cursor.Tabled.empty (able : c.Able) : c.Tabled [] {} c where
  able := able
  adds := .refl c
  instrs := rfl
  spot := fun _ _ => rfl
  isOpen := Iff.rfl
  length := rfl
  new := by rintro _ ⟨⟩
  apart := nodup_nil
  values := rfl
  default := rfl
  distinct := nodup_nil

/-- One more case in the table. -/
theorem addCase_ensures {cases : List (List Expr)} {table : Emit.CaseTable}
    (tabled : base.Tabled cases table c) (literals : Expr.AreLiterals es)
    (single : es.isEmpty = true → cases.any (·.isEmpty) = false) :
    Ensures (addCase span table es) c (fun table' after => base.Tabled (cases ++ [es]) table' after)
      fun e _ => e.IsDuplicate ∧ ¬ ((cases ++ [es]).flatMap Expr.literals).Nodup := by
  have keys : table.values.map Prod.fst = cases.flatMap Expr.literals := by
    rw [tabled.values, map_fst_caseEntries tabled.length]
  have all : (cases ++ [es]).flatMap Expr.literals = cases.flatMap Expr.literals ++ Expr.literals es := by
    simp
  have first : (es.isEmpty && table.default.isSome) = false := by
    rw [tabled.default, isSome_defaultBlock tabled.length]
    cases h : es.isEmpty with
    | true => rw [single h]; rfl
    | false => rfl
  unfold addCase
  refine (newBlock_succeeds tabled.able _).or fun x c₁ made => ?_
  rw [first, if_neg Bool.false_ne_true]
  refine Ensures.bind (R := fun r after => after = c₁ ∧ r = table.values ++ (Expr.literals es).map (·, x) ∧
    (r.map Prod.fst).Nodup) ?_ ?_
  · refine (addValues_ensures literals (keys ▸ tabled.distinct)).mono (fun _ _ h => h) ?_
    rintro e _ ⟨dup, twice⟩
    rw [keys] at twice
    exact ⟨dup, all ▸ twice⟩
  · rintro _ _ ⟨rfl, rfl, nodup⟩
    have new : ∀ y ∈ table.blocks, y ≠ x := fun y hy eq => by
      have below := (tabled.new y hy).1.made
      rw [eq, made.index] at below
      exact Nat.lt_irrefl _ below
    exact
      { able := made.able
        adds := tabled.adds.trans made.adds
        instrs := made.instrs.trans tabled.instrs
        spot := fun S m => made.spot.trans (tabled.spot S m)
        isOpen := made.open_iff.trans tabled.isOpen
        length := by simp [tabled.length]
        new := fun y hy => by
          rcases mem_append.mp hy with old | last
          · exact ⟨(tabled.new y old).1.adds made.adds, (tabled.new y old).2⟩
          · cases mem_singleton.mp last
            exact ⟨made.waits, made.index ▸ tabled.adds.blocks_le⟩
        apart := by
          refine nodup_append.mpr ⟨tabled.apart, by simp, fun y hy z hz => ?_⟩
          cases mem_singleton.mp hz
          exact new y hy
        values := by rw [tabled.values, caseEntries_concat es x tabled.length]
        default := by
          rw [defaultBlock_concat es x tabled.length, ← tabled.default]
          cases h : es.isEmpty with
          | true =>
            have unset : table.default = none := by simpa [h] using first
            rw [unset]
            rfl
          | false => simp
        distinct := by
          rw [all, ← keys]
          have eq : (table.values ++ (Expr.literals es).map (·, x)).map Prod.fst =
              table.values.map Prod.fst ++ Expr.literals es := by
            rw [map_append, map_map]
            congr 1
            exact (map_congr_left fun _ _ => rfl).trans (map_id _)
          exact eq ▸ nodup }

/-- Making the table of a switch with literals as its values and at most one default case. -/
theorem caseTable_ensures (span : Span) : ∀ {cases done : List (List Expr)} {table : Emit.CaseTable}
    {c : Cursor}, base.Tabled done table c → (∀ es ∈ cases, Expr.AreLiterals es) →
    (done ++ cases).countP (·.isEmpty) ≤ 1 →
    Ensures (cases.foldlM (addCase span) table) c (fun table' after => base.Tabled (done ++ cases) table' after)
      fun e _ => e.IsDuplicate ∧ ¬ ((done ++ cases).flatMap Expr.literals).Nodup
  | [], done, table, c, tabled, _, _ => by
    rw [foldlM_nil, append_nil]
    exact ensures_pure.mpr tabled
  | es :: cases, done, table, c, tabled, literals, single => by
    have eq : done ++ es :: cases = (done ++ [es]) ++ cases := by simp
    rw [foldlM_cons, eq]
    have here : es.isEmpty = true → done.any (·.isEmpty) = false := fun empty => by
      rw [countP_append, countP_cons, if_pos empty] at single
      have zero : done.countP (·.isEmpty) = 0 := by omega
      rw [any_eq_false]
      exact fun vs hvs => by simpa using countP_eq_zero.mp zero vs hvs
    refine Ensures.bind (R := fun table' after => base.Tabled (done ++ [es]) table' after) ?_ ?_
    · refine (addCase_ensures tabled (literals es mem_cons_self) here).mono (fun _ _ h => h) ?_
      rintro e _ ⟨dup, twice⟩
      refine ⟨dup, fun nodup => twice ?_⟩
      rw [flatMap_append] at nodup
      exact (nodup_append.mp nodup).1
    · intro table' after tabled'
      exact caseTable_ensures span tabled' (fun vs hvs => literals vs (mem_cons_of_mem _ hvs)) (eq ▸ single)

/-! ### The bodies of the cases -/

/-- The bodies of the cases have been emitted, each in its block. From the block of any case on, the code does
what the bodies from that case on do, and ends at `exit`. -/
structure Cursor.Chain (base c : Cursor) (F : Frame) (exit : BlockId) (blocks : List BlockId)
    (cases : List (List Expr × Stmt)) (after : Cursor) : Prop where
  able : after.Able
  adds : base.Adds after
  builder : c.builder.Extends after.builder
  waits : ∀ {y}, c.Waits y → y ∉ blocks → after.Waits y
  marked : c.marked = true → after.marked = true
  runs : ∀ S : Scene, after.In S → ∀ i watched fuel σ m, base.Meets F S watched fuel σ m →
    base.Does F S watched after (fun m' t => t = .before exit (S.graph.body exit) m') fuel
      (.before ((blocks[i]?).getD exit) (S.graph.body ((blocks[i]?).getD exit)) m) m
      (.block ((cases.drop i).map Prod.snd)) σ

theorem Cursor.Chain.empty (able : c.Able) (adds : base.Adds c) : base.Chain c F exit [] [] c where
  able := able
  adds := adds
  builder := .refl _
  waits := fun waits _ => waits
  marked := id
  runs := fun S _ i watched fuel σ m meets => by
    rw [drop_nil]
    exact .here ⟨.normal, σ, .empty, m, rfl, .refl meets.toTracks⟩

/-- One more case in front. -/
theorem Cursor.Chain.cons {exit x : BlockId} {blocks : List BlockId} {s : Stmt}
    (first : base.Part c F x (blocks.head?.getD exit) s mid) (rest : base.Chain mid F exit blocks cases after) :
    base.Chain c F exit (x :: blocks) ((es, s) :: cases) after where
  able := rest.able
  adds := rest.adds
  builder := first.builder.trans rest.builder
  waits := fun waits apart => rest.waits (first.waits waits fun eq => apart (eq ▸ mem_cons_self))
    fun mem => apart (mem_cons_of_mem _ mem)
  marked := fun marked => rest.marked (first.marked marked)
  runs := fun S inside i watched fuel σ m meets => by
    cases i with
    | succ i => exact rest.runs S inside i watched fuel σ m meets
    | zero =>
      refine Cursor.Does.bind (first.runs S (inside.extends rest.builder) watched fuel σ m meets) (.refl base)
        (.refl _ _ _ _) ?_ ?_
      · rintro left σ₁ m₁ _ - bound exec rfl follows
        have next := rest.runs S inside 0 watched left σ₁ m₁ (meets.next follows.toTracks bound)
        rw [← head?_eq_getElem?] at next
        refine next.mono ?_
        rintro t ⟨exit', σ₂, exec', lands⟩
        exact ⟨exit', σ₂, .sequence exec exec', lands.since (.refl base) follows.keeps⟩
      · intro exit' σ₁ t early exec lands
        exact ⟨exit', σ₁, .cutShort exec early, lands.onward rest.builder rest.marked
          fun _ eq => absurd eq early⟩

def CasesEnact (F : Frame) (cases : List (List Expr × Stmt)) : Prop := ∀ k ∈ cases, Enacts F k.2 true (stmt k.2)

/-- The bodies of the cases in order, each followed by the next. -/
theorem caseBodies_ensures (host : base.Hosts F) (within : base.exits.head? = some exit) :
    ∀ {cases : List (List Expr × Stmt)} {blocks : List BlockId} {c : Cursor}, CasesEnact F cases →
    blocks.length = cases.length → blocks.Nodup → c.Able → base.Adds c →
    (∀ x ∈ blocks, c.Waits x ∧ base.graph.blocks.size ≤ x.index) → exit.index < c.graph.blocks.size →
    Ensures (caseBodies blocks exit cases) c
      (fun _ after => base.Chain c F exit blocks cases after ∧ casesDistinct cases = true)
      fun e _ => e.IsDuplicate ∧ casesDistinct cases = false
  | [], [], c, _, _, _, able, adds, _, _ => by
    rw [caseBodies]
    exact ensures_pure.mpr ⟨.empty able adds, rfl⟩
  | [], _ :: _, _, _, same, _, _, _, _, _ => by cases same
  | _ :: _, [], _, _, same, _, _, _, _, _ => by cases same
  | (es, s) :: cases, x :: blocks, c, enact, same, apart, able, adds, waits, made => by
    have distinct : casesDistinct ((es, s) :: cases) = (s.isDistinct && casesDistinct cases) := by
      rw [casesDistinct]
    have next : (blocks.head?.getD exit).index < c.graph.blocks.size := by
      cases blocks with
      | nil => exact made
      | cons y blocks => exact (waits y (mem_cons_of_mem _ mem_cons_self)).1.made
    obtain ⟨fresh, apart'⟩ := nodup_cons.mp apart
    rw [caseBodies]
    dsimp only [head?_cons, Option.getD_some, tail_cons]
    refine part_succeeds (enact _ mem_cons_self) (host.adds adds able)
      (fun _ => ⟨exit, adds.exits ▸ within, made⟩) adds
      (waits x mem_cons_self).1 (waits x mem_cons_self).2 next
      (fun twice => by rw [distinct, twice]; rfl) fun c₁ first distinct' => ?_
    have waits' : ∀ y ∈ blocks, c₁.Waits y ∧ base.graph.blocks.size ≤ y.index := fun y hy => by
      obtain ⟨waits, new⟩ := waits y (mem_cons_of_mem _ hy)
      exact ⟨first.waits waits fun eq => fresh (eq ▸ hy), new⟩
    refine (caseBodies_ensures host within (fun k hk => enact k (mem_cons_of_mem _ hk))
      (Nat.succ.inj same) apart' first.able first.adds waits'
      (Nat.lt_of_lt_of_le made first.builder.graph.size)).mono ?_ ?_
    · rintro _ after ⟨rest, distinctRest⟩
      exact ⟨.cons first rest, by rw [distinct, distinct', distinctRest]; rfl⟩
    · rintro e _ ⟨dup, twice⟩
      exact ⟨dup, by rw [distinct, twice, Bool.and_false]⟩

/-! ### The switch -/

/-- A switch goes to the block of the value, and to the default if the value is not listed. -/
theorem Scene.step_switch {S : Scene} {m : Machine} {k : InstrId} {shape : Shape} {name : Option String}
    {v : Operand} {default : BlockId} {cases : List (Int × BlockId)} {t : Ty}
    (hk : S.graph.instr k = .ok ⟨.switch v default cases, shape, name⟩) (integer : t.isInteger = true)
    (hs : S.graph.shapeOf v = .ok t.shape) (gives : m.eval S.args v = .ok (t.encode a)) :
    step S.graph S.args m k = .ok (.jump ((cases.lookup (signedOf t.bits (t.word a))).getD default), m) := by
  have word : m.evalWord S.args v = .ok (t.word a) := by
    unfold evalWord
    rw [Checked.bind_eq_ok_iff]
    exact ⟨_, gives, congrArg Except.ok (Ty.word_encode integer a)⟩
  simp only [step, hk, hs, Ty.bitsOf_shape integer, word, bind, Except.bind]
  rfl

/-- The table, the block behind the cases and the switch itself have been made for an operand that holds a value
of the type. -/
structure Cursor.Selects (c : Cursor) (t : Ty) (v : Operand) (cases : List (List Expr)) (table : Emit.CaseTable)
    (exit : BlockId) (after : Cursor) : Prop where
  able : after.Able
  adds : c.Adds after
  length : table.blocks.length = cases.length
  new : ∀ x ∈ table.blocks, after.Waits x ∧ c.graph.blocks.size ≤ x.index
  apart : table.blocks.Nodup
  waits : after.Waits exit
  newExit : c.graph.blocks.size ≤ exit.index
  outside : exit ∉ table.blocks
  values : table.values = caseEntries cases table.blocks
  default : table.default = defaultBlock cases table.blocks
  distinct : (cases.flatMap literals).Nodup
  jumps : c.Open → ∀ S : Scene, after.In S → ∀ fuel a m (P : Config → Prop), S.Gives v t a m →
    (∀ target, target = (table.values.lookup (signedOf t.bits (t.word a))).getD (table.default.getD exit) →
      ∀ left, left < fuel → S.Leads left (.before target (S.graph.body target) m) P) →
    S.Leads fuel (c.spot S m) P

/-- A target of a switch is one of its blocks, the default or another one. -/
theorem mem_of_lookup_caseEntries : ∀ {cases : List (List Expr)} {blocks : List BlockId},
    (caseEntries cases blocks).lookup a = some x → x ∈ blocks
  | [], _, found => by
    rw [caseEntries] at found
    · cases found
    · rintro _ _ _ _ ⟨⟩
  | _ :: _, [], found => by cases found
  | vs :: cases, y :: blocks, found => by
    rw [caseEntries, lookup_append, lookup_map_pair] at found
    by_cases here : a ∈ literals vs
    · rw [if_pos here] at found
      cases found
      exact mem_cons_self
    · rw [if_neg here] at found
      exact mem_cons_of_mem _ (mem_of_lookup_caseEntries found)

theorem mem_of_defaultBlock : ∀ {cases : List (List Expr)} {blocks : List BlockId},
    defaultBlock cases blocks = some x → x ∈ blocks
  | [], _, found => by
    rw [defaultBlock] at found
    · cases found
    · rintro _ _ _ _ ⟨⟩
  | _ :: _, [], found => by cases found
  | vs :: cases, y :: blocks, found => by
    rw [defaultBlock] at found
    split at found
    · cases found
      exact mem_cons_self
    · exact mem_cons_of_mem _ (mem_of_defaultBlock found)

/-- The table of a switch, and the branch over it. -/
theorem selects_ensures {t : Ty} {v : Operand} {cases : List (List Expr)} {β : Type}
    {f : Emit.CaseTable → BlockId → InstrId → EmitM β} {Q : β → Cursor → Prop} {distinct : Bool} (able : c.Able)
    (integer : t.isInteger = true) (offers : c.Offers v t.shape) (literals : ∀ es ∈ cases, Expr.AreLiterals es)
    (single : cases.countP (·.isEmpty) ≤ 1) (part : ¬ (cases.flatMap Expr.literals).Nodup → distinct = false)
    (next : ∀ table exit i after, c.Selects t v cases table exit after →
      Ensures (f table exit i) after Q fun e _ => e.IsDuplicate ∧ distinct = false) :
    Ensures (caseTable span cases >>= fun table => liftM (Build.newBlock "swexit") >>= fun exit =>
      perform (.switch v (table.default.getD exit) table.values) >>= fun i => f table exit i) c Q
      fun e _ => e.IsDuplicate ∧ distinct = false := by
  refine Ensures.bind (R := fun table mid => c.Tabled cases table mid) ?_ fun table c₁ tabled => ?_
  · unfold caseTable
    refine (caseTable_ensures span (.empty able) literals single).mono (fun _ _ h => h) ?_
    exact fun _ _ failed => ⟨failed.1, part failed.2⟩
  refine (newBlock_succeeds tabled.able "swexit").or fun exit c₂ made => ?_
  have whole : (Op.switch v (table.default.getD exit) table.values).Whole := fun u hu => by
    cases mem_singleton.mp hu
    exact offers.whole
  refine (perform_succeeds made.able whole rfl).or fun i after pushed => next table exit i after ?_
  have adds₂ : c.Adds c₂ := tabled.adds.trans made.adds
  have waits : ∀ x ∈ table.blocks, c₂.Waits x := fun x hx => (tabled.new x hx).1.adds made.adds
  refine
    { able := pushed.able
      adds := adds₂.trans pushed.adds
      length := tabled.length
      new := fun x hx => ⟨(waits x hx).adds pushed.adds, (tabled.new x hx).2⟩
      apart := tabled.apart
      waits := made.waits.adds pushed.adds
      newExit := made.index ▸ tabled.adds.blocks_le
      outside := fun mem => ?_
      values := tabled.values
      default := tabled.default
      distinct := tabled.distinct
      jumps := fun isOpen S inside fuel a m P gives later => ?_ }
  · have below := (tabled.new exit mem).1.made
    rw [made.index] at below
    exact Nat.lt_irrefl _ below
  · obtain ⟨_, found⟩ := pushed.there inside rfl
    have inside₂ := inside.adds pushed.adds
    have shape : S.graph.shapeOf v = .ok t.shape := (offers.adds adds₂).shapeOf inside₂
    have isOpen₂ : c₂.Open := made.open_iff.mpr (tabled.isOpen.mpr isOpen)
    have start : c.spot S m = c₂.spot S m := by rw [made.spot, tabled.spot]
    have target : ((table.values.lookup (signedOf t.bits (t.word a))).getD (table.default.getD exit)).index <
        c₂.graph.blocks.size := by
      rw [tabled.values, tabled.default]
      cases entry : (caseEntries cases table.blocks).lookup (signedOf t.bits (t.word a)) with
      | some x => exact (waits x (mem_of_lookup_caseEntries entry)).made
      | none =>
        cases other : defaultBlock cases table.blocks with
        | some x => exact (waits x (mem_of_defaultBlock other)).made
        | none => exact made.waits.made
    rw [start]
    refine pushed.jump isOpen₂ inside (Scene.step_switch found integer shape gives.2)
      (Nat.lt_of_lt_of_le target inside₂.graph.size) fun left fewer _ => ?_
    exact later _ rfl left fewer

section Leaving

variable {exits : List BlockId} {x : BlockId}

theorem Cursor.Able.leaving (h : c.Able) : ({ c with exits } : Cursor).Able :=
  ⟨h.placed, h.entry, h.current, h.listed, h.late, h.pads, h.cleanups⟩

theorem Cursor.Waits.leaving (h : c.Waits x) : ({ c with exits } : Cursor).Waits x :=
  ⟨h.made, h.empty, h.apart, h.inner⟩

theorem Cursor.Hosts.leaving (h : c.Hosts F) : ({ c with exits } : Cursor).Hosts F :=
  ⟨h.able.leaving, h.declares, h.typed, h.apart, h.kept, h.own, h.flags, h.result, h.returns, h.rethrow⟩

end Leaving

/-- What the run of a switch comes to: the bodies of the cases that are selected by the value as the machine
reads it, or an early end of the evaluation. -/
def Cursor.Chooses (c : Cursor) (F : Frame) (S : Scene) (watched : Option InstrId) (after : Cursor)
    (goal : Machine → Config → Prop) (m : Machine) (value : Expr) (cases : List (List Expr × Stmt)) (σ : State)
    (t : Config) : Prop :=
  (∃ a w exit σ', value.ty.Fits a ∧ value.eval σ.vars σ.world = .ok a w ∧
    Exec (.block ((selected (signedOf value.ty.bits (value.ty.word a)) cases).map Prod.snd))
      { σ with world := w } exit σ' ∧ c.Lands F S watched after goal m exit.ofCases σ' t) ∨
  ∃ stop w, value.eval σ.vars σ.world = .error stop w ∧
    c.Lands F S watched after goal m (.stopped stop) { σ with world := w } t

structure Cursor.Switches (c : Cursor) (F : Frame) (value : Expr) (cases : List (List Expr × Stmt))
    (after : Cursor) : Prop where
  able : after.Able
  adds : c.Adds after
  runs : c.Open → ∀ S : Scene, after.In S → ∀ watched fuel σ m, c.Meets F S watched fuel σ m →
    S.Leads fuel (c.spot S m)
      (c.Chooses F S watched after (fun m' t => after.Open ∧ t = after.spot S m') m value cases σ)

/-- A switch is built, unless some value is listed twice. -/
theorem switch_ensures {value : Expr} (host : c.Hosts F)
    (scalar : value.isScalar F.types = true) (quiet : value.isQuiet F.hides = true)
    (literals : ∀ k ∈ cases, Expr.AreLiterals k.1) (single : cases.countP (·.1.isEmpty) ≤ 1)
    (enact : CasesEnact F cases) :
    Ensures (stmt (.switch span value cases)) c
      (fun _ after => c.Switches F value cases after ∧ (switch span value cases).isDistinct = true)
      fun e _ => e.IsDuplicate ∧ (switch span value cases).isDistinct = false := by
  have integer := isInteger_of_isScalar scalar
  have distinct : (switch span value cases).isDistinct =
      (decide (caseValues cases).Nodup && casesDistinct cases) := by rw [isDistinct]
  have keys : (cases.map Prod.fst).flatMap Expr.literals = caseValues cases := by
    rw [flatMap_map]
    rfl
  rw [stmt]
  refine Succeeds.or (expr_computed scalar c host.able host.declares) ?_
  rintro _ c₁ ⟨v, rfl, computed⟩
  have host₁ := host.adds computed.adds computed.able
  dsimp only
  refine selects_ensures computed.able integer computed.offers
    (forall_mem_map.mpr literals) (by rwa [countP_map])
    (fun twice => by rw [distinct, decide_eq_false (keys ▸ twice)]; rfl) fun table exit i c₂ selects => ?_
  -- The cases are emitted with the exit on top of the others, and seen from before the table was made.
  unfold withExit
  refine ensures_bind.mpr (.modify (ensures_bind.mpr ?_))
  have adds₃ : ({ c₁ with exits := exit :: c₁.exits } : Cursor).Adds { c₂ with exits := exit :: c₂.exits } :=
    selects.adds.within ⟨rfl, rfl⟩ ⟨rfl, rfl⟩ selects.adds.pads
      (congrArg (cons exit) selects.adds.exits) selects.adds.cleanups
  have bodies := @caseBodies_ensures F _ exit host₁.leaving rfl cases table.blocks
    { c₂ with exits := exit :: c₂.exits } enact (selects.length.trans (length_map _)) selects.apart
    selects.able.leaving adds₃ (fun x hx => ⟨(selects.new x hx).1.leaving, (selects.new x hx).2⟩) selects.waits.made
  refine bodies.mono ?_ ?_
  · rintro _ c₃ ⟨chain, distinct'⟩
    refine .modify (ensures_pure.mpr ?_)
    have exits : c₃.exits = exit :: c₁.exits := chain.adds.exits
    have adds₄ : c₁.Adds { c₃ with exits := c₃.exits.tail } :=
      chain.adds.within ⟨rfl, rfl⟩ ⟨rfl, rfl⟩ chain.adds.pads (by rw [exits]; rfl) chain.adds.cleanups
    have waits := chain.waits selects.waits.leaving selects.outside
    refine (startBlock_succeeds chain.able.leaving waits.leaving).mono ?_ fun _ _ h => h.elim
    intro _ after enters
    have adds : c.Adds after := computed.adds.trans (enters.adds c₁ adds₄ selects.newExit)
    refine ⟨⟨enters.able, adds, fun isOpen S inside watched fuel σ m meets => ?_⟩, ?_⟩
    · have inside₃ : c₃.In S := inside.extends enters.builder
      have inside₂ : c₂.In S := inside₃.extends chain.builder
      have inside₁ := inside₂.adds selects.adds
      refine meets.evaluate host (inside₁.adds computed.adds) (honest_eval quiet)
        (computed.runs isOpen S inside₁ fuel σ.vars m meets.ready meets.holds) ?_ ?_
      · intro left a m' w _ run meets' keeps gives
        refine selects.jumps (computed.isOpen isOpen) S inside₂ left a m' _ gives fun target eq left' fewer => ?_
        rw [selects.values, selects.default] at eq
        obtain ⟨i, first, selected⟩ := exists_drop_selected (signedOf value.ty.bits (value.ty.word a))
          (selects.length.trans (length_map _))
        rw [first] at eq
        subst eq
        have meets₁ := (meets'.adds computed.adds).fewer (Nat.le_of_lt fewer)
        refine (chain.runs S inside₃ i watched left' _ m' ⟨meets₁.toTracks, meets₁.slot, meets₁.bound⟩).mono ?_
        rintro t ⟨exit', σ', exec, lands⟩
        refine .inl ⟨a, w, exit', σ', gives.1, run, selected ▸ exec, ?_⟩
        have keeps' : S.Keeps (c.Touches F) c.graph.instrs.size m m' := keeps.widen fun _ no => no.elim
        refine Cursor.Lands.since ?_ computed.adds keeps'
        have atExit : ∀ m'' t, t = Config.before exit (S.graph.body exit) m'' → after.Open ∧ t = after.spot S m'' :=
          fun m'' t eq => ⟨enters.starts.open, eq.trans (Cursor.spot_of_starts inside enters.starts).symm⟩
        by_cases left : exit' = .left
        · subst left
          obtain ⟨x, m'', head, eq, follows⟩ := lands
          cases head
          exact ⟨m'', atExit m'' t eq, follows.toTracks, follows.keeps⟩
        · have same : exit'.ofCases = exit' := by
            cases exit' <;> first | rfl | exact absurd rfl left
          rw [same]
          have outer : c₁.Lands F S watched c₃ _ m' exit' σ' t :=
            lands.reframe rfl rfl (fun _ => rfl) fun eq => absurd eq left
          exact outer.onward enters.builder enters.marked fun m'' _ reached => atExit m'' t reached
      · intro stop w t run lands
        exact .inr ⟨stop, w, run, lands _ _⟩
    · rw [distinct, distinct', decide_eq_true (keys ▸ selects.distinct)]
      rfl
  · rintro e _ ⟨dup, twice⟩
    exact ⟨dup, by rw [distinct, twice, Bool.and_false]⟩

theorem enacts_switch {value : Expr} (scalar : value.isScalar F.types = true) (signed : value.ty.isSigned = true)
    (quiet : value.isQuiet F.hides = true) (literals : ∀ k ∈ cases, Expr.AreLiterals k.1)
    (single : cases.countP (·.1.isEmpty) ≤ 1) (enact : CasesEnact F cases) (within : Bool) :
    Enacts F (.switch span value cases) within (stmt (.switch span value cases)) := by
  intro c host _
  have integer := isInteger_of_isScalar scalar
  refine (switch_ensures host scalar quiet literals single enact).mono ?_ fun _ _ failed => failed
  rintro _ after ⟨switches, distinct⟩
  refine ⟨⟨switches.able, switches.adds, fun isOpen S inside watched fuel σ m meets => ?_⟩, distinct⟩
  refine (switches.runs isOpen S inside watched fuel σ m meets).mono ?_
  rintro t (⟨a, w, exit, σ', fits, run, exec, lands⟩ | ⟨stop, w, run, lands⟩)
  · rw [Ty.signedOf_word integer signed fits] at exec
    exact ⟨exit.ofCases, σ', .switch run exec, lands⟩
  · exact ⟨_, _, .switchStops run, lands⟩

end FlowIR
