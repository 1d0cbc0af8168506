import FlowIR.Proofs.Emit.Listed

/-!
Blocks have names of their own.

All blocks but the entry block are named by the supply, whatever asks for them, so no two blocks of a complete function
have the same name, and each block of the layout is the one that is found by its name (`Emit.function_names_unique`).
-/

namespace FlowIR

/-- A search asks for one element after the other until it finds what it looks for. -/
theorem findM?_eq {α : Type} {p : α → Checked Bool} {a : α} : ∀ {l : List α}, a ∈ l → p a = .ok true →
    (∀ b ∈ l, p b = .ok true → b = a) → (∀ b ∈ l, ∃ t, p b = .ok t) → l.findM? p = .ok (some a)
  | b :: l, mem, hit, only, all => by
    obtain ⟨t, ht⟩ := all b List.mem_cons_self
    rw [List.findM?, ht]
    cases t with
    | true => rw [only b List.mem_cons_self ht]; rfl
    | false =>
      have rest : a ∈ l := (List.mem_cons.mp mem).resolve_left fun eq => by cases (eq ▸ hit).symm.trans ht
      exact findM?_eq rest hit (fun c hc => only c (.tail _ hc)) fun c hc => all c (.tail _ hc)

namespace Graph

variable {g : Graph} {x y : BlockId} {block other : Block}

theorem eq_of_name (distinct : g.blockNames.Nodup) (hx : g.block x = .ok block) (hy : g.block y = .ok other)
    (same : other.name = block.name) : y = x := by
  have name : ∀ {z : BlockId} {b : Block}, g.block z = .ok b → g.blockNames[z.index]? = some b.name := fun found => by
    rw [blockNames, List.getElem?_map, Array.getElem?_toList, require_eq_ok_iff.mp found]
    rfl
  have inside := (List.getElem?_eq_some_iff.mp (name hy)).1
  have index := (List.getElem?_inj inside distinct).mp ((name hy).trans (same ▸ (name hx).symm))
  cases x
  cases y
  exact congrArg BlockId.mk index

theorem findBlock_eq (distinct : g.blockNames.Nodup) (there : ∀ x ∈ g.layout, ∃ block, g.block x = .ok block)
    (laid : x ∈ g.layout) (found : g.block x = .ok block) : g.findBlock block.name = .ok (some x) := by
  refine findM?_eq laid (by rw [found]; exact congrArg Except.ok (beq_self_eq_true _)) (fun y _ hit =>
    ?_) fun y hy => ?_
  · obtain ⟨other, found', hit⟩ := Checked.bind_eq_ok_iff.mp hit
    exact eq_of_name distinct found found' (beq_iff_eq.mp (Except.ok.inj hit))
  · obtain ⟨other, found'⟩ := there y hy
    exact ⟨_, by rw [found']; rfl⟩

end Graph

namespace Emit

/-- A supply hands out no name twice, whatever the tags are. Whatever is called to set a function up, and
whatever its body is: the blocks in the layout of the complete function have different names, and each is found
by its name. -/
theorem function_names_unique : (∀ (names : NameSupply) (tags : List String), (names.freshAll tags).Nodup) ∧
    ∀ {s : Session} {name : String} {signature : Signature} {b₀ b : Builder} {calls : List Build.Call}
      {body : Stmt}
      {g : Graph} {last : Builder}, s.begin name signature = .ok b₀ → Build.prepare calls b₀ = .ok b →
      function body b = .ok g last →
      g.layout.Pairwise (fun x y => ∀ block other, g.block x = .ok block → g.block y = .ok other →
        block.name ≠ other.name) ∧
      ∀ x ∈ g.layout, ∃ block, g.block x = .ok block ∧ g.findBlock block.name = .ok (some x) := by
  refine ⟨NameSupply.nodup_freshAll, fun {s _ _ _ _ _ _ g _} begun prepared run => ?_⟩
  obtain ⟨opened, ops, final, front, -, opened_tidy, -, path, -, seals⟩ := function_path begun prepared run
  have blocks : g.blockNames = final.graph.blockNames := by
    rw [Graph.blockNames, seals.blocks]
    exact Graph.map_of_updateBlock seals.late fun _ => rfl
  have distinct : g.blockNames.Nodup :=
    blocks ▸ (path.keeps (fun _ _ _ => Builder.Step.named) opened_tidy.named).nodup
  have once : g.layout.Nodup := by
    refine seals.kept.nodup ?_
    rw [Graph.layout_of_updateBlock seals.late]
    exact (path.neat opened_tidy.neat).nodup
  have there : ∀ x ∈ g.layout, ∃ block, g.block x = .ok block := fun x hx =>
    Graph.exists_block ((Graph.verify_eq_ok_iff.mp seals.verified).2 x hx).placed
  refine ⟨once.imp fun apart block other hx hy same => apart (Graph.eq_of_name distinct hy hx same), fun x hx => ?_⟩
  obtain ⟨block, found⟩ := there x hx
  exact ⟨block, found, Graph.findBlock_eq distinct there hx found⟩

/-- A tag that is a name from before. A label and a region with a handler, and a temporary that has the tag of the block
of the label. -/
theorem function_names_unique_label : (NameSupply.freshAll {} ["a", "a.0", "a"]).Nodup ∧ ∃ b₀ b g last,
    Session.begin {} "f" { params := [], result := .void } = .ok b₀ ∧
    Build.prepare [.newTemporary .i64 "label", .newLabel {}] b₀ = .ok b ∧
    function (.block [.goto {} ⟨0⟩, .label {} ⟨0⟩, .attempt (.eval (.call { ty := .void } "h" []))
      (some .skip) none]) b =
      .ok g last ∧ g.layout.length = 6 ∧
    ∀ x ∈ g.layout, ∃ block, g.block x = .ok block ∧ g.findBlock block.name = .ok (some x) := by
  refine ⟨function_names_unique.1 _ _, exists_of_completes (t := fun g => g.layout.length = 6) (by decide +kernel) ?_⟩
  exact fun _ _ _ _ begun prepared emitted size =>
    ⟨of_decide_eq_true size, (function_names_unique.2 begun prepared emitted).2⟩

end Emit

end FlowIR
