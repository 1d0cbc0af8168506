import FlowIR.Name
import FlowIR.Proofs.Reading

/-!
Fresh names never collide.

A tag may be any text, also one that looks like a name that was handed out before. But a name ends with its number, and
the last dot stands in front of it, so it tells its tag and its number (`NameSupply.render_inj`). What a supply has
handed out is therefore never free again (`NameSupply.Free.of_fresh`).
-/

namespace FlowIR.NameSupply

variable {names mid later : NameSupply} {tag name : String}

theorem render_inj {other : String} {m n : Nat} (h : render tag m = render other n) : tag = other ∧ m = n := by
  have read : ∀ (tag : String) (n : Nat),
      (render tag n).toList.reverse = n.repr.toList.reverse ++ '.' :: tag.toList.reverse := by
    simp [render]
  have same := congrArg (·.toList.reverse) h
  simp only [read] at same
  exact (reverse_number_inj rfl same).symm.imp (fun tags => String.toList_inj.mp (List.reverse_inj.mp tags)) id

def Free (names : NameSupply) (name : String) : Prop := ∃ tag n, names.count tag ≤ n ∧ name = render tag n

/-- The second supply can only hand out what the first one can. -/
def Before (names later : NameSupply) : Prop := ∀ name, later.Free name → names.Free name

theorem Before.refl (names : NameSupply) : names.Before names := fun _ => id

theorem Before.trans (h : names.Before mid) (k : mid.Before later) : names.Before later :=
  fun name free => h name (k name free)

theorem free_fresh (names : NameSupply) (tag : String) : names.Free (names.fresh tag).1 :=
  ⟨tag, _, Nat.le_refl _, rfl⟩

theorem count_fresh (names : NameSupply) (tag other : String) :
    (names.fresh tag).2.count other = if other = tag then names.count tag + 1 else names.count other := by
  unfold fresh count
  split
  · next same => rw [same, Assoc.get?_set_self, Option.getD_some]
  · next apart => rw [Assoc.get?_set_of_ne _ _ apart]

/-- A name that has been handed out is not handed out again. -/
theorem Free.of_fresh (h : (names.fresh tag).2.Free name) : names.Free name ∧ name ≠ (names.fresh tag).1 := by
  obtain ⟨other, n, unused, rfl⟩ := h
  rw [count_fresh] at unused
  split at unused
  · next same =>
    subst same
    exact ⟨⟨_, n, Nat.le_of_succ_le unused, rfl⟩, fun eq => Nat.ne_of_gt unused (render_inj eq).2⟩
  · next apart => exact ⟨⟨_, n, unused, rfl⟩, fun eq => apart (render_inj eq).1⟩

theorem Before.fresh (names : NameSupply) (tag : String) : names.Before (names.fresh tag).2 :=
  fun _ free => free.of_fresh.1

theorem free_of_mem_freshAll {tags : List String} (h : name ∈ names.freshAll tags) : names.Free name := by
  induction tags generalizing names with
  | nil => cases h
  | cons tag tags ih =>
    rcases List.mem_cons.mp h with rfl | rest
    · exact names.free_fresh tag
    · exact (ih rest).of_fresh.1

theorem nodup_freshAll (names : NameSupply) (tags : List String) : (names.freshAll tags).Nodup := by
  induction tags generalizing names with
  | nil => exact .nil
  | cons tag tags ih => exact List.nodup_cons.mpr ⟨fun again => (free_of_mem_freshAll again).of_fresh.2 rfl, ih _⟩

end FlowIR.NameSupply
