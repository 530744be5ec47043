import Criteria.Proofs.Session
import Criteria.Proofs.Spelling

/-!
# Planting what was read back

**Theorem (`Session.Reached.replanting`).** Every node that may be handed in is read back, and the
expression that was read is planted as the node that it came from. Planting it adds no list.

The argument goes from the leaves up. A leaf is read as the leaf that its code is the code of. The
members of a combined node are planted as themselves, in order, so joining them meets the list that
the node refers to. That list is consolidated, so it comes out of joining as it went in, and it is
there, so it keeps its number (`Store.combine_eq_self`).
-/

namespace Criteria

namespace Forest

variable {f g : Forest} {n : Node}

/-! ## What a node spells -/

theorem PlantedAll.map {v : Vocabulary} {s : Store} {e : Node → Expression} {ns : List Node}
    (each : ∀ n ∈ ns, Planted v s (e n) n s) : PlantedAll v s (ns.map e) ns s := by
  induction ns with
  | nil => exact .nil
  | cons n ns ih =>
    rw [List.forall_mem_cons] at each
    exact .cons each.1 (ih each.2)

/-- What a valid node spells is planted as the node, and no list is added. -/
theorem planted_spell (hf : f.Valid) (hn : f.ValidNode n) :
    Planted f.vocabulary f.store (f.spell n) n f.store := by
  refine hf.store.induction (P := fun n => Planted f.vocabulary f.store (f.spell n) n f.store)
    ?constant ?leaf ?combined hn
  case constant =>
    intro c
    rw [spell, Store.spell_ofConstant]
    exact .constant c
  case leaf =>
    intro n l code
    rw [spell, Store.spell_of_codes code]
    exact .leaf code
  case combined =>
    intro n k l hn hk hl members
    rw [spell, Store.spell_combined hf.store hk hl]
    exact .combined (.map fun m hm => (members m hm).2.2) (Store.combine_eq_self hf.store hn hk hl)

end Forest

/-! ## Sessions -/

/-- **What is read back is planted as the node that it was read from**, whatever made that node and
whatever was swept away since, and neither of the two changes lists, words or roots. -/
theorem Session.Reached.replanting {x : Session} {n : Node} (hx : x.Reached) (hn : x.Usable n) :
    ∃ e t u, Forest.express n x.forest = .ok e { x.forest with translator := t } ∧
      Forest.encode e { x.forest with translator := t } =
        .ok n { x.forest with translator := u } ∧
      t.vocabulary = x.forest.vocabulary ∧ u.vocabulary = x.forest.vocabulary := by
  have valid := hx.sound.validNode hn
  obtain ⟨t, read, faithful, same⟩ := Forest.exists_express hx.sound.forest valid
  obtain ⟨u, planted, -, same'⟩ := Forest.planted_spell hx.sound.forest valid
    { x.forest with translator := t } rfl same faithful
  exact ⟨_, t, u, read, planted, same, same'.trans same⟩

/-! ## A sample -/

namespace Sample

/-- An AND above an OR, which shares its list with another AND, is planted as itself. -/
theorem nested_replanted : ∃ e t u, Forest.express nested deep.forest =
      .ok e { deep.forest with translator := t } ∧
    Forest.encode e { deep.forest with translator := t } =
      .ok nested { deep.forest with translator := u } ∧
    t.vocabulary = vocabulary ∧ u.vocabulary = vocabulary :=
  reached_deep.replanting usable_deep.2.1

end Sample

end Criteria
