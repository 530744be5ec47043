import Criteria.Proofs.Factoring
import Criteria.Proofs.Form

/-!
# What is handed on fits

Some parts rely on what they are handed without asking. A leaf has room for so many names and values
and no more, a list that is registered has to be ascending, and taking out an overlap leads nowhere
if only one AND has it. Here it is proved that they are handed nothing else.

Numbers of words fit because a vocabulary has no more words than there is room for, which goes for
the other side of a reference, too (`exists_leaf_of_encodeLeaf`, `unknownOfReference_lt`). Lists are
sorted before they are wrapped (`Store.combine_cases`). An overlap is what two ANDs at different
places have in common, so it is a subset of both of their lists, and as stores only grow, both are
still there when it is taken out (`two_le_length_rests`).
-/

namespace Criteria

/-! ## Fields of leaves -/

section Fields

variable {v : Vocabulary} {l : Leaf} {n m : Node}

/-- A leaf is encoded from numbers for which there is room. -/
theorem Vocabulary.exists_leaf_of_encodeLeaf (h : v.encodeLeaf l = .ok n) :
    ∃ ref a x, n = .leaf l.negated l.comparison.operator ref a x ∧
      a < Node.maxNames ∧ x < Node.maxValues := by
  cases codes_of_encodeLeaf h with
  | check name => exact ⟨_, _, _, rfl, lt_maxNames name, zero_lt_maxValues⟩
  | value _ name value => exact ⟨_, _, _, rfl, lt_maxNames name, lt_maxValues value⟩
  | reference _ name other => exact ⟨_, _, _, rfl, lt_maxNames name, lt_maxValues_of_name other⟩

/-- The unknown check of an argument has room for its number. -/
theorem Node.unknownOfArgument_lt (h : n.unknownOfArgument = .ok m) :
    m = .unknownOf n.argument ∧ n.argument < Node.maxNames := by
  obtain ⟨op, -, eq⟩ := bind_eq_ok_iff.1 h
  cases eq
  exact ⟨rfl, Nat.mod_lt _ (by decide)⟩

/-- The field of a value has more room than that of an argument, but the number of an argument that
is referred to fits into the latter. -/
theorem Vocabulary.Encodes.unknownOfReference_lt (code : v.Encodes n)
    (h : n.unknownOfReference = .ok m) : m = .unknownOf n.value ∧ n.value < Node.maxNames := by
  obtain ⟨op, hop, h⟩ := bind_eq_ok_iff.1 h
  split at h
  · cases h
  next refers =>
  cases h
  refine ⟨rfl, ?_⟩
  rw [Bool.or_eq_true, not_or, Bool.not_eq_true', Bool.not_eq_false, decide_eq_true_eq] at refers
  obtain ⟨ne, ref⟩ := refers
  obtain ⟨l, code⟩ := encodes_iff.1 code
  cases code with
  | check name =>
    rw [Node.hasReference_leaf (lt_maxNames name) zero_lt_maxValues] at ref
    cases ref
  | value _ name value =>
    rw [Node.hasReference_leaf (lt_maxNames name) (lt_maxValues value)] at ref
    cases ref
  | reference _ name other =>
    rw [Node.value_leaf (lt_maxNames name) (lt_maxValues_of_name other)]
    exact lt_maxNames other

end Fields

/-! ## Overlaps -/

namespace Store

variable {s t : Store} {m : Node} {overlap : List Node}

/-- Whether a node is an AND whose list is there and contains an overlap. -/
def yields (s : Store) (overlap : List Node) (m : Node) : Bool :=
  m.isAnd && match s.members m with
    | .ok l => Ascending.subset overlap l
    | .error _ => false

theorem members_of_partOf (part : s.PartOf t) {l : List Node} (h : s.members m = .ok l) :
    t.members m = .ok l := by
  obtain ⟨comb, hl⟩ := list?_of_members h
  obtain ⟨k, hk⟩ := Node.exists_connective? comb
  exact members_eq_ok hk (part.list?_of hl)

theorem yields_of_extends (le : s.Extends t) (h : s.yields overlap m = true) :
    t.yields overlap m = true := by
  unfold yields at *
  cases hl : s.members m with
  | ok l => rwa [members_of_partOf le.partOf hl, ← hl]
  | error fault =>
    rw [hl, Bool.and_false] at h
    cases h

theorem countP_yields_le (le : s.Extends t) (ms : List Node) :
    ms.countP (s.yields overlap) ≤ ms.countP (t.yields overlap) :=
  List.countP_mono_left fun _ _ => yields_of_extends le

end Store

namespace Pass

variable {I : Store → Prop} {w w₁ w₂ : Work} {l ms overlap : List Node} {ls : List (List Node)}

theorem countP_yields {s : Store} (h : andLists s ms = .ok ls) (overlap : List Node) :
    ms.countP (s.yields overlap) = ls.countP (Ascending.subset overlap) := by
  induction ms generalizing ls with
  | nil =>
    cases h
    rfl
  | cons m rest ih =>
    rw [andLists] at h
    by_cases isAnd : m.isAnd = true
    · rw [if_pos isAnd] at h
      obtain ⟨front, hfront, h⟩ := bind_eq_ok_iff.1 h
      obtain ⟨back, hback, h⟩ := bind_eq_ok_iff.1 h
      cases h
      rw [List.countP_cons, List.countP_cons, ih hback, Store.yields, isAnd, hfront,
        Bool.true_and]
    · rw [if_neg isAnd] at h
      rw [List.countP_cons_of_neg (by simp [Store.yields, isAnd]), ih h]

/-- What a list has in common with others is a subset of it and of one of these. -/
theorem ensures_subset_overlapsWith :
    (Work.within I).Ensures (overlapsWith l ls) w fun out _ =>
      ∀ o ∈ out, Ascending.subset o l = true ∧ 1 ≤ ls.countP (Ascending.subset o) := by
  induction ls generalizing w with
  | nil => exact .pure fun _ => by simp
  | cons other rest ih =>
    rw [overlapsWith]
    refine ensures_check.bind fun _ w₁ _ _ _ => ih.bind fun out w₂ _ _ hout => .pure fun _ => ?_
    have later : ∀ o ∈ out, Ascending.subset o l = true ∧
        1 ≤ (other :: rest).countP (Ascending.subset o) := by
      intro o ho
      obtain ⟨sub, count⟩ := hout o ho
      exact ⟨sub, Nat.le_trans count ((List.sublist_cons_self _ _).countP_le)⟩
    by_cases apart : (Ascending.intersect l other).isEmpty = true
    · rw [if_pos apart]
      exact later
    · rw [if_neg apart]
      have left := Ascending.subset_of_occursIn (Ascending.occursIn_intersect_left l other)
      have right := Ascending.subset_of_occursIn (Ascending.occursIn_intersect_right l other)
      refine List.forall_mem_cons.2 ⟨⟨left, ?_⟩, later⟩
      rw [List.countP_cons_of_pos right]
      omega

/-- What two lists have in common is a subset of two lists. -/
theorem ensures_subset_overlaps :
    (Work.within I).Ensures (overlaps ls) w fun out _ =>
      ∀ o ∈ out, 2 ≤ ls.countP (Ascending.subset o) := by
  induction ls generalizing w with
  | nil => exact .pure fun _ => by simp
  | cons l rest ih =>
    rw [overlaps]
    refine ensures_subset_overlapsWith.bind fun front w₁ _ _ hfront => ?_
    refine ih.bind fun back w₂ _ _ hback => .pure fun _ o ho => ?_
    rcases List.mem_append.1 ho with ho | ho
    · obtain ⟨sub, count⟩ := hfront o ho
      rw [List.countP_cons_of_pos sub]
      omega
    · exact Nat.le_trans (hback o ho) ((List.sublist_cons_self _ _).countP_le)

/-- An overlap that is found can be taken out of two members at least. -/
theorem ensures_yields_bestOverlap :
    (Work.within I).Ensures (bestOverlap ms) w fun out w =>
      ∀ o ∈ out, 2 ≤ ms.countP (w.store.yields o) := by
  refine (ensures_read_eq _).bind fun ls w₁ _ _ hls => ?_
  refine ensures_subset_overlaps.bind fun found w₂ _ le₂ hfound => ?_
  have two : ∀ o ∈ Ascending.ofList found, 2 ≤ ls.countP (Ascending.subset o) := fun o ho =>
    hfound o (Ascending.mem_ofList.1 ho)
  refine (ensures_bestOf (P := fun o => 2 ≤ ls.countP (Ascending.subset o)) (by simp) two).map
    fun out w₃ _ le₃ hout o ho => ?_
  obtain ⟨c, hc, rfl⟩ := Option.map_eq_some_iff.1 ho
  have count := hout c hc
  rw [← countP_yields hls] at count
  exact Nat.le_trans count (Store.countP_yields_le (le₂.trans le₃) ms)

/-- Every member that contains an overlap leaves a rest. -/
theorem ensures_rests_takeOut :
    Work.additions.Ensures (takeOut overlap ms) w fun r _ =>
      ms.countP (w.store.yields overlap) ≤ r.rests.length := by
  induction ms generalizing w with
  | nil => exact .pure fun _ => Nat.le_refl _
  | cons m rest ih =>
    have keep : ∀ {w' : Work}, w.store.Extends w'.store → w.store.yields overlap m = false →
        Work.additions.Ensures (do
          let r ← takeOut overlap rest
          return { r with others := m :: r.others }) w' fun r _ =>
            (m :: rest).countP (w.store.yields overlap) ≤ r.rests.length := by
      intro w' le no
      refine ih.map fun r w'' _ _ hr => ?_
      rw [List.countP_cons_of_neg (by simp [no])]
      exact Nat.le_trans (Store.countP_yields_le le rest) hr
    rw [takeOut]
    by_cases isAnd : m.isAnd = true
    · rw [if_pos isAnd]
      refine (ensures_read_eq _).bind fun l w₁ _ le₁ hl => ?_
      by_cases sub : Ascending.subset overlap l = true
      · rw [if_pos sub]
        refine ((composed_combine _ _).ensures w₁).bind fun n w₂ _ le₂ _ => ?_
        refine ih.map fun r w₃ _ _ hr => ?_
        have before : rest.countP (w.store.yields overlap) ≤
            rest.countP (w₂.store.yields overlap) := Store.countP_yields_le (le₁.trans le₂) rest
        have one : (m :: rest).countP (w.store.yields overlap) ≤
            rest.countP (w.store.yields overlap) + 1 := by
          rw [List.countP_cons]
          split
          · exact Nat.le_refl _
          · exact Nat.le_succ _
        calc (m :: rest).countP (w.store.yields overlap)
            ≤ rest.countP (w.store.yields overlap) + 1 := one
          _ ≤ rest.countP (w₂.store.yields overlap) + 1 := Nat.succ_le_succ before
          _ ≤ r.rests.length + 1 := Nat.succ_le_succ hr
      · rw [if_neg sub]
        refine keep le₁ ?_
        rw [Bool.eq_false_iff]
        intro yes
        have yes := Store.yields_of_extends le₁ yes
        rw [Store.yields, hl] at yes
        simp [isAnd, sub] at yes
    · rw [if_neg isAnd]
      exact keep (.refl _) (by simp [Store.yields, isAnd])

/-- **An overlap is taken out of two members at least.** -/
theorem two_le_length_rests {r : Remainder} (found : bestOverlap ms w = .ok (some overlap) w₁)
    (taken : takeOut overlap ms w₁ = .ok r w₂) : 2 ≤ r.rests.length := by
  have twice : Work.additions.Ensures (bestOverlap ms) w _ := ensures_yields_bestOverlap
  obtain ⟨-, -, two⟩ := twice.of_ok trivial found
  obtain ⟨-, -, rests⟩ := ensures_rests_takeOut.of_ok trivial taken
  exact Nat.le_trans (two overlap rfl) rests

end Pass

end Criteria
