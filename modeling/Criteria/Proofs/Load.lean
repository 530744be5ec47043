import Criteria.Proofs.Form
import Criteria.Proofs.Spelling
import Mathlib.Data.List.Perm.Subperm

/-!
# Loads

Give each leaf a load. A node bears the loads of all leaves that occur in the expression that it
spells, a leaf that is met twice for each time. Whatever the loads are, joining nodes gives a node
that bears no more than they do together (`load_combine_le`). If no leaf is without a load, a member
bears less than all members do (`load_lt_loads`) and dropping members leaves less to bear
(`loads_lt_of_sublist`), which is what keeps passes from going on forever.
-/

namespace Criteria

namespace Store

variable {v : Vocabulary} {s t : Store} {n m : Node} {k : Connective} {l l' : List Node}
  {f : Node → Nat}

/-! ## Bearing -/

/-- How the loads of leaves are summed up. -/
def loading (f : Node → Nat) : Making Nat := ⟨fun _ => 0, f, fun _ => List.foldr (· + ·) 0⟩

/-- What a node bears. -/
def load (s : Store) (f : Node → Nat) (n : Node) : Nat := s.fold (loading f) n

/-- What some nodes bear together. -/
def loads (s : Store) (f : Node → Nat) (l : List Node) : Nat := (l.map (s.load f)).foldr (· + ·) 0

theorem load_of_isConstant (h : n.isConstant = true) : s.load f n = 0 := by
  rcases Node.isConstant_iff.1 h with rfl | rfl
  · exact fold_ofConstant .all
  · exact fold_ofConstant .none

theorem load_of_encodes (code : v.Encodes n) : s.load f n = f n := fold_of_encodes code

/-- A combined node bears what its members bear together. -/
theorem load_combined (hs : s.Valid v) (hk : n.connective? = some k)
    (hl : s.list? n.number = some l) : s.load f n = s.loads f l :=
  fold_combined hs hk hl

theorem load_of_extends (hs : s.Valid v) (le : s.Extends t) (hn : s.ValidNode v n) :
    t.load f n = s.load f n := by
  have kept : t.fold { loading f with leaf := f } n = s.fold (loading f) n :=
    fold_of_list? hs (fun _ _ => rfl) le.list? hn
  exact kept

@[simp] theorem loads_nil : s.loads f [] = 0 := rfl

@[simp] theorem loads_cons : s.loads f (n :: l) = s.load f n + s.loads f l := rfl

@[simp] theorem loads_append : s.loads f (l ++ l') = s.loads f l + s.loads f l' := by
  induction l with
  | nil => rw [List.nil_append, loads_nil, Nat.zero_add]
  | cons m l ih => rw [List.cons_append, loads_cons, loads_cons, ih, Nat.add_assoc]

theorem loads_perm (h : l.Perm l') : s.loads f l = s.loads f l' := (h.map (s.load f)).foldr_eq 0

theorem loads_le_of_sublist (h : l.Sublist l') : s.loads f l ≤ s.loads f l' := by
  obtain ⟨rest, split⟩ := h.exists_perm_append
  rw [loads_perm split, loads_append]
  exact Nat.le_add_right _ _

/-- Nodes that are all among others, each of them once, bear no more. -/
theorem loads_le_of_subset (nodup : l.Nodup) (sub : l ⊆ l') : s.loads f l ≤ s.loads f l' := by
  obtain ⟨m, perm, sublist⟩ := List.subperm_of_subset nodup sub
  rw [← loads_perm perm]
  exact loads_le_of_sublist sublist

theorem loads_of_extends (hs : s.Valid v) (le : s.Extends t) (h : ∀ m ∈ l, s.ValidNode v m) :
    t.loads f l = s.loads f l :=
  congrArg (List.foldr (· + ·) 0)
    (List.map_congr_left fun m hm => load_of_extends hs le (h m hm))

/-! ## Leaves that all have a load -/

/-- Nodes that bear something each. -/
theorem length_le_loads (h : ∀ m ∈ l, 1 ≤ s.load f m) : l.length ≤ s.loads f l := by
  induction l with
  | nil => exact Nat.le_refl 0
  | cons m l ih =>
    rw [List.forall_mem_cons] at h
    have := ih h.2
    rw [List.length_cons, loads_cons]
    omega

/-- Dropping nodes that bear something leaves less to bear. -/
theorem loads_lt_of_sublist (h : ∀ m ∈ l, 1 ≤ s.load f m) (sub : l'.Sublist l) (ne : l' ≠ l) :
    s.loads f l' < s.loads f l := by
  obtain ⟨rest, perm⟩ := sub.exists_perm_append
  have each : ∀ m ∈ rest, 1 ≤ s.load f m := fun m hm =>
    h m (perm.mem_iff.2 (List.mem_append_right l' hm))
  have dropped : 1 ≤ rest.length := by
    have shorter : l'.length < l.length :=
      Nat.lt_of_le_of_ne sub.length_le fun eq => ne (sub.eq_of_length eq)
    rw [perm.length_eq, List.length_append] at shorter
    omega
  have := length_le_loads each
  rw [loads_perm perm, loads_append]
  omega

section Positive

variable (pos : ∀ n, 1 ≤ f n)
include pos

/-- All nodes but the constants bear something. -/
theorem one_le_load (hs : s.Valid v) (hn : s.ValidNode v n) (h : n.isConstant = false) :
    1 ≤ s.load f n := by
  refine hs.induction (P := fun n => n.isConstant = false → 1 ≤ s.load f n)
    ?constant ?leaf ?combined hn h
  case constant =>
    intro c h
    cases c <;> cases h
  case leaf =>
    intro n l code _
    rw [load_of_encodes (Vocabulary.encodes_iff.2 ⟨l, code⟩)]
    exact pos n
  case combined =>
    intro n k l hn hk hl members _
    obtain ⟨l', hl', hc⟩ := hn.list? hk
    cases hl.symm.trans hl'
    have each : ∀ m ∈ l, 1 ≤ s.load f m := fun m hm =>
      (members m hm).2.2 (hc.not_isConstant hm)
    have := hc.two_le
    have := length_le_loads each
    rw [load_combined hs hk hl]
    omega

theorem one_le_load_of_mem (hs : s.Valid v) (hc : Consolidated k l)
    (h : ∀ m ∈ l, s.ValidNode v m) : ∀ m ∈ l, 1 ≤ s.load f m := fun m hm =>
  one_le_load pos hs (h m hm) (hc.not_isConstant hm)

/-- A member bears less than all members together. -/
theorem load_lt_loads (hs : s.Valid v) (hc : Consolidated k l) (h : ∀ m ∈ l, s.ValidNode v m)
    (hm : m ∈ l) : s.load f m < s.loads f l := by
  have ne : [m] ≠ l := by
    rintro rfl
    exact Nat.not_lt.2 hc.two_le (Nat.lt_succ_self 1)
  simpa using loads_lt_of_sublist (one_le_load_of_mem pos hs hc h) (List.singleton_sublist.2 hm) ne

end Positive

/-! ## Joining -/

/-- What joining can give: a constant, the only member that is left, or a node over the members
that are left. -/
theorem combine_eq_ok_cases (h : s.combine k l = .ok (n, t)) : n.isConstant = true ∨
    ∃ flat r, s.flatten k l = .ok flat ∧ r.Sublist (Ascending.ofList flat) ∧
      (r = [n] ∨ n.connective? = some k ∧ t.list? n.number = some r) := by
  refine (cases_of_combine h).imp And.left fun ⟨flat, r, hflat, sub, rest⟩ => ?_
  refine ⟨flat, r, hflat, sub, rest.imp And.left fun ⟨id, registered, number⟩ => ?_⟩
  exact joins_of_register registered number

/-- Members that are lifted bear what they bore. -/
theorem loads_flatten (hs : s.Valid v) (h : s.flatten k l = .ok l') :
    s.loads f l' = s.loads f l := by
  induction l generalizing l' with
  | nil =>
    cases h
    rfl
  | cons m l ih =>
    obtain ⟨front, back, hfront, hback, rfl⟩ := flatten_cons_eq_ok h
    have head : s.loads f front = s.load f m := by
      split at hfront
      · next hk => exact (load_combined hs hk (list?_of_members hfront).2).symm
      · cases hfront
        simp
    rw [loads_append, loads_cons, head, ih hback]

theorem valid_of_flatten (hs : s.Valid v) (h : ∀ m ∈ l, s.ValidNode v m)
    (eq : s.flatten k l = .ok l') : ∀ m ∈ l', s.ValidNode v m :=
  (joins_flatten (r := fun _ => none) (c := True) hs ⟨h, fun _ => rfl⟩ eq).1.valid

/-- Joining nodes gives a node that bears no more than they do together. -/
theorem load_combine_le (hs : s.Valid v) (h : ∀ m ∈ l, s.ValidNode v m)
    (eq : s.combine k l = .ok (n, t)) : t.load f n ≤ s.loads f l := by
  have joins : Joins v (fun _ => none) False s k l true := ⟨h, False.elim⟩
  obtain ⟨ht, le, means⟩ := combine_eq_ok hs joins eq
  rcases combine_eq_ok_cases eq with constant | ⟨flat, r, flatten, sub, rest⟩
  · rw [load_of_isConstant constant]
    exact Nat.zero_le _
  have valid : ∀ m ∈ r, s.ValidNode v m := fun m hm =>
    valid_of_flatten hs h flatten m (Ascending.mem_ofList.1 (sub.mem hm))
  have least : s.loads f r ≤ s.loads f flat :=
    loads_le_of_subset ((Ascending.ascending_ofList flat).sublist sub).nodup
      fun m hm => Ascending.mem_ofList.1 (sub.mem hm)
  rw [loads_flatten hs flatten] at least
  rcases rest with rfl | ⟨hk, hl⟩
  · rw [load_of_extends hs le (valid n List.mem_cons_self)]
    simpa using least
  · rwa [load_combined ht hk hl, loads_of_extends hs le valid]

theorem ensures_combine_load (h : ∀ m ∈ l, s.ValidNode v m) :
    (growth v).Ensures (Build.combine k l) s fun n t =>
      t.ValidNode v n ∧ t.load f n ≤ s.loads f l :=
  ensures_combine_of_eq h fun _ _ hs eq =>
    ⟨(valid_of_combine hs h eq).2.2, load_combine_le hs h eq⟩

/-- That an argument is known is said by an unknown check. -/
theorem ensures_known {x : Except Fault Node} {a : Nat} {name : String}
    (word : v.names.word? a = some name) (hx : x = .ok (.unknownOf a)) :
    (growth v).Ensures (Build.read fun _ => do (← x).negate) s fun m _ =>
      v.Encodes m ∧ m.isUnknownCheck = true := by
  have code := (v.encodes_unknownOf word fun _ => none).1
  have check : (Node.unknownOf a).isUnknownCheck = true :=
    Node.isUnknownCheck_leaf (Vocabulary.lt_maxNames word) Vocabulary.zero_lt_maxValues
  refine ensures_read fun _ => ⟨_, bind_eq_ok_iff.2 ⟨_, hx, Node.negate_of_isLeaf code.isLeaf⟩,
    code.flip, ?_⟩
  rw [code.isNegated_flip.2.1, check]

/-- That the arguments of a leaf are known is said by an unknown check for each. -/
theorem ensures_knownCheck_load (light : ∀ m, m.isUnknownCheck = true → f m ≤ 1)
    (code : v.Encodes n) :
    (growth v).Ensures (Build.knownCheck n) s fun n' t =>
      t.ValidNode v n' ∧ t.load f n' ≤ 2 := by
  have light : ∀ {m : Node} {t : Store}, v.Encodes m ∧ m.isUnknownCheck = true →
      t.load f m ≤ 1 := fun h => (load_of_encodes h.1).trans_le (light _ h.2)
  obtain ⟨name, word⟩ := code.word_argument
  refine (ensures_known word (unknownOfArgument_of_encodes code)).bind fun known t _ _ hknown => ?_
  split
  · next ref =>
    rw [isReference_of_encodes code] at ref
    obtain ⟨name', word'⟩ := code.word_value ref
    refine (ensures_known word' (unknownOfReference_of_encodes code ref)).bind
      fun known' u _ _ hknown' => ?_
    have valid : ∀ m ∈ [known, known'], u.ValidNode v m := by
      intro m hm
      rcases List.mem_pair.1 hm with rfl | rfl
      · exact .leaf hknown.1
      · exact .leaf hknown'.1
    refine (ensures_combine_load valid).mono fun n' _ _ _ h => ⟨h.1, h.2.trans ?_⟩
    exact Nat.add_le_add (light hknown) (Nat.add_le_add (light hknown') (Nat.zero_le 0))
  · exact .pure fun _ => ⟨.leaf hknown.1, (light hknown).trans (Nat.le_succ 1)⟩

end Store

end Criteria
