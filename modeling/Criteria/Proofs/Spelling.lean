import Criteria.Proofs.Extension

/-!
# What a node spells

Nodes share lists and nothing tells from a code how deep it nests. Yet in a valid store lists hold
only what came before them, so all valid nodes are reached from constants and leaves
(`Valid.induction`), and something can be made of a node from the bottom up (`Store.fold`): what is
made of a combined node is made of what is made of its members (`fold_combined`).

What a node *spells* is the expression that is made in this way. It holds of the records that the
node holds of (`holds_spell`), and it stays the same as lists and words are added (`fold_of_list?`).
-/

namespace Criteria

namespace Store

variable {v : Vocabulary} {s t : Store} {n : Node} {k : Connective} {l : List Node} {α : Type}

/-! ## From the bottom up -/

/-- What is true of constants and leaves, and of a combined node if of its members, is true of all
valid nodes. -/
theorem Valid.induction (hs : s.Valid v) {P : Node → Prop} (constant : ∀ c, P (.ofConstant c))
    (leaf : ∀ n l, v.Codes l n → P n)
    (combined : ∀ n k l, s.ValidNode v n → n.connective? = some k → s.list? n.number = some l →
      (∀ m ∈ l, s.ValidNode v m ∧ m.level < n.level ∧ P m) → P n)
    (hn : s.ValidNode v n) : P n := by
  induction hl : n.level using Nat.strongRecOn generalizing n with
  | _ level ih =>
    cases hn with
    | constant hn =>
      rcases Node.isConstant_iff.1 hn with rfl | rfl
      · exact constant .all
      · exact constant .none
    | leaf code =>
      obtain ⟨l, code⟩ := Vocabulary.encodes_iff.1 code
      exact leaf n l code
    | @combined k l hk list hc =>
      refine combined n k l (.combined hk list hc) hk list fun m hm => ?_
      have valid := hs.members _ _ list m hm
      have lower := level_lt_of_mem hs.layered hk list hm
      exact ⟨valid, lower, ih m.level (hl ▸ lower) valid rfl⟩

/-- How to make something of a node, given what was made of its members. -/
structure Making (α : Type) where
  constant : Constant → α
  leaf : Node → α
  combined : Connective → List α → α

variable [Inhabited α]

/-- What is made of a node that nests less deep than `fuel`. -/
def foldWithin (s : Store) (g : Making α) : Nat → Node → α
  | 0, _ => default
  | fuel + 1, n =>
    if n = .all then g.constant .all
    else if n = .none then g.constant .none
    else match n.connective? with
    | none => g.leaf n
    | some k => g.combined k (((s.list? n.number).getD []).map (s.foldWithin g fuel))

/-- What is made of a node. -/
def fold (s : Store) (g : Making α) (n : Node) : α := s.foldWithin g (n.level + 1) n

variable {g : Making α} {fuel fuel' : Nat}

theorem foldWithin_ofConstant (c : Constant) :
    s.foldWithin g (fuel + 1) (.ofConstant c) = g.constant c := by
  cases c with
  | all => rfl
  | none => rfl

theorem foldWithin_of_encodes (code : v.Encodes n) : s.foldWithin g (fuel + 1) n = g.leaf n := by
  obtain ⟨ne_all, ne_none⟩ := Node.ne_constant_of_isLeaf code.isLeaf
  rw [foldWithin, if_neg ne_all, if_neg ne_none,
    Node.connective?_eq_none_iff.2 (Node.not_isCombined_of_isLeaf code.isLeaf)]

theorem foldWithin_combined (hk : n.connective? = some k) (hl : s.list? n.number = some l) :
    s.foldWithin g (fuel + 1) n = g.combined k (l.map (s.foldWithin g fuel)) := by
  obtain ⟨ne_all, ne_none⟩ := ne_constant_of_connective? hk
  rw [foldWithin, if_neg ne_all, if_neg ne_none, hk]
  simp only [hl, Option.getD_some]

/-- The same is made of a valid node where the lists of its store are kept and the same is made of
leaves, and looking deeper than its level tells nothing new. -/
theorem foldWithin_of_list? {leaf : Node → α} (hs : s.Valid v)
    (agree : ∀ n, v.Encodes n → leaf n = g.leaf n)
    (keeps : ∀ {id l}, s.list? id = some l → t.list? id = some l) (hn : s.ValidNode v n)
    (deep : n.level < fuel) (deep' : n.level < fuel') :
    t.foldWithin { g with leaf } fuel' n = s.foldWithin g fuel n := by
  refine hs.induction (P := fun n => ∀ fuel fuel', n.level < fuel → n.level < fuel' →
    t.foldWithin { g with leaf } fuel' n = s.foldWithin g fuel n)
    ?constant ?leaf ?combined hn fuel fuel' deep deep'
  case constant =>
    rintro c (- | fuel) (- | fuel') deep deep'
    · cases deep
    · cases deep
    · cases deep'
    · rw [foldWithin_ofConstant, foldWithin_ofConstant]
  case leaf =>
    rintro n l code (- | fuel) (- | fuel') deep deep'
    · cases deep
    · cases deep
    · cases deep'
    · have code := Vocabulary.encodes_iff.2 ⟨l, code⟩
      rw [foldWithin_of_encodes code, foldWithin_of_encodes code]
      exact agree n code
  case combined =>
    rintro n k l - hk hl members (- | fuel) (- | fuel') deep deep'
    · cases deep
    · cases deep
    · cases deep'
    · have each : l.map (t.foldWithin { g with leaf } fuel') = l.map (s.foldWithin g fuel) :=
        List.map_congr_left fun m hm => by
          obtain ⟨-, lower, ih⟩ := members m hm
          exact ih fuel fuel' (by omega) (by omega)
      rw [foldWithin_combined hk hl, foldWithin_combined hk (keeps hl), each]

/-- The same is made of a valid node where the lists of its store are kept and the same is made of
leaves. -/
theorem fold_of_list? {leaf : Node → α} (hs : s.Valid v)
    (agree : ∀ n, v.Encodes n → leaf n = g.leaf n)
    (keeps : ∀ {id l}, s.list? id = some l → t.list? id = some l) (hn : s.ValidNode v n) :
    t.fold { g with leaf } n = s.fold g n :=
  foldWithin_of_list? hs agree keeps hn (Nat.lt_succ_self _) (Nat.lt_succ_self _)

@[simp] theorem fold_ofConstant (c : Constant) : s.fold g (.ofConstant c) = g.constant c :=
  foldWithin_ofConstant c

theorem fold_of_encodes (code : v.Encodes n) : s.fold g n = g.leaf n := foldWithin_of_encodes code

/-- What is made of a combined node is made of what is made of its members. -/
theorem fold_combined (hs : s.Valid v) (hk : n.connective? = some k)
    (hl : s.list? n.number = some l) : s.fold g n = g.combined k (l.map (s.fold g)) := by
  have each : l.map (s.foldWithin g n.level) = l.map (s.fold g) :=
    List.map_congr_left fun m hm =>
      foldWithin_of_list? hs (fun _ _ => rfl) id (hs.members _ _ hl m hm) (Nat.lt_succ_self _)
        (level_lt_of_mem hs.layered hk hl hm)
  rw [fold, foldWithin_combined hk hl, each]

end Store

/-! ## Expressions -/

theorem Expression.join_of_two_le {k : Connective} {es : List Expression} (h : 2 ≤ es.length) :
    join k es = combined k es := by
  match es, h with
  | _ :: _ :: _, _ => rfl

theorem Expression.mem_leaves_combined {k : Connective} {es : List Expression} {x : Expression} :
    x ∈ (combined k es).leaves ↔ ∃ e ∈ es, x ∈ e.leaves := by
  rw [leaves, leavesOf_eq_flatMap, List.mem_flatMap]

theorem Expression.holds_combined {r : Record} (k : Connective) (es : List Expression) :
    Expression.holds r (.combined k es) = k.join (Expression.holds r) es := by
  cases k with
  | and => rw [holds, allHold_eq_all]; rfl
  | or => rw [holds, anyHolds_eq_any]; rfl

namespace Vocabulary

/-- The expression of a leaf code. -/
def spellLeaf (v : Vocabulary) (n : Node) : Expression :=
  match v.decodeLeaf n with
  | .ok l => .leaf l
  | .error _ => default

/-- The expression of a node, given those of its members. -/
def spelling (v : Vocabulary) : Store.Making Expression := ⟨.constant, v.spellLeaf, .combined⟩

theorem Codes.spellLeaf {v : Vocabulary} {l : Leaf} {n : Node} (h : v.Codes l n) :
    v.spellLeaf n = .leaf l := by
  rw [Vocabulary.spellLeaf, h.decodeLeaf]

end Vocabulary

namespace Store

variable {v : Vocabulary} {s : Store} {n : Node} {k : Connective} {l : List Node} {r : Record}

/-- The expression that a node spells. -/
def spell (s : Store) (v : Vocabulary) (n : Node) : Expression := s.fold v.spelling n

@[simp] theorem spell_ofConstant (c : Constant) : s.spell v (.ofConstant c) = .constant c :=
  fold_ofConstant c

theorem spell_of_codes {l : Leaf} (code : v.Codes l n) : s.spell v n = .leaf l := by
  rw [spell, fold_of_encodes (Vocabulary.encodes_iff.2 ⟨l, code⟩)]
  exact code.spellLeaf

theorem spell_combined (hs : s.Valid v) (hk : n.connective? = some k)
    (hl : s.list? n.number = some l) : s.spell v n = .combined k (l.map (s.spell v)) :=
  fold_combined hs hk hl

/-- What a valid node spells holds of the records that the node holds of. -/
theorem holds_spell (hs : s.Valid v) (hn : s.ValidNode v n) :
    (s.spell v n).holds r = s.holds (v.holds r) n := by
  refine hs.induction (P := fun n => (s.spell v n).holds r = s.holds (v.holds r) n) ?constant ?leaf
    ?combined hn
  case constant =>
    intro c
    rw [spell_ofConstant]
    cases c with
    | all => exact holds_all.symm
    | none => exact holds_none.symm
  case leaf =>
    intro n l code
    rw [spell_of_codes code, holds_leaf (Vocabulary.encodes_iff.2 ⟨l, code⟩), code.holds,
      Expression.holds]
  case combined =>
    intro n k l _ hk hl members
    rw [spell_combined hs hk hl, Expression.holds_combined, holds_combined hs.layered hk hl]
    refine Connective.join_forall₂ (List.forall₂_map_right_iff.2 (List.forall₂_same.2 ?_))
    intro m hm
    exact (members m hm).2.2

end Store

end Criteria
