import Criteria.Proofs.Forest
import Criteria.Proofs.Shape

/-!
# The shapes of nodes

The shape of a node is made from the bottom up: a combined node has the connective and the set of
the shapes of its members. It says everything about the node:

**Theorem (`eq_of_shape_eq`).** Valid nodes of one store that have the same shape are the same.

Their lists are ascending and have the same members, so they are the same list, and a list is there
under one number only. Hence different members have different shapes, and consolidation does to the
shapes of members what `Shape.join` does:

**Theorem (`shape_of_combine`).** The node that joins members has the shape that joins their shapes.
-/

namespace Criteria

/-! ## Codes that decide the whole -/

namespace Vocabulary

variable {v : Vocabulary}

theorem word?_inj {a x : Nat} {w u : String} (hw : v.names.word? a = some w)
    (hu : v.names.word? x = some u) : a = x ↔ w = u := by
  constructor
  · rintro rfl
    rw [hw] at hu
    exact Option.some.inj hu
  · rintro rfl
    rw [← WordList.number?_eq_some_iff] at hw hu
    rw [hw] at hu
    exact Option.some.inj hu

namespace Codes

variable {l l' : Leaf} {m n : Node}

theorem isUnknown (h : v.Codes l n) : n.isUnknown = l.isUnknown := by
  rw [Node.isUnknown, Leaf.isUnknown, Bool.and_comm]
  cases h with
  | check name =>
    have ha := lt_maxNames name
    rw [Node.isNegated_leaf ha zero_lt_maxValues, Node.isUnknownCheck_leaf ha zero_lt_maxValues]
  | value _ name value =>
    have ha := lt_maxNames name
    have hx := lt_maxValues value
    rw [Node.isNegated_leaf ha hx, Node.isUnknownCheck_leaf ha hx]
  | reference _ name other =>
    have ha := lt_maxNames name
    have hx := lt_maxValues_of_name other
    rw [Node.isNegated_leaf ha hx, Node.isUnknownCheck_leaf ha hx]

/-- A code requires the number of an argument just if the leaf requires the argument. -/
theorem requires (h : v.Codes l n) {a : Nat} {name : String}
    (word : v.names.word? a = some name) : n.requires a = l.requires name := by
  have argument : n.argument = a ↔ name ∈ [l.comparison.argument] := by
    rw [List.mem_singleton, eq_comm (a := name)]
    exact word?_inj h.word_argument word
  have both : (n.argument = a ∨ n.hasReference = true ∧ n.value = a) ↔
      name ∈ l.comparison.arguments := by
    rw [argument]
    cases h with
    | check name' =>
      rw [Node.hasReference_leaf (lt_maxNames name') zero_lt_maxValues]
      simp [Comparison.arguments, Comparison.referenced?]
    | value _ name' value =>
      rw [Node.hasReference_leaf (lt_maxNames name') (lt_maxValues value)]
      simp [Comparison.arguments, Comparison.referenced?]
    | reference _ name' other =>
      have ha := lt_maxNames name'
      have hx := lt_maxValues_of_name other
      rw [Node.hasReference_leaf ha hx, Node.value_leaf ha hx, word?_inj other word]
      simp [Comparison.arguments, Comparison.referenced?, eq_comm]
  rw [Node.requires, Leaf.requires, h.isLeaf, h.isUnknown, Bool.true_and]
  congr 1
  rw [Bool.eq_iff_iff]
  simpa using both

theorem eq_flip_iff (h : v.Codes l m) (h' : v.Codes l' n) : n = m.flip ↔ l' = l.strictNot := by
  constructor
  · rintro rfl
    exact h'.leaf_unique h.flip
  · rintro rfl
    exact h'.node_unique h.flip

end Codes

/-- The shape of a node, given those of its members. -/
noncomputable def shaping (v : Vocabulary) : Store.Making Shape where
  constant c := .of (.constant c)
  leaf n := (v.spellLeaf n).shape
  combined k xs := .of (.group k xs.toFinset)

end Vocabulary

/-! ## Rearranged expressions -/

namespace Expression

variable {e e' : Expression}

theorem Somewhere.holds_eq {change : Expression → Expression → Prop} {r : Record}
    (keeps : ∀ {e e'}, change e e' → e.holds r = e'.holds r) (h : Somewhere change e e') :
    e.holds r = e'.holds r := by
  induction h with
  | here step => exact keeps step
  | @member k e e' front back _ ih =>
    rw [holds_combined, holds_combined]
    apply Connective.bool_ext (k := k)
    simp only [Connective.join_append_eq_unit_iff, Connective.join_cons_eq_unit_iff, ih]

/-- The order of members makes no difference to what an expression means. -/
theorem Rearranged.holds_eq (h : Rearranged e e') (r : Record) : e.holds r = e'.holds r := by
  induction h with
  | refl => rfl
  | tail _ step ih =>
    refine ih.trans (step.holds_eq fun reorder => ?_)
    cases reorder with
    | @perm k es es' perm =>
      rw [holds_combined, holds_combined]
      exact Connective.join_eq_of_mem_iff fun _ => perm.mem_iff

end Expression

namespace Store

variable {v v' : Vocabulary} {s t : Store} {m n : Node} {k : Connective} {l l' : List Node}

/-- Members decide the whole just if two of the leaves among them do. -/
theorem isDecided_iff (asc : Ascending l) (valid : ∀ m ∈ l, s.ValidNode v m) :
    k.isDecided l = true ↔
      ∃ a b m n, m ∈ l ∧ n ∈ l ∧ v.Codes a m ∧ v.Codes b n ∧ k.decides a b = true := by
  -- Both questions about a member are asked of leaves, and are settled by another leaf.
  have coded : ∀ m ∈ l, m.isLeaf = true → ∃ a, v.Codes a m := fun m hm leaf =>
    Vocabulary.encodes_iff.1 ((valid m hm).encodes_of_isLeaf leaf)
  cases k with
  | and =>
    show hasContradiction l = true ↔ _
    simp only [hasContradiction, List.any_eq_true, Bool.and_eq_true, Bool.or_eq_true,
      Ascending.contains_iff_mem asc, Connective.decides, decide_eq_true_eq]
    constructor
    · rintro ⟨m, hm, leaf, flip | ⟨unknown, n, hn, requires⟩⟩
      · obtain ⟨a, code⟩ := coded m hm leaf
        exact ⟨a, _, m, _, hm, flip, code, code.flip, .inl rfl⟩
      · obtain ⟨a, code⟩ := coded m hm leaf
        obtain ⟨b, code'⟩ := coded n hn (Node.isLeaf_of_requires requires)
        refine ⟨a, b, m, n, hm, hn, code, code', .inr ⟨?_, ?_⟩⟩
        · rw [← code.isUnknown, unknown]
        · rw [← code'.requires code.word_argument, requires]
    · rintro ⟨a, b, m, n, hm, hn, code, code', eq | ⟨unknown, requires⟩⟩
      · refine ⟨m, hm, code.isLeaf, .inl ?_⟩
        rwa [← (code.eq_flip_iff code').2 eq]
      · refine ⟨m, hm, code.isLeaf, .inr ⟨?_, n, hn, ?_⟩⟩
        · rw [code.isUnknown, unknown]
        · rw [code'.requires code.word_argument, requires]
  | or =>
    show hasTautology l = true ↔ _
    simp only [hasTautology, List.any_eq_true, Bool.and_eq_true, Ascending.contains_iff_mem asc,
      Connective.decides, decide_eq_true_eq]
    constructor
    · rintro ⟨m, hm, unknown, flip⟩
      have check := Node.isUnknownCheck_of_isUnknown unknown
      obtain ⟨a, code⟩ := coded m hm (Node.isLeaf_of_isUnknownCheck check)
      refine ⟨a, _, m, _, hm, flip, code, code.flip, ?_, rfl⟩
      rw [← code.isUnknown, unknown]
    · rintro ⟨a, b, m, n, hm, hn, code, code', unknown, eq⟩
      refine ⟨m, hm, ?_, ?_⟩
      · rw [code.isUnknown, unknown]
      · rwa [← (code.eq_flip_iff code').2 eq]

/-! ## Shapes -/

/-- The shape of a node. -/
noncomputable def shape (s : Store) (v : Vocabulary) (n : Node) : Shape := s.fold v.shaping n

@[simp] theorem shape_ofConstant (c : Constant) :
    s.shape v (.ofConstant c) = .of (.constant c) := fold_ofConstant c

theorem shape_of_codes {l : Leaf} (code : v.Codes l n) : s.shape v n = .of (.leaf l) := by
  rw [shape, fold_of_encodes (Vocabulary.encodes_iff.2 ⟨l, code⟩)]
  show (v.spellLeaf n).shape = _
  rw [code.spellLeaf, Expression.shape]

/-- The shapes of some nodes. -/
noncomputable def shapes (s : Store) (v : Vocabulary) (l : List Node) : Finset Shape :=
  (l.map (s.shape v)).toFinset

theorem mem_shapes {x : Shape} : x ∈ s.shapes v l ↔ ∃ m ∈ l, s.shape v m = x := by
  rw [shapes, List.mem_toFinset, List.mem_map]

@[simp] theorem shapes_cons : s.shapes v (m :: l) = insert (s.shape v m) (s.shapes v l) :=
  List.toFinset_cons

@[simp] theorem shapes_append : s.shapes v (l ++ l') = s.shapes v l ∪ s.shapes v l' := by
  rw [shapes, List.map_append, List.toFinset_append]
  rfl

theorem shape_combined (hs : s.Valid v) (hk : n.connective? = some k)
    (hl : s.list? n.number = some l) : s.shape v n = .of (.group k (s.shapes v l)) :=
  fold_combined hs hk hl

/-- A valid node has the same shape where the lists of its store and its words are kept. -/
theorem shape_of_list? (hs : s.Valid v) (within : v.Within v')
    (keeps : ∀ {id l}, s.list? id = some l → t.list? id = some l) (hn : s.ValidNode v n) :
    t.shape v' n = s.shape v n := by
  refine fold_of_list? (g := v.shaping) hs (fun n code => ?_) keeps hn
  obtain ⟨l, code⟩ := Vocabulary.encodes_iff.1 code
  show (v'.spellLeaf n).shape = (v.spellLeaf n).shape
  rw [code.spellLeaf, (within.codes code).spellLeaf]

theorem shapes_of_list? (hs : s.Valid v) (within : v.Within v')
    (keeps : ∀ {id l}, s.list? id = some l → t.list? id = some l)
    (valid : ∀ m ∈ l, s.ValidNode v m) : t.shapes v' l = s.shapes v l := by
  rw [shapes, shapes, List.map_congr_left fun m hm => shape_of_list? hs within keeps (valid m hm)]

/-! ## What a shape tells -/

theorem ValidNode.shape_cases (hs : s.Valid v) (hn : s.ValidNode v n) :
    (∃ c, n = .ofConstant c ∧ s.shape v n = .of (.constant c)) ∨
    (∃ l, v.Codes l n ∧ s.shape v n = .of (.leaf l)) ∨
    ∃ k l, n.connective? = some k ∧ s.list? n.number = some l ∧ Consolidated k l ∧
      s.shape v n = .of (.group k (s.shapes v l)) := by
  cases hn with
  | constant hn =>
    left
    rcases Node.isConstant_iff.1 hn with rfl | rfl
    · exact ⟨.all, rfl, shape_ofConstant .all⟩
    · exact ⟨.none, rfl, shape_ofConstant .none⟩
  | leaf code =>
    obtain ⟨l, code⟩ := Vocabulary.encodes_iff.1 code
    exact .inr (.inl ⟨l, code, shape_of_codes code⟩)
  | combined hk hl hc => exact .inr (.inr ⟨_, _, hk, hl, hc, shape_combined hs hk hl⟩)

namespace ValidNode

theorem shape_eq_constant_iff (hs : s.Valid v) (hn : s.ValidNode v n) {c : Constant} :
    s.shape v n = .of (.constant c) ↔ n = .ofConstant c := by
  refine ⟨fun eq => ?_, fun eq => eq ▸ shape_ofConstant c⟩
  rcases hn.shape_cases hs with ⟨c', rfl, same⟩ | ⟨l, -, same⟩ | ⟨k, l, -, -, -, same⟩
  · obtain rfl : c' = c := by simpa [same] using eq
    rfl
  · simp [same] at eq
  · simp [same] at eq

theorem codes_of_shape_eq (hs : s.Valid v) (hn : s.ValidNode v n) {l : Leaf}
    (eq : s.shape v n = .of (.leaf l)) : v.Codes l n := by
  rcases hn.shape_cases hs with ⟨c, rfl, same⟩ | ⟨l', code, same⟩ | ⟨k, l, -, -, -, same⟩
  · simp [same] at eq
  · obtain rfl : l' = l := by simpa [same] using eq
    exact code
  · simp [same] at eq

theorem list_of_shape_eq (hs : s.Valid v) (hn : s.ValidNode v n) {S : Finset Shape}
    (eq : s.shape v n = .of (.group k S)) : n.connective? = some k ∧
      ∃ l, s.list? n.number = some l ∧ Consolidated k l ∧ s.shapes v l = S := by
  rcases hn.shape_cases hs with ⟨c, rfl, same⟩ | ⟨l, -, same⟩ | ⟨k', l, hk, hl, hc, same⟩
  · simp [same] at eq
  · simp [same] at eq
  · obtain ⟨rfl, shapes⟩ : k' = k ∧ s.shapes v l = S := by simpa [same] using eq
    exact ⟨hk, l, hl, hc, shapes⟩

end ValidNode

/-- If members that have the same shape are the same, so are ascending lists of the same shapes. -/
theorem eq_of_shapes_inj (asc : Ascending l) (asc' : Ascending l')
    (inj : ∀ x ∈ l, ∀ y ∈ l', s.shape v x = s.shape v y → x = y)
    (eq : s.shapes v l = s.shapes v l') : l = l' := by
  refine asc.eq_of_mem_iff asc' fun x => ⟨fun hx => ?_, fun hx => ?_⟩
  · have shape : s.shape v x ∈ s.shapes v l' := eq ▸ mem_shapes.2 ⟨x, hx, rfl⟩
    obtain ⟨y, hy, same⟩ := mem_shapes.1 shape
    rwa [inj x hx y hy same.symm]
  · have shape : s.shape v x ∈ s.shapes v l := eq ▸ mem_shapes.2 ⟨x, hx, rfl⟩
    obtain ⟨y, hy, same⟩ := mem_shapes.1 shape
    rwa [← inj y hy x hx same]

/-- Valid nodes of one store that have the same shape are the same. -/
theorem eq_of_shape_eq (hs : s.Valid v) (hm : s.ValidNode v m) (hn : s.ValidNode v n)
    (eq : s.shape v m = s.shape v n) : m = n := by
  refine hs.induction (P := fun m => ∀ n, s.ValidNode v n → s.shape v m = s.shape v n → m = n)
    ?constant ?leaf ?combined hm n hn eq
  case constant =>
    intro c n hn eq
    rw [shape_ofConstant] at eq
    exact ((hn.shape_eq_constant_iff hs).1 eq.symm).symm
  case leaf =>
    intro m l code n hn eq
    rw [shape_of_codes code] at eq
    exact code.node_unique (hn.codes_of_shape_eq hs eq.symm)
  case combined =>
    intro m k l hm hk hl members n hn eq
    rw [shape_combined hs hk hl] at eq
    obtain ⟨hk', l', hl', hc', same⟩ := hn.list_of_shape_eq hs eq.symm
    obtain ⟨l'', list, hc⟩ := hm.list? hk
    rw [hl] at list
    cases list
    obtain rfl : l = l' := eq_of_shapes_inj hc.ascending hc'.ascending
      (fun x hx y hy => (members x hx).2.2 y (hs.members _ _ hl' y hy)) same.symm
    have number : m.number = n.number := number_unique hl hl'
    rw [← Node.combined_number hk, ← Node.combined_number hk', number]

/-- Ascending lists of valid nodes that have the same shapes are the same. -/
theorem eq_of_shapes_eq (hs : s.Valid v) (asc : Ascending l) (asc' : Ascending l')
    (valid : ∀ m ∈ l, s.ValidNode v m) (valid' : ∀ m ∈ l', s.ValidNode v m)
    (eq : s.shapes v l = s.shapes v l') : l = l' :=
  eq_of_shapes_inj asc asc'
    (fun x hx y hy => eq_of_shape_eq hs (valid x hx) (valid' y hy)) eq

theorem nodup_shapes (hs : s.Valid v) (asc : Ascending l) (valid : ∀ m ∈ l, s.ValidNode v m) :
    (l.map (s.shape v)).Nodup :=
  (Ascending.nodup asc).map_on fun x hx y hy => eq_of_shape_eq hs (valid x hx) (valid y hy)

/-! ## Consolidation -/

theorem lift_shape (hs : s.Valid v) (hn : s.ValidNode v n) (ne : n.connective? ≠ some k) :
    Shape.lift k (s.shape v n) = {s.shape v n} :=
  Shape.lift_of_ne fun _ eq => ne (hn.list_of_shape_eq hs eq).1

/-- Lifting members lifts their shapes. -/
theorem shapes_flatten (hs : s.Valid v) (valid : ∀ m ∈ l, s.ValidNode v m)
    (eq : s.flatten k l = .ok l') : s.shapes v l' = (s.shapes v l).biUnion (Shape.lift k) := by
  induction l generalizing l' with
  | nil =>
    cases eq
    rfl
  | cons m l ih =>
    obtain ⟨front, back, hfront, hback, rfl⟩ := flatten_cons_eq_ok eq
    rw [List.forall_mem_cons] at valid
    have head : s.shapes v front = Shape.lift k (s.shape v m) := by
      split at hfront
      · next hk => rw [shape_combined hs hk (list?_of_members hfront).2, Shape.lift_group]
      · next hk =>
        cases hfront
        rw [lift_shape hs valid.1 hk]
        rfl
    rw [shapes_append, head, ih valid.2 hback, shapes_cons, Finset.biUnion_insert]

/-- Dropping the neutral constant drops its shape. -/
theorem shapes_filter (hs : s.Valid v) (valid : ∀ m ∈ l, s.ValidNode v m) :
    s.shapes v (l.filter (· ≠ k.neutralNode)) =
      (s.shapes v l).erase (.of (.constant k.neutral)) := by
  ext x
  simp only [mem_shapes, Finset.mem_erase, List.mem_filter, decide_eq_true_eq]
  constructor
  · rintro ⟨m, ⟨hm, ne⟩, rfl⟩
    exact ⟨fun eq => ne (((valid m hm).shape_eq_constant_iff hs).1 eq), m, hm, rfl⟩
  · rintro ⟨ne, m, hm, rfl⟩
    exact ⟨m, ⟨hm, fun eq => ne (((valid m hm).shape_eq_constant_iff hs).2 eq)⟩, rfl⟩

/-- Shapes decide the whole just if the members do. -/
theorem decided_shapes_iff (hs : s.Valid v) (asc : Ascending l)
    (valid : ∀ m ∈ l, s.ValidNode v m) :
    Shape.Decided k (s.shapes v l) ↔ k.absorbingNode ∈ l ∨ k.isDecided l = true := by
  have absorbing : Shape.of (.constant k.absorbing) ∈ s.shapes v l ↔ k.absorbingNode ∈ l := by
    rw [mem_shapes]
    constructor
    · rintro ⟨m, hm, eq⟩
      obtain rfl := ((valid m hm).shape_eq_constant_iff hs).1 eq
      exact hm
    · exact fun hm => ⟨_, hm, shape_ofConstant _⟩
  have leaf : ∀ a, Shape.of (.leaf a) ∈ s.shapes v l ↔ ∃ m ∈ l, v.Codes a m := by
    intro a
    rw [mem_shapes]
    refine exists_congr fun m => and_congr_right fun hm => ?_
    exact ⟨(valid m hm).codes_of_shape_eq hs, shape_of_codes⟩
  rw [Shape.Decided, absorbing, isDecided_iff asc valid]
  refine or_congr_right (exists₂_congr fun a b => ?_)
  rw [leaf, leaf]
  constructor
  · rintro ⟨⟨m, hm, code⟩, ⟨n, hn, code'⟩, decides⟩
    exact ⟨m, n, hm, hn, code, code', decides⟩
  · rintro ⟨m, n, hm, hn, code, code', decides⟩
    exact ⟨⟨m, hm, code⟩, ⟨n, hn, code'⟩, decides⟩

/-- Wrapping members that decide nothing closes their shapes. -/
theorem shape_of_wrap (hs : s.Valid v) (asc : Ascending l) (valid : ∀ m ∈ l, s.ValidNode v m)
    (undecided : ¬ Shape.Decided k (s.shapes v l)) (eq : s.wrap k l = .ok (n, t)) :
    t.shape v n = Shape.close k (s.shapes v l) := by
  unfold wrap at eq
  split at eq
  · cases eq
    exact (shape_ofConstant _).trans Shape.close_empty.symm
  · cases eq
    refine (Shape.close_singleton fun absorbing => undecided (.inl ?_)).symm
    exact mem_shapes.2 ⟨n, List.mem_singleton_self n, absorbing⟩
  · next ne_nil ne_singleton =>
    obtain ⟨⟨id, t'⟩, hreg, eq⟩ := bind_eq_ok_iff.1 eq
    obtain ⟨n', hn', eq⟩ := bind_eq_ok_iff.1 eq
    cases eq
    have two : 2 ≤ (s.shapes v l).card := by
      rw [shapes, List.toFinset_card_of_nodup (nodup_shapes hs asc valid), List.length_map]
      match l, ne_nil, ne_singleton with
      | [], ne, _ => exact (ne rfl).elim
      | [m], _, ne => exact (ne m rfl).elim
      | _ :: _ :: l, _, _ => simp
    unfold Node.ofListNumber at hn'
    split at hn'
    · cases hn'
    next le =>
    cases hn'
    have le : id ≤ Node.maxNumber := Nat.not_lt.1 le
    obtain ⟨ext, hl⟩ := extends_register hreg
    rw [← Node.number_combined (k := k) le] at hl
    rw [shape_combined (hs.register valid hreg) (Node.connective?_combined le) hl,
      shapes_of_list? hs (.refl v) ext.list? valid, Shape.close_of_two_le undecided two]

/-- Joining valid nodes comes to the absorbing constant if what is left of their shapes decides the
whole, and else wraps an ascending list of nodes that have these shapes. -/
theorem combine_shapes (hs : s.Valid v) (valid : ∀ m ∈ l, s.ValidNode v m) :
    let R := (s.shapes v l).biUnion (Shape.rest k)
    (Shape.Decided k R ∧ s.combine k l = .ok (k.absorbingNode, s)) ∨
    (¬ Shape.Decided k R ∧ ∃ r, Ascending r ∧ (∀ m ∈ r, s.ValidNode v m) ∧ s.shapes v r = R ∧
      s.combine k l = s.wrap k r) := by
  intro R
  obtain ⟨flat, hflat⟩ := exists_flatten_eq_ok (k := k) valid
  have validFlat : ∀ m ∈ Ascending.ofList flat, s.ValidNode v m := fun m hm =>
    (joins_flatten (r := fun _ => none) (c := True) hs ⟨valid, fun _ => rfl⟩ hflat).1.valid m
      (Ascending.mem_ofList.1 hm)
  have asc := Ascending.ascending_ofList flat
  have lifted : s.shapes v (Ascending.ofList flat) = (s.shapes v l).biUnion (Shape.lift k) := by
    rw [← shapes_flatten hs valid hflat]
    ext x
    simp only [mem_shapes, Ascending.mem_ofList]
  have left : s.shapes v ((Ascending.ofList flat).filter (· ≠ k.neutralNode)) = R := by
    rw [shapes_filter hs validFlat, lifted, Finset.erase_biUnion]
    rfl
  have validLeft : ∀ m ∈ (Ascending.ofList flat).filter (· ≠ k.neutralNode), s.ValidNode v m :=
    fun m hm => validFlat m (List.mem_of_mem_filter hm)
  have ascLeft := asc.sublist (List.filter_sublist (p := (· ≠ k.neutralNode)))
  have decided := decided_shapes_iff (k := k) hs ascLeft validLeft
  rw [left] at decided
  have run : s.combine k l =
      if (Ascending.ofList flat).contains k.absorbingNode then .ok (k.absorbingNode, s)
      else if k.isDecided ((Ascending.ofList flat).filter (· ≠ k.neutralNode))
        then .ok (k.absorbingNode, s)
      else s.wrap k ((Ascending.ofList flat).filter (· ≠ k.neutralNode)) := by
    rw [combine, contains_invalid valid, hflat]
    rfl
  have kept : k.absorbingNode ∈ (Ascending.ofList flat).filter (· ≠ k.neutralNode) ↔
      (Ascending.ofList flat).contains k.absorbingNode = true := by
    rw [List.contains_iff_mem, List.mem_filter]
    exact and_iff_left (decide_eq_true (by cases k <;> decide))
  rw [kept] at decided
  rw [run]
  split
  · next absorbing => exact .inl ⟨decided.2 (.inl absorbing), rfl⟩
  next absorbing =>
  split
  · next isDecided => exact .inl ⟨decided.2 (.inr isDecided), rfl⟩
  next undecided =>
  refine .inr ⟨fun h => ?_, _, ascLeft, validLeft, left, rfl⟩
  exact (decided.1 h).elim absorbing undecided

/-- The node that joins members has the shape that joins their shapes. -/
theorem shape_of_combine (hs : s.Valid v) (valid : ∀ m ∈ l, s.ValidNode v m)
    (eq : s.combine k l = .ok (n, t)) : t.shape v n = Shape.join k (s.shapes v l) := by
  rw [Shape.join]
  rcases combine_shapes (k := k) hs valid with ⟨decided, run⟩ | ⟨undecided, r, asc, validLeft, left, run⟩
  · rw [run] at eq
    cases eq
    rw [Shape.close_of_decided decided]
    exact shape_ofConstant _
  · rw [run] at eq
    rw [← left] at undecided ⊢
    exact shape_of_wrap hs asc validLeft undecided eq

/-- Joining valid nodes gives a valid node with the shape that joins their shapes. -/
theorem ensures_combine_shape (valid : ∀ m ∈ l, s.ValidNode v m) :
    (growth v).Ensures (Build.combine k l) s fun n t =>
      t.ValidNode v n ∧ t.shape v n = Shape.join k (s.shapes v l) :=
  ensures_combine_of_eq valid fun _ _ hs eq =>
    ⟨(valid_of_combine hs valid eq).2.2, shape_of_combine hs valid eq⟩

/-! ## Nodes of the same shape -/

/-- Valid nodes of two stores that have the same shape spell the same, up to the order of
members. -/
theorem rearranged_of_shape_eq (hs : s.Valid v) (ht : t.Valid v') (hm : s.ValidNode v m)
    (hn : t.ValidNode v' n) (eq : s.shape v m = t.shape v' n) :
    (s.spell v m).Rearranged (t.spell v' n) := by
  refine hs.induction (P := fun m => ∀ n, t.ValidNode v' n → s.shape v m = t.shape v' n →
    (s.spell v m).Rearranged (t.spell v' n)) ?constant ?leaf ?combined hm n hn eq
  case constant =>
    intro c n hn eq
    rw [shape_ofConstant] at eq
    obtain rfl := (hn.shape_eq_constant_iff ht).1 eq.symm
    rw [spell_ofConstant, spell_ofConstant]
    exact .refl
  case leaf =>
    intro m l code n hn eq
    rw [shape_of_codes code] at eq
    rw [spell_of_codes code, spell_of_codes (hn.codes_of_shape_eq ht eq.symm)]
    exact .refl
  case combined =>
    intro m k l hm hk hl members n hn eq
    rw [shape_combined hs hk hl] at eq
    obtain ⟨hk', l', hl', hc', same⟩ := hn.list_of_shape_eq ht eq.symm
    obtain ⟨l'', list, hc⟩ := hm.list? hk
    rw [hl] at list
    cases list
    -- Members have different shapes, so the same set of shapes is the same list up to order.
    have perm : (l.map (s.shape v)).Perm (l'.map (t.shape v')) :=
      List.perm_of_nodup_nodup_toFinset_eq
        (nodup_shapes hs hc.ascending (hs.members _ _ hl))
        (nodup_shapes ht hc'.ascending (ht.members _ _ hl')) same.symm
    have paired : List.Forall₂ (fun x n => t.ValidNode v' n ∧ x = t.shape v' n)
        (l'.map (t.shape v')) l' :=
      List.forall₂_map_left_iff.2 (List.forall₂_same.2 fun n hn => ⟨ht.members _ _ hl' n hn, rfl⟩)
    obtain ⟨arranged, each, perm'⟩ := List.perm_comp_forall₂ perm paired
    rw [List.forall₂_map_left_iff] at each
    rw [spell_combined hs hk hl, spell_combined ht hk' hl']
    refine Expression.Rearranged.combined ?_ (perm'.map _)
    rw [List.forall₂_map_left_iff, List.forall₂_map_right_iff]
    exact forall₂_imp_of_mem each fun m hm n ⟨hn, eq⟩ => (members m hm).2.2 n hn eq

/-- So they mean the same. -/
theorem holds_of_shape_eq (hs : s.Valid v) (ht : t.Valid v') (hm : s.ValidNode v m)
    (hn : t.ValidNode v' n) (eq : s.shape v m = t.shape v' n) (r : Record) :
    t.holds (v'.holds r) n = s.holds (v.holds r) m := by
  rw [← holds_spell hs hm, ← holds_spell ht hn]
  exact ((rearranged_of_shape_eq hs ht hm hn eq).holds_eq r).symm

end Store

/-! ## In a forest -/

namespace Forest

variable {f g : Forest} {n : Node}

/-- The shape of a node in a forest. -/
noncomputable def shape (f : Forest) (n : Node) : Shape := f.store.shape f.vocabulary n

theorem shape_of_extends (hf : f.Valid) (le : f.Extends g) (hn : f.ValidNode n) :
    g.shape n = f.shape n := by
  unfold shape
  rw [le.vocabulary_eq]
  exact Store.shape_of_list? hf.store (.refl _) le.store.list? hn

/-- A valid node of a given shape. -/
structure Has (f : Forest) (n : Node) (x : Shape) : Prop where
  valid : f.ValidNode n
  shape_eq : f.shape n = x

namespace Has

theorem stable {x : Shape} (hf : f.Valid) (le : f.Extends g) (h : f.Has n x) : g.Has n x :=
  ⟨validNode_of_extends le h.valid, (shape_of_extends hf le h.valid).trans h.shape_eq⟩

theorem ofConstant (c : Constant) : f.Has (.ofConstant c) (.of (.constant c)) :=
  ⟨.constant (by cases c <;> decide), Store.shape_ofConstant c⟩

theorem of_codes {l : Leaf} (code : f.vocabulary.Codes l n) : f.Has n (.of (.leaf l)) :=
  ⟨.leaf (Vocabulary.encodes_iff.2 ⟨l, code⟩), Store.shape_of_codes code⟩

/-- Nodes of given shapes have the set of them. -/
theorem shapes_eq {α : Type} {shape : α → Shape} {as : List α} {ns : List Node}
    (h : List.Forall₂ (fun a n => f.Has n (shape a)) as ns) :
    (∀ n ∈ ns, f.ValidNode n) ∧
      f.store.shapes f.vocabulary ns = (as.map shape).toFinset := by
  constructor
  · intro n hn
    obtain ⟨a, -, has⟩ := exists_of_mem_forall₂ h hn
    exact has.valid
  · rw [Store.shapes]
    congr 1
    rw [← List.forall₂_eq_eq_eq, List.forall₂_map_left_iff, List.forall₂_map_right_iff]
    exact h.flip.imp fun n a has => has.shape_eq

end Has

end Forest

end Criteria
