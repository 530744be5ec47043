import Criteria.Proofs.Isomorphism
import Criteria.Proofs.Construction

/-!
# Planting what was read back in a forest of its own

An expression that was planted is read back, and what was read is planted in a new forest, over the
words that are left in it.

**Theorem (`Forest.transplanting`).** This succeeds, and the second forest reads back the same
expression up to the order of members. The order may change: words are numbered anew, and so are
lists, and members are ordered by these numbers (`Sample.collapsing_transplanted`).

The words fit, because there are no more of them than before. That there are numbers enough takes a
count of lists. Each list of the new forest has the shapes of a list of the old one
(`Store.Echoes`), and no two of one store have the same shapes. So when the new store is full, there
is a list of each shape that was to be planted (`Echoes.exists_of_full`).
-/

namespace Criteria

namespace Store

variable {v v' : Vocabulary} {s t u : Store} {k : Connective} {n : Node} {l ns : List Node}
  {id : Nat}

/-! ## Lists of the same shapes -/

/-- Every list of `t` is there, and has the shapes of a list of `s`. -/
def Echoes (s : Store) (v : Vocabulary) (t : Store) (v' : Vocabulary) : Prop :=
  ∀ id < t.size, ∃ l, t.list? id = some l ∧ Ascending l ∧
    ∃ id' l', s.list? id' = some l' ∧ s.shapes v l' = t.shapes v' l

theorem echoes_empty (threshold : Nat) : s.Echoes v (empty threshold) v' :=
  fun _ lt => (Nat.not_lt_zero _ lt).elim

namespace Echoes

/-- If all numbers are issued, there is a list of the shapes of each list that is echoed. -/
theorem exists_of_full (h : s.Echoes v t v') (hs : s.Valid v) (ht : t.Valid v')
    (full : Node.maxNumber < t.size) (hl : s.list? id = some l) :
    ∃ id' l', t.list? id' = some l' ∧ Ascending l' ∧ t.shapes v' l' = s.shapes v l := by
  have echo : ∀ i : Fin t.size, ∃ (j : Fin s.size) (l l' : List Node), t.list? i = some l ∧
      Ascending l ∧ s.list? j = some l' ∧ s.shapes v l' = t.shapes v' l := by
    intro i
    obtain ⟨l, hl, asc, id, l', hl', same⟩ := h i i.isLt
    exact ⟨⟨id, s.lt_size_of_list? hl'⟩, l, l', hl, asc, hl', same⟩
  choose place list list' hlist asc hlist' same using echo
  have injective : Function.Injective place := by
    intro i j eq
    have lists : list' i = list' j := by
      have := hlist' i
      rw [eq, hlist' j] at this
      exact (Option.some.inj this).symm
    have shapes : t.shapes v' (list i) = t.shapes v' (list j) := by
      rw [← same i, ← same j, lists]
    have lists := eq_of_shapes_eq ht (asc i) (asc j) (ht.members _ _ (hlist i))
      (ht.members _ _ (hlist j)) shapes
    exact Fin.ext (number_unique (hlist i) (lists ▸ hlist j))
  have card : Fintype.card (Fin t.size) = Fintype.card (Fin s.size) := by
    have le := Fintype.card_le_of_injective place injective
    have size := hs.size_le
    rw [Fintype.card_fin, Fintype.card_fin] at le ⊢
    omega
  obtain ⟨i, hi⟩ := ((Fintype.bijective_iff_injective_and_card place).2 ⟨injective, card⟩).2
    ⟨id, s.lt_size_of_list? hl⟩
  have eq : s.list? id = some (list' i) := by
    have := hlist' i
    rwa [hi] at this
  cases hl.symm.trans eq
  exact ⟨i, list i, hlist i, asc i, (same i).symm⟩

/-- A list that is registered under a new number is to have the shapes of a list of `s`. -/
theorem register (h : s.Echoes v t v') (ht : t.Valid v') (asc : Ascending ns)
    (valid : ∀ m ∈ ns, t.ValidNode v' m) (hl : s.list? id = some l)
    (same : t.shapes v' ns = s.shapes v l) {id' : Nat} (run : t.register ns = .ok (id', u)) :
    s.Echoes v u v' := by
  obtain ⟨ext, list⟩ := extends_register run
  have keeps : ∀ {l : List Node}, (∀ m ∈ l, t.ValidNode v' m) →
      u.shapes v' l = t.shapes v' l := shapes_of_list? ht (.refl v') ext.list?
  intro i lt
  by_cases old : i < t.size
  · obtain ⟨l₁, hl₁, asc₁, i', l', hl', same'⟩ := h i old
    refine ⟨l₁, ext.list? hl₁, asc₁, i', l', hl', ?_⟩
    rw [same', keeps (ht.members _ _ hl₁)]
  · rcases size_register run with eq | ⟨eq, rfl⟩
    · exact (old (eq ▸ lt)).elim
    · obtain rfl : i = t.size := by omega
      exact ⟨ns, list, asc, id, l, hl, by rw [keeps valid, same]⟩

end Echoes

/-- Stores that only list what is in another store under other numbers never run out of numbers. -/
def echoing (s : Store) (v v' : Vocabulary) : Growth Fault Store where
  valid t := t.Valid v' ∧ s.Echoes v t v'
  le := Extends
  fails _ _ := False
  refl := .refl
  trans := .trans

/-- The shapes of a consolidated list have nothing to lift, to drop or to decide. -/
theorem rest_shapes (hs : s.Valid v) (hc : Consolidated k l) (valid : ∀ m ∈ l, s.ValidNode v m) :
    (s.shapes v l).biUnion (Shape.rest k) = s.shapes v l ∧
      ¬ Shape.Decided k (s.shapes v l) ∧ 2 ≤ (s.shapes v l).card := by
  refine ⟨?_, fun decided => ?_, ?_⟩
  · have rest : ∀ x ∈ s.shapes v l, Shape.rest k x = {x} := by
      intro x hx
      obtain ⟨m, hm, rfl⟩ := mem_shapes.1 hx
      have ne : s.shape v m ≠ .of (.constant k.neutral) := by
        rw [Ne, (valid m hm).shape_eq_constant_iff hs]
        rintro rfl
        have := hc.not_isConstant hm
        cases k <;> cases this
      rw [Shape.rest, lift_shape hs (valid m hm) (hc.lifted m hm), Finset.erase_eq_of_notMem]
      exact fun mem => ne (Finset.mem_singleton.1 mem).symm
    rw [Finset.biUnion_congr rfl rest, Finset.biUnion_singleton_eq_self]
  · rcases (decided_shapes_iff hs hc.ascending valid).1 decided with mem | decided
    · have := hc.not_isConstant mem
      cases k <;> cases this
    · rw [hc.undecided] at decided
      cases decided
  · rw [shapes, List.toFinset_card_of_nodup (nodup_shapes hs hc.ascending valid), List.length_map]
    exact hc.two_le

/-- Nodes of the shapes of a list are joined to a node that has these shapes for members. -/
theorem ensures_combine_echo (hs : s.Valid v) (hc : Consolidated k l) (hl : s.list? id = some l)
    (valid : ∀ m ∈ ns, t.ValidNode v' m) (same : t.shapes v' ns = s.shapes v l) :
    (echoing s v v').Ensures (Build.combine k ns) t fun n u =>
      u.ValidNode v' n ∧ u.shape v' n = .of (.group k (s.shapes v l)) := by
  rintro ⟨ht, echoes⟩
  obtain ⟨rest, undecided, two⟩ := rest_shapes hs hc (hs.members _ _ hl)
  have joined := combine_shapes (k := k) ht valid
  rw [same, rest] at joined
  obtain ⟨r, asc, validR, shapes, run⟩ := (joined.resolve_left fun h => undecided h.1).2
  have ensures := ensures_combine_shape (k := k) valid ht
  rw [same, Shape.join, rest, Shape.close_of_two_le undecided two] at ensures
  unfold Build.combine at ensures ⊢
  cases eq : t.combine k ns with
  | ok result =>
    obtain ⟨n, u⟩ := result
    rw [eq] at ensures
    obtain ⟨hu, le, h⟩ := ensures
    refine ⟨⟨hu, ?_⟩, le, h⟩
    rw [run] at eq
    rcases wrap_cases t k r with ⟨-, m, wrapped⟩ | ⟨-, wrapped⟩
    · cases wrapped.symm.trans eq
      exact echoes
    · rw [wrapped] at eq
      obtain ⟨⟨id', u'⟩, registered, eq⟩ := bind_eq_ok_iff.1 eq
      obtain ⟨m, -, eq⟩ := bind_eq_ok_iff.1 eq
      cases eq
      exact echoes.register ht asc validR hl shapes registered
  | error fault =>
    have full := (exhausted_of_combine ht valid eq).full
    obtain ⟨id', l', hl', asc', shapes'⟩ := echoes.exists_of_full hs ht full hl
    obtain rfl : r = l' := eq_of_shapes_eq ht asc asc' validR (ht.members _ _ hl')
      (shapes.trans shapes'.symm)
    -- The list is there, so it needs no new number.
    have found := (find?_eq_some_iff t r id').2 hl'
    have le : id' ≤ Node.maxNumber := by
      have := t.lt_size_of_list? hl'
      have := ht.size_le
      omega
    rw [run] at eq
    rcases wrap_cases t k r with ⟨-, m, wrapped⟩ | ⟨-, wrapped⟩
    · cases wrapped.symm.trans eq
    · rw [wrapped, register_of_find? (contains_invalid validR) found] at eq
      simp only [bind, Except.bind, Node.ofListNumber, if_neg (Nat.not_lt.2 le)] at eq
      cases eq

end Store

namespace Forest

variable {f g : Forest} {e : Expression} {n : Node} {l : List Node}

/-! ## Planting -/

/-- Forests that only list what is in another, under other numbers. -/
def echoing (f : Forest) : Growth Fault Forest where
  valid g := g.Valid ∧ f.store.Echoes f.vocabulary g.store g.vocabulary
  le := Extends
  fails _ _ := False
  refl := .refl
  trans := .trans

theorem ensures_build_echo {x : Build Node} {shape : Shape}
    (h : (f.store.echoing f.vocabulary g.vocabulary).Ensures x g.store fun n s =>
      s.ValidNode g.vocabulary n ∧ s.shape g.vocabulary n = shape) :
    (echoing f).Ensures (build x) g fun n h => h.Has n shape := by
  obtain ⟨t, s, roots⟩ := g
  refine h.lift (⟨t, ·, roots⟩) id ?_ (fun ⟨hg, echoes⟩ => ⟨hg.store, echoes⟩)
    (fun ⟨hg, _⟩ s' ⟨valid, echoes⟩ le => ?_) (fun _ _ _ fails => fails)
    (fun _ _ _ _ ⟨valid, same⟩ => ⟨valid, same⟩)
  · simp only [build]
    cases x s <;> rfl
  · exact ⟨⟨⟨valid, hg.translator, fun n hn => (hg.roots n hn).mono le⟩, echoes⟩, rfl, le, rfl⟩

theorem ensures_encodeAll_echo
    (each : ∀ m ∈ l, ∀ g : Forest, (∀ c ∈ (f.spell m).comparisons, g.vocabulary.Covers c) →
      (echoing f).Ensures (encode (f.spell m)) g fun n h => h.Has n (f.shape m))
    (covers : ∀ m ∈ l, ∀ c ∈ (f.spell m).comparisons, g.vocabulary.Covers c) :
    (echoing f).Ensures (encodeAll (l.map f.spell)) g fun ns h =>
      List.Forall₂ (fun m n => h.Has n (f.shape m)) l ns := by
  induction l generalizing g with
  | nil => exact .pure fun _ => .nil
  | cons m l ih =>
    rw [List.forall_mem_cons] at each covers
    rw [List.map_cons, encodeAll]
    refine (each.1 g covers.1).bind fun n g₁ hg₁ le₁ head => ?_
    have covers₁ := fun m hm => le₁.vocabulary_eq ▸ covers.2 m hm
    refine (ih each.2 covers₁).bind fun ns g₂ _ le₂ tail => .pure fun _ => ?_
    exact .cons (head.stable hg₁.1 le₂) tail

/-- What a valid node spells is planted, over any words among which its words are, as a node of the
same shape. -/
theorem ensures_encode_echo (hf : f.Valid) (hn : f.ValidNode n)
    (covers : ∀ c ∈ (f.spell n).comparisons, g.vocabulary.Covers c) :
    (echoing f).Ensures (encode (f.spell n)) g fun n' h => h.Has n' (f.shape n) := by
  refine hf.store.induction (P := fun n => ∀ g : Forest,
    (∀ c ∈ (f.spell n).comparisons, g.vocabulary.Covers c) →
      (echoing f).Ensures (encode (f.spell n)) g fun n' h => h.Has n' (f.shape n)) ?constant ?leaf
    ?combined hn g covers
  case constant =>
    intro c g _
    rw [spell, Store.spell_ofConstant, encode, shape, Store.shape_ofConstant]
    exact .pure fun _ => .ofConstant c
  case leaf =>
    intro n l code g covers
    rw [spell, Store.spell_of_codes code] at covers ⊢
    rw [shape, Store.shape_of_codes code]
    obtain ⟨n', code'⟩ :=
      Vocabulary.codes_of_covers code.isWellFormed (covers l.comparison List.mem_cons_self)
    rintro ⟨hg, echoes⟩
    obtain ⟨t, run, faithful, same⟩ := encode_of_codes hg.translator code'
    obtain ⟨valid, le⟩ := hg.withTranslator faithful same
    rw [run]
    have same : vocabulary { g with translator := t } = g.vocabulary := same
    refine ⟨⟨valid, ?_⟩, le, .of_codes ?_⟩
    · rw [same]
      exact echoes
    · rw [same]
      exact code'
  case combined =>
    intro n k l hn hk hl members g covers
    obtain ⟨l', list, hc⟩ := hn.list? hk
    cases hl.symm.trans list
    rw [spell, Store.spell_combined hf.store hk hl] at covers ⊢
    rw [comparisons_combined] at covers
    rw [encode, shape, Store.shape_combined hf.store hk hl]
    have covers : ∀ m ∈ l, ∀ c ∈ (f.spell m).comparisons, g.vocabulary.Covers c := fun m hm c mem =>
      covers c (List.mem_flatMap.2 ⟨f.spell m, List.mem_map_of_mem hm, mem⟩)
    refine (ensures_encodeAll_echo (fun m hm => (members m hm).2.2) covers).bind
      fun ns h _ _ each => ?_
    obtain ⟨valid, shapes⟩ := Has.shapes_eq each
    refine ensures_build_echo (Store.ensures_combine_echo hf.store hc hl valid ?_)
    rw [shapes]
    rfl

/-- The words of what a valid node spells are among the words that there are. -/
theorem covers_spell (hf : f.Valid) (hn : f.ValidNode n) :
    ∀ c ∈ (f.spell n).comparisons, f.vocabulary.Covers c := by
  refine hf.store.induction (P := fun n => ∀ c ∈ (f.spell n).comparisons, f.vocabulary.Covers c)
    ?constant ?leaf ?combined hn
  case constant =>
    intro c c' hc'
    rw [spell, Store.spell_ofConstant] at hc'
    cases hc'
  case leaf =>
    intro n l code c hc
    rw [spell, Store.spell_of_codes code] at hc
    obtain rfl := List.mem_singleton.1 hc
    exact code.covers
  case combined =>
    intro n k l hn hk hl members c hc
    rw [spell, Store.spell_combined hf.store hk hl, comparisons_combined] at hc
    obtain ⟨e, he, hc⟩ := List.mem_flatMap.1 hc
    obtain ⟨m, hm, rfl⟩ := List.mem_map.1 he
    exact (members m hm).2.2 c hc

/-- So there are not too many of them. -/
theorem exists_words (hf : f.Valid) (hn : f.ValidNode n) :
    ∃ w, Vocabulary.ofExpression (f.spell n) = .ok w ∧
      ∀ c ∈ (f.spell n).comparisons, w.Covers c := by
  have covers := covers_spell hf hn
  have names : (f.spell n).argumentNames.toFinset ⊆ f.vocabulary.names.set := by
    intro name hname
    obtain ⟨c, hc, mem⟩ := List.mem_flatMap.1 (Ascending.mem_ofList.1 (List.mem_toFinset.1 hname))
    exact WordList.mem_set.2 ((covers c hc).names name mem)
  have values : (f.spell n).values.toFinset ⊆ f.vocabulary.values.set := by
    intro value hvalue
    obtain ⟨c, hc, mem⟩ := List.mem_filterMap.1 (Ascending.mem_ofList.1 (List.mem_toFinset.1 hvalue))
    exact WordList.mem_set.2 ((covers c hc).values value mem)
  have names := Finset.card_le_card names
  have values := Finset.card_le_card values
  rw [Expression.card_argumentNames, WordList.card_set] at names
  rw [Expression.card_values, WordList.card_set] at values
  have names_le : f.vocabulary.names.size ≤ Node.maxNames := f.vocabulary.names_le
  have values_le : f.vocabulary.values.size ≤ Node.maxValues := f.vocabulary.values_le
  rcases Vocabulary.ofExpression_cases (f.spell n) with ⟨many, -⟩ | ⟨-, many, -⟩ | ⟨-, -, words⟩
  · omega
  · omega
  · exact words

/-- What is read back from the forest of an expression is planted in a forest of its own, and what is
read back from there is the same up to the order of members. -/
theorem transplanting (h : ofExpression e = .ok f) :
    ∃ back t g back' u, complete expressRoot f = .ok (back, { f with translator := t }) ∧
      ofExpression back = .ok g ∧
      complete expressRoot g = .ok (back', { g with translator := u }) ∧
      back.Rearranged back' := by
  obtain ⟨hf, n, roots, -⟩ := valid_ofExpression h
  have hn : f.ValidNode n := hf.roots n (roots ▸ List.mem_singleton_self n)
  obtain ⟨t, read⟩ := exists_expressRoot hf roots
  obtain ⟨w, words, covers⟩ := exists_words hf hn
  have planted : (echoing f).Ensures (encode (f.spell n)) (ofVocabulary w) _ :=
    ensures_encode_echo hf hn covers
  obtain ⟨m, g, run, ⟨hg, -⟩, -, has⟩ :=
    planted.exists_ok ⟨valid_ofVocabulary w, Store.echoes_empty _⟩ fun _ _ => id
  obtain ⟨u, read'⟩ := exists_expressRoot (f := { g with roots := [m] })
    (hg.withRoots (List.forall_mem_singleton.2 has.valid)) rfl
  refine ⟨f.spell n, t, { g with roots := [m] }, g.spell m, u, read, ?_, read', ?_⟩
  · rw [ofExpression, words]
    refine bind_eq_ok_iff.2 ⟨w, rfl, bind_eq_ok_iff.2 ⟨(m, g), ?_, rfl⟩⟩
    rw [complete, run]
  · exact Store.rearranged_of_shape_eq hf.store hg.store hn has.valid has.shape_eq.symm

end Forest

namespace Sample

/-- The vocabulary of the name `a` and the values `w` and `x`. -/
def wider : Vocabulary where
  names := vocabulary.names
  values := (WordList.empty.push "w" (by simp [WordList.number?, WordList.empty])).push "x"
    (by simp [WordList.number?, WordList.empty, WordList.push])
  names_le := vocabulary.names_le
  values_le := by rw [WordList.size_push, WordList.size_push]; decide

/-- The leaf `a = @a`. -/
def selfLeaf : Leaf := ⟨false, "a", .equals, some (.reference "a")⟩

/-- The node of `a = @a`. -/
def self : Node := .leaf false .equals true 0 0

/-- The node of `a = x` where `x` is the second value. -/
def equalSecond : Node := .leaf false .equals false 0 1

/-- The expression `(ALL OR a = w) AND a = x AND a = @a`. -/
def collapsing : Expression :=
  .combined .and [.combined .or [.constant .all, .leaf ⟨false, "a", .equals, some (.value "w")⟩],
    .leaf equalLeaf, .leaf selfLeaf]

/-- The expression `a = @a AND a = x`. -/
def collapsed : Expression := .combined .and [.leaf selfLeaf, .leaf equalLeaf]

/-- The expression `a = x AND a = @a`. -/
def swapped : Expression := .combined .and [.leaf equalLeaf, .leaf selfLeaf]

theorem words_collapsing : Vocabulary.ofExpression collapsing = .ok wider := by
  have names : collapsing.argumentNames = ["a"] := rfl
  have values : collapsing.values = ["w", "x"] := rfl
  have noName : Vocabulary.empty.names.number? "a" = none := by
    simp [Vocabulary.empty, WordList.number?, WordList.empty]
  have noValue : WordList.empty.number? "w" = none := by simp [WordList.number?, WordList.empty]
  have noSecond : (WordList.empty.push "w" noValue).number? "x" = none := by
    simp [WordList.number?, WordList.empty, WordList.push]
  rw [Vocabulary.ofExpression, names, values, Vocabulary.ofLists, Vocabulary.add]
  refine bind_eq_ok_iff.2 ⟨{ vocabulary with values := .empty, values_le := Nat.zero_le _ }, ?_, ?_⟩
  · rw [List.foldlM_cons, Vocabulary.addName_of_new noName (by decide)]
    rfl
  · rw [List.foldlM_cons, Vocabulary.addValue_of_new noValue (by show 0 < 16384; decide)]
    refine bind_eq_ok_iff.2 ⟨_, rfl, ?_⟩
    rw [List.foldlM_cons, Vocabulary.addValue_of_new noSecond (by show 1 < 16384; decide)]
    rfl

/-- An AND of two leaves that is planted is read back with the members in the order of its list. -/
theorem read_pair {v : Vocabulary} {e : Expression} {s : Store} {a b : Leaf} {m n : Node}
    (words : Vocabulary.ofExpression e = .ok v)
    (planted : Forest.Planted v (.empty Store.defaultThreshold) e both s)
    (hm : v.Codes a m) (hn : v.Codes b n) (list : s.list? 0 = some [m, n]) :
    ∃ f t, Forest.ofExpression e = .ok f ∧ Forest.complete Forest.expressRoot f =
      .ok (.combined .and [.leaf a, .leaf b], { f with translator := t }) := by
  obtain ⟨u, rooted, -, rfl⟩ := planted.ofExpression words
  have hf := (Forest.valid_ofExpression rooted).1
  obtain ⟨t, read⟩ := Forest.exists_expressRoot hf rfl
  have first : Forest.spell ⟨u, s, [both]⟩ m = .leaf a := Store.spell_of_codes hm
  have second : Forest.spell ⟨u, s, [both]⟩ n = .leaf b := Store.spell_of_codes hn
  have spelled : Forest.spell ⟨u, s, [both]⟩ both =
      .combined .and ([m, n].map (Forest.spell ⟨u, s, [both]⟩)) :=
    Store.spell_combined hf.store rfl list
  rw [List.map_cons, List.map_cons, List.map_nil, first, second] at spelled
  exact ⟨_, t, rooted, spelled ▸ read⟩

theorem read_collapsing : ∃ f t, Forest.ofExpression collapsing = .ok f ∧
    Forest.complete Forest.expressRoot f = .ok (collapsed, { f with translator := t }) := by
  have second : wider.Codes equalLeaf equalSecond := .value (by decide) rfl rfl
  have refers : wider.Codes selfLeaf self := .reference (by decide) rfl rfl
  have first : wider.Codes ⟨false, "a", .equals, some (.value "w")⟩ equal :=
    .value (by decide) rfl rfl
  have all : Forest.Planted wider (.empty Store.defaultThreshold)
      (.combined .or [.constant .all, .leaf ⟨false, "a", .equals, some (.value "w")⟩]) .all
      (.empty Store.defaultThreshold) :=
    .combined (.cons (.constant .all) (.cons (.leaf first) .nil)) rfl
  have planted : Forest.Planted wider (.empty Store.defaultThreshold) collapsing both
      ((Store.empty Store.defaultThreshold).push [self, equalSecond]
        (Store.find?_eq_none (by decide))) :=
    .combined (.cons all (.cons (.leaf second) (.cons (.leaf refers) .nil)))
      (Store.combine_of_new (by rfl) (by decide) (by decide) (by decide))
  exact read_pair words_collapsing planted refers second rfl

theorem read_collapsed : ∃ g u, Forest.ofExpression collapsed = .ok g ∧
    Forest.complete Forest.expressRoot g = .ok (swapped, { g with translator := u }) := by
  have refers : vocabulary.Codes selfLeaf self := .reference (by decide) rfl rfl
  have planted : Forest.Planted vocabulary (.empty Store.defaultThreshold) collapsed both
      ((Store.empty Store.defaultThreshold).push [equal, self]
        (Store.find?_eq_none (by decide))) :=
    .combined (.cons (.leaf refers) (.cons (.leaf codes_equal) .nil))
      (Store.combine_of_new (by rfl) (by decide) (by decide) (by decide))
  exact read_pair (vocabulary_of_words rfl rfl) planted codes_equal refers rfl

/-- `w` is a value of the first forest only, so `x` has another number in the second one and comes
before `@a` there. -/
theorem collapsing_transplanted :
    ∃ f t g u, Forest.ofExpression collapsing = .ok f ∧
      Forest.complete Forest.expressRoot f = .ok (collapsed, { f with translator := t }) ∧
      Forest.ofExpression collapsed = .ok g ∧
      Forest.complete Forest.expressRoot g = .ok (swapped, { g with translator := u }) ∧
      swapped ≠ collapsed := by
  obtain ⟨f, t, planted, read⟩ := read_collapsing
  obtain ⟨g, u, planted', read'⟩ := read_collapsed
  refine ⟨f, t, g, u, planted, read, planted', read', fun eq => ?_⟩
  cases eq

/-- What is read back of the two forests is the same up to the order of members. -/
theorem collapsed_rearranged : (∃ f, Forest.ofExpression collapsing = .ok f) ∧
    collapsed.Rearranged swapped := by
  obtain ⟨f, t, planted, read⟩ := read_collapsing
  obtain ⟨g, u, planted', read'⟩ := read_collapsed
  obtain ⟨back, t', g', back', u', eq, eq', eq'', rearranged⟩ := Forest.transplanting planted
  cases read.symm.trans eq
  cases planted'.symm.trans eq'
  cases read'.symm.trans eq''
  exact ⟨⟨f, planted⟩, rearranged⟩

end Sample

end Criteria
