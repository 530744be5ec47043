import Criteria.Proofs.Load
import Criteria.Proofs.Provenance
import Criteria.Proofs.Recall
import Criteria.Proofs.Soundness

/-!
# No condition is made up

An expression *draws on* another if it is a constant or all its leaves are leaves of the other or
say that an argument of one of these is known.

**Theorem (`no_condition_made_up`).** What pruning, distributing and factoring make
of a node draws on what the node is read back as, and so does a simplified root. A simplified
expression draws on the expression, so it mentions no argument and no value that this does not.

The leaves of a node are told from its code and its lists alone. To be *made of* leaves with some
property is hereditary if the property goes from a leaf to the checks that its arguments are known
(`hereditary_madeOf`), and the codes of what an expression warrants are such leaves
(`closedUnderChecks_warrantedBy`). So every pass takes nodes that are made of them to such nodes,
and planting gives such a node to begin with.
-/

namespace Criteria

/-! ## Expressions that draw on others -/

namespace Expression

variable {e e' e'' : Expression} {l : Leaf} {name : String}

/-- A leaf of the expression, or the check that an argument of one of its leaves is known. -/
def Warrants (e : Expression) (l : Leaf) : Prop :=
  .leaf l ∈ e.leaves ∨
    ∃ l' name, .leaf l' ∈ e.leaves ∧ name ∈ l'.comparison.arguments ∧ .leaf l = isNotUnknown name

/-- A constant, or an expression that consists of leaves that another one warrants. -/
def DrawsOn (e' e : Expression) : Prop :=
  (∃ c, e' = .constant c) ∨ ∀ x ∈ e'.leaves, ∃ l, x = .leaf l ∧ e.Warrants l

theorem mem_comparisons_iff {c : Comparison} :
    c ∈ e.comparisons ↔ ∃ l, .leaf l ∈ e.leaves ∧ l.comparison = c := by
  rw [comparisons, List.mem_filterMap]
  constructor
  · rintro ⟨x, hx, eq⟩
    cases x with
    | leaf l => exact ⟨l, hx, Option.some.inj eq⟩
    | constant c => cases eq
    | combined k es => cases eq
  · rintro ⟨l, hl, rfl⟩
    exact ⟨.leaf l, hl, rfl⟩

namespace Warrants

/-- The check of an argument of a check is that check. -/
theorem known (h : e.Warrants l) (hn : name ∈ l.comparison.arguments) :
    e.Warrants ⟨true, name, .isUnknown, none⟩ := by
  rcases h with h | ⟨l', name', hl', hn', eq⟩
  · exact .inr ⟨l, name, h, hn, rfl⟩
  · cases eq
    obtain rfl : name = name' := List.mem_singleton.1 hn
    exact .inr ⟨l', name, hl', hn', rfl⟩

theorem mem_argumentNames (h : e.Warrants l) (hn : name ∈ l.comparison.arguments) :
    name ∈ e.argumentNames := by
  rcases h with h | ⟨l', name', hl', hn', eq⟩
  · exact Expression.mem_argumentNames (mem_comparisons_iff.2 ⟨l, h, rfl⟩) hn
  · cases eq
    obtain rfl : name = name' := List.mem_singleton.1 hn
    exact Expression.mem_argumentNames (mem_comparisons_iff.2 ⟨l', hl', rfl⟩) hn'

theorem mem_values {w : String} (h : e.Warrants l) (hw : w ∈ l.comparison.value?) :
    w ∈ e.values := by
  rcases h with h | ⟨l', name', -, -, eq⟩
  · exact Expression.mem_values (mem_comparisons_iff.2 ⟨l, h, rfl⟩) hw
  · cases eq
    cases hw

end Warrants

namespace DrawsOn

theorem warrants (h : e'.DrawsOn e) (hl : .leaf l ∈ e'.leaves) : e.Warrants l := by
  rcases h with ⟨c, rfl⟩ | h
  · cases List.mem_singleton.1 hl
  · obtain ⟨l', eq, warranted⟩ := h _ hl
    cases eq
    exact warranted

/-- What another one warrants is warranted by all that this draws on. -/
theorem trans (h : e''.DrawsOn e') (h' : e'.DrawsOn e) : e''.DrawsOn e := by
  refine h.imp_right fun h x hx => ?_
  obtain ⟨l, rfl, warranted⟩ := h x hx
  refine ⟨l, rfl, ?_⟩
  rcases warranted with hl | ⟨l', name, hl', hn, eq⟩
  · exact h'.warrants hl
  · cases eq
    exact (h'.warrants hl').known hn

theorem argumentNames_subset (h : e'.DrawsOn e) : e'.argumentNames ⊆ e.argumentNames := by
  intro name hn
  obtain ⟨c, hc, hn⟩ := List.mem_flatMap.1 (Ascending.mem_ofList.1 hn)
  obtain ⟨l, hl, rfl⟩ := mem_comparisons_iff.1 hc
  exact (h.warrants hl).mem_argumentNames hn

theorem values_subset (h : e'.DrawsOn e) : e'.values ⊆ e.values := by
  intro w hw
  obtain ⟨c, hc, hw⟩ := List.mem_filterMap.1 (Ascending.mem_ofList.1 hw)
  obtain ⟨l, hl, rfl⟩ := mem_comparisons_iff.1 hc
  exact (h.warrants hl).mem_values hw

end DrawsOn

end Expression

/-! ## Nodes made of some leaves -/

/-- Leaves that come with the checks that their arguments are known. -/
structure Node.ClosedUnderChecks (P : Node → Prop) : Prop where
  isLeaf : ∀ {n}, P n → n.isLeaf = true
  argument : ∀ {n m}, P n → (do (← n.unknownOfArgument).negate) = Except.ok m → P m
  reference : ∀ {n m}, P n → (do (← n.unknownOfReference).negate) = Except.ok m → P m

namespace Store

open Node (ClosedUnderChecks)

variable {P : Node → Prop} {v : Vocabulary} {s t : Store} {k : Connective} {n : Node}
  {l l' : List Node} {e : Expression}

/-- A constant, a leaf with a property, or a combined node over such nodes. -/
inductive MadeOf (P : Node → Prop) (s : Store) : Node → Prop
  | constant {n : Node} : n.isConstant = true → MadeOf P s n
  | leaf {n : Node} : P n → MadeOf P s n
  | combined {n : Node} {k : Connective} {l : List Node} : n.connective? = some k →
      s.list? n.number = some l → (∀ m ∈ l, MadeOf P s m) → MadeOf P s n

namespace MadeOf

theorem mono (le : s.Extends t) (h : s.MadeOf P n) : t.MadeOf P n := by
  induction h with
  | constant hn => exact .constant hn
  | leaf hn => exact .leaf hn
  | combined hk hl _ ih => exact .combined hk (le.list? hl) ih

theorem of_isLeaf (h : s.MadeOf P n) (leaf : n.isLeaf = true) : P n := by
  cases h with
  | constant hn =>
    rw [Node.not_isConstant_of_isLeaf leaf] at hn
    cases hn
  | leaf hn => exact hn
  | combined hk =>
    rw [Node.connective?_eq_none_iff.2 (Node.not_isCombined_of_isLeaf leaf)] at hk
    cases hk

theorem members (hP : ClosedUnderChecks P) (h : s.MadeOf P n) (hl : s.members n = .ok l) :
    ∀ m ∈ l, s.MadeOf P m := by
  obtain ⟨comb, hl⟩ := list?_of_members hl
  cases h with
  | constant hn =>
    rw [Node.not_isConstant_of_isCombined comb] at hn
    cases hn
  | leaf hn =>
    rw [Node.not_isCombined_of_isLeaf (hP.isLeaf hn)] at comb
    cases comb
  | combined _ hl' each =>
    cases hl.symm.trans hl'
    exact each

end MadeOf

/-- To be made of leaves that come with their checks is hereditary. -/
theorem hereditary_madeOf (hP : ClosedUnderChecks P) :
    Hereditary (fun _ => True) fun s n => s.MadeOf P n where
  mono := .mono
  constant := .constant
  members _ h := h.members hP
  combined := .combined
  register _ _ _ := trivial
  argument h eq := .leaf (hP.argument (h.of_isLeaf (Node.isLeaf_of_argument eq)) eq)
  reference h eq := .leaf (hP.reference (h.of_isLeaf (Node.isLeaf_of_reference eq)) eq)
  complement n := Build.adds_complementWithin _ n _

end Store

/-! ## Leaves that are warranted -/

namespace Vocabulary

variable {v : Vocabulary} {l : Leaf} {n m : Node}

/-- The code of a leaf that an expression warrants. -/
def WarrantedBy (v : Vocabulary) (e : Expression) (n : Node) : Prop :=
  ∃ l, v.Codes l n ∧ e.Warrants l

/-- The unknown check of an argument that a leaf looks at. -/
def ChecksArgumentOf (v : Vocabulary) (l : Leaf) (n : Node) : Prop :=
  ∃ name ∈ l.comparison.arguments, v.Codes ⟨false, name, .isUnknown, none⟩ n

theorem Codes.checksArgument (code : v.Codes l n) (h : n.unknownOfArgument = .ok m) :
    v.ChecksArgumentOf l m := by
  obtain ⟨op, -, eq⟩ := bind_eq_ok_iff.1 h
  cases eq
  exact ⟨l.comparison.argument, List.mem_cons_self, .check code.word_argument⟩

theorem Codes.checksReference (code : v.Codes l n) (h : n.unknownOfReference = .ok m) :
    v.ChecksArgumentOf l m := by
  obtain ⟨op, -, h⟩ := bind_eq_ok_iff.1 h
  split at h
  · cases h
  next refers =>
  cases h
  rw [Bool.or_eq_true, not_or, Bool.not_eq_true', Bool.not_eq_false] at refers
  obtain ⟨-, ref⟩ := refers
  cases code with
  | check name =>
    rw [Node.hasReference_leaf (lt_maxNames name) zero_lt_maxValues] at ref
    cases ref
  | value _ name value =>
    rw [Node.hasReference_leaf (lt_maxNames name) (lt_maxValues value)] at ref
    cases ref
  | @reference _ _ _ other _ _ _ name word =>
    rw [Node.value_leaf (lt_maxNames name) (lt_maxValues_of_name word)]
    exact ⟨other, List.mem_cons_of_mem _ (List.mem_singleton_self _), .check word⟩

/-- An expression that warrants a leaf warrants that its arguments are known. -/
theorem ChecksArgumentOf.warrantedBy {e : Expression} {m' : Node} (check : v.ChecksArgumentOf l m)
    (warranted : e.Warrants l) (negation : m.negate = .ok m') : v.WarrantedBy e m' := by
  obtain ⟨name, hn, code⟩ := check
  rw [Node.negate_of_isLeaf code.isLeaf] at negation
  cases negation
  exact ⟨_, code.flip, warranted.known hn⟩

theorem closedUnderChecks_warrantedBy (v : Vocabulary) (e : Expression) :
    Node.ClosedUnderChecks (v.WarrantedBy e) where
  isLeaf := fun ⟨_, code, _⟩ => code.isLeaf
  argument := by
    rintro n m ⟨l, code, warranted⟩ known
    obtain ⟨u, hu, negation⟩ := bind_eq_ok_iff.1 known
    exact (code.checksArgument hu).warrantedBy warranted negation
  reference := by
    rintro n m ⟨l, code, warranted⟩ known
    obtain ⟨u, hu, negation⟩ := bind_eq_ok_iff.1 known
    exact (code.checksReference hu).warrantedBy warranted negation

end Vocabulary

namespace Store

variable {v : Vocabulary} {s t : Store} {k : Connective} {n : Node} {l : List Node}
  {e : Expression}

/-- A node that is made of the leaves that an expression warrants. -/
def Inherits (v : Vocabulary) (e : Expression) (s : Store) (n : Node) : Prop :=
  s.MadeOf (v.WarrantedBy e) n

theorem hereditary_inherits (v : Vocabulary) (e : Expression) :
    Hereditary (fun _ => True) (Inherits v e) :=
  hereditary_madeOf (v.closedUnderChecks_warrantedBy e)

/-- No constant is a member of a node, so none is met in what a node spells unless it is one. -/
theorem leaves_spell (hs : s.Valid v) (hn : s.ValidNode v n) : n.isConstant = true ∨
    ∀ x ∈ (s.spell v n).leaves, ∃ l, x = .leaf l := by
  refine hs.induction (P := fun n => n.isConstant = true ∨
    ∀ x ∈ (s.spell v n).leaves, ∃ l, x = .leaf l) ?constant ?leaf ?combined hn
  case constant =>
    intro c
    exact .inl (by cases c <;> decide)
  case leaf =>
    intro n l code
    rw [spell_of_codes code]
    exact .inr fun x hx => ⟨l, List.mem_singleton.1 hx⟩
  case combined =>
    intro n k l hn hk hl members
    obtain ⟨l', hl', hc⟩ := hn.list? hk
    cases hl.symm.trans hl'
    rw [spell_combined hs hk hl]
    refine .inr fun x hx => ?_
    obtain ⟨e, he, hx⟩ := Expression.mem_leaves_combined.1 hx
    obtain ⟨m, hm, rfl⟩ := List.mem_map.1 he
    refine (members m hm).2.2.resolve_left ?_ x hx
    rw [hc.not_isConstant hm]
    exact Bool.false_ne_true

/-- What a node is made of is seen in the leaves of what it spells. -/
theorem inherits_iff (hs : s.Valid v) (hn : s.ValidNode v n) :
    Inherits v e s n ↔ ∀ l, .leaf l ∈ (s.spell v n).leaves → e.Warrants l := by
  refine hs.induction (P := fun n => Inherits v e s n ↔
    ∀ l, .leaf l ∈ (s.spell v n).leaves → e.Warrants l) ?constant ?leaf ?combined hn
  case constant =>
    intro c
    rw [spell_ofConstant]
    refine ⟨fun _ l hl => ?_, fun _ => .constant (by cases c <;> decide)⟩
    cases List.mem_singleton.1 hl
  case leaf =>
    intro n l code
    rw [spell_of_codes code]
    constructor
    · intro h l' hl'
      cases List.mem_singleton.1 hl'
      obtain ⟨l', code', warranted⟩ := h.of_isLeaf code.isLeaf
      rwa [code.leaf_unique code']
    · intro h
      exact .leaf ⟨l, code, h l (List.mem_singleton_self _)⟩
  case combined =>
    intro n k l hn hk hl members
    have each : Inherits v e s n ↔ ∀ m ∈ l, Inherits v e s m :=
      ⟨fun h => (hereditary_inherits v e).members trivial h (members_eq_ok hk hl), .combined hk hl⟩
    rw [each, spell_combined hs hk hl]
    constructor
    · intro h x hx
      obtain ⟨e', he', hx⟩ := Expression.mem_leaves_combined.1 hx
      obtain ⟨m, hm, rfl⟩ := List.mem_map.1 he'
      exact (members m hm).2.2.1 (h m hm) x hx
    · intro h m hm
      refine (members m hm).2.2.2 fun x hx => h x ?_
      exact Expression.mem_leaves_combined.2 ⟨_, List.mem_map.2 ⟨m, hm, rfl⟩, hx⟩

theorem Inherits.drawsOn (hs : s.Valid v) (hn : s.ValidNode v n) (h : Inherits v e s n) :
    (s.spell v n).DrawsOn e := by
  rcases leaves_spell hs hn with constant | leaves
  · refine .inl ?_
    rcases Node.isConstant_iff.1 constant with rfl | rfl
    · exact ⟨.all, spell_ofConstant .all⟩
    · exact ⟨.none, spell_ofConstant .none⟩
  · refine .inr fun x hx => ?_
    obtain ⟨l, rfl⟩ := leaves x hx
    exact ⟨l, rfl, (inherits_iff hs hn).1 h l hx⟩

/-- A node is made of leaves of its own. -/
theorem inherits_spell (hs : s.Valid v) (hn : s.ValidNode v n) : Inherits v (s.spell v n) s n :=
  (inherits_iff hs hn).2 fun _ hl => .inl hl

end Store

/-! ## Planting -/

namespace Forest

variable {f g : Forest} {n n' : Node} {e : Expression} {budget budget' : Budget}

/-- A valid node that is made of the leaves that an expression warrants. -/
def Inherits (e : Expression) (f : Forest) (n : Node) : Prop :=
  f.ValidNode n ∧ Store.Inherits f.vocabulary e f.store n

theorem Inherits.of_extends (le : f.Extends g) (h : f.Inherits e n) : g.Inherits e n := by
  refine ⟨validNode_of_extends le h.1, ?_⟩
  rw [le.vocabulary_eq]
  exact h.2.mono le.store

mutual

/-- The node of an expression is made of its leaves. -/
theorem ensures_encode_inherits (e' : Expression) (f : Forest)
    (warranted : ∀ l, .leaf l ∈ e'.leaves → e.Warrants l) :
    growth.Ensures (encode e') f fun n g => g.Inherits e n := by
  match e' with
  | .constant c =>
    rw [encode]
    have constant : (Node.ofConstant c).isConstant = true := by cases c <;> decide
    exact .pure fun _ => ⟨.constant constant, .constant constant⟩
  | .leaf l =>
    rw [encode]
    refine (ensures_translate Translator.ensures_encodeLeaf).mono fun n g _ _ code => ?_
    have here := warranted l (List.mem_singleton_self _)
    exact ⟨.leaf (Vocabulary.encodes_iff.2 ⟨l, code⟩), .leaf ⟨l, code, here⟩⟩
  | .combined k es =>
    rw [encode]
    refine (ensures_encodeAll_inherits es f fun e' he' l hl => warranted l ?_).bind
      fun ns g _ _ each => ?_
    · exact Expression.mem_leaves_combined.2 ⟨e', he', hl⟩
    have valid : ∀ n ∈ ns, g.store.ValidNode g.vocabulary n := fun n hn => (each n hn).1
    have hereditary := Store.hereditary_inherits g.vocabulary e
    refine (ensures_build (Store.ensures_combine_of_eq valid fun n s hg eq => And.intro
      (Store.valid_of_combine hg valid eq).2.2
      (hereditary.combine trivial (fun n hn => (each n hn).2) eq).2)).mono fun n h _ _ ⟨same, hn⟩ => ?_
    unfold Inherits ValidNode
    rw [same]
    exact hn

theorem ensures_encodeAll_inherits (es : List Expression) (f : Forest)
    (warranted : ∀ e' ∈ es, ∀ l, .leaf l ∈ e'.leaves → e.Warrants l) :
    growth.Ensures (encodeAll es) f fun ns g => ∀ n ∈ ns, g.Inherits e n := by
  match es with
  | [] =>
    rw [encodeAll]
    exact .pure fun _ => by simp
  | e' :: es =>
    rw [List.forall_mem_cons] at warranted
    rw [encodeAll]
    refine (ensures_encode_inherits e' f warranted.1).bind fun n g _ _ head => ?_
    refine (ensures_encodeAll_inherits es g warranted.2).bind
      fun ns h _ le tail => .pure fun _ => ?_
    exact List.forall_mem_cons.2 ⟨head.of_extends le, tail⟩

end

/-- The root of a planted expression draws on it. -/
theorem drawsOn_of_ofExpression (h : ofExpression e = .ok f) :
    ∃ n, f.roots = [n] ∧ (f.spell n).DrawsOn e := by
  unfold ofExpression at h
  obtain ⟨v, -, h⟩ := bind_eq_ok_iff.1 h
  obtain ⟨⟨n, g⟩, run, h⟩ := bind_eq_ok_iff.1 h
  cases h
  obtain ⟨hg, -, valid, inherits⟩ := (ensures_encode_inherits (e := e) e _ fun _ => .inl).of_ok
    (valid_ofVocabulary v) (complete_eq_ok run)
  exact ⟨n, rfl, Store.Inherits.drawsOn hg.store valid inherits⟩

/-! ## Passes on a forest -/

/-- Both nodes are read back, and what the second one says draws on what the first one says. -/
def NothingNew (f : Forest) (n : Node) (g : Forest) (n' : Node) : Prop :=
  ∃ e e', outcome (express n) f = .ok e ∧ outcome (express n') g = .ok e' ∧ e'.DrawsOn e

theorem nothingNew_of_drawsOn (hf : f.Valid) (hn : f.ValidNode n) (hg : g.Valid)
    (hn' : g.ValidNode n') (h : (g.spell n').DrawsOn (f.spell n)) : f.NothingNew n g n' :=
  ⟨_, _, outcome_express hf hn, outcome_express hg hn', h⟩

/-- A pass that keeps valid nodes valid, and every hereditary property, makes nothing up. -/
theorem nothingNew_of_run {x : Pass Node} (hf : f.Valid) (hn : f.ValidNode n)
    (valid : (Work.growth f.vocabulary).Ensures x ⟨f.store, budget⟩ fun n' w =>
      w.store.ValidNode f.vocabulary n')
    (preserves : ∀ {H}, Store.Hereditary (fun _ => True) H → H f.store n →
      Work.additions.Ensures x ⟨f.store, budget⟩ fun n' w => H w.store n')
    (run : run x (f, budget) = .ok n' (g, budget')) : f.NothingNew n g n' := by
  obtain ⟨hg, -, same, hn'⟩ := (ensures_run valid).of_ok hf run
  have inherits : Store.Inherits f.vocabulary (f.spell n) g.store n' :=
    of_run_eq_ok (preserves (Store.hereditary_inherits _ _) (Store.inherits_spell hf.store hn))
      trivial run
  have hn' : g.ValidNode n' := by
    unfold ValidNode
    rw [same]
    exact hn'
  refine nothingNew_of_drawsOn hf hn hg hn' (Store.Inherits.drawsOn hg.store hn' ?_)
  rw [same]
  exact inherits

/-! ## Roots -/

/-- Each new root has the property that goes with the old one, if the pass preserves it. -/
theorem forall₂_of_mapRoots {x : Node → Pass Node} {H : Node → Store → Node → Prop}
    (hH : ∀ n, Store.Hereditary (fun _ => True) (H n))
    (hx : ∀ n, Pass.Preserves (fun _ => True) (H n) x)
    (h : ∀ n ∈ f.roots, H n f.store n) (run : mapRoots x (f, budget) = .ok () (g, budget')) :
    List.Forall₂ (fun n n' => H n g.store n') f.roots g.roots := by
  rw [mapRoots_eq] at run
  split at run
  · next ns g' budget'' run' =>
    cases run
    have each : Work.additions.Ensures (f.roots.mapM x) ⟨f.store, budget⟩ fun ns w =>
        List.Forall₂ (fun n n' => H n (Work.store w) n') f.roots ns :=
      .mapM (P := fun n w => H n (Work.store w) n) (fun n _ _ _ le h => (hH n).mono le h)
        (fun n _ _ _ _ le h => (hH n).mono le h) (fun n _ _ h => hx n h) h
    exact of_run_eq_ok each trivial run'
  · cases run

theorem vocabulary_sweepAbove (f : Forest) (threshold : Nat) :
    (f.sweepAbove threshold).2.vocabulary = f.vocabulary := by
  rcases sweepAbove_cases f threshold with eq | eq
  · rw [eq]
  · rw [eq]
    rfl

/-- A root spells after a sweep what it spelled before. -/
theorem spell_sweepAbove (hf : f.Valid) (threshold : Nat) (hn : n ∈ f.roots) :
    (f.sweepAbove threshold).2.spell n = f.spell n := by
  rcases sweepAbove_cases f threshold with eq | eq
  · rw [eq]
  · rw [eq]
    have kept := (hf.roots n hn).sweep (Store.Raw.number_mem_reachable hn)
    exact (Store.fold_of_list? (g := f.vocabulary.spelling) hf.store.sweep (fun _ _ => rfl)
      (fun h => (Store.list?_of_sweep h).2) kept).symm

/-- **Each simplified root draws on the root.** -/
theorem drawsOn_of_simplify {cleanup housekeeping : Nat} (hf : f.Valid)
    (run : simplify cleanup housekeeping (f, budget) = .ok () (g, budget')) :
    List.Forall₂ (fun n n' => (g.spell n').DrawsOn (f.spell n)) f.roots g.roots := by
  rw [simplify_eq] at run
  have hf' := hf.sweepAbove housekeeping
  have words := vocabulary_sweepAbove f housekeeping
  have roots := roots_sweepAbove f housekeeping
  have spelled : ∀ {n}, n ∈ f.roots → _ := spell_sweepAbove hf housekeeping
  generalize (f.sweepAbove housekeeping).2 = f' at *
  obtain ⟨hg, same, -⟩ := mapRoots_ok (fun r => Pass.keeps_simplify cleanup) hf' run
  have hereditary := fun n => Store.hereditary_inherits f'.vocabulary (f'.spell n)
  have inherits : List.Forall₂ (fun n n' =>
      Store.Inherits f'.vocabulary (f'.spell n) g.store n') f'.roots g.roots :=
    forall₂_of_mapRoots hereditary (fun n => Pass.preserves_simplify (hereditary n) cleanup)
      (fun n hn => Store.inherits_spell hf'.store (hf'.roots n hn)) run
  rw [← same, roots] at inherits
  refine forall₂_imp_of_mem_mem inherits fun n hn n' hn' h => ?_
  have drawn : (g.spell n').DrawsOn (f'.spell n) :=
    Store.Inherits.drawsOn hg.store (hg.roots n' hn') h
  rwa [spelled hn] at drawn

end Forest

theorem Rewriting.preserves_pass {I : Store → Prop} {H : Store → Node → Prop}
    (hH : Store.Hereditary I H) (x : Rewriting) : Pass.Preserves I H x.pass := by
  cases x with
  | prune => exact Pass.preserves_prune hH
  | distribute cleanup => exact Pass.preserves_distribute hH cleanup
  | factor => exact Pass.preserves_factor hH

/-! ## Expressions -/

/-- **A simplified expression draws on the expression.** -/
theorem Settings.drawsOn_of_simplify {settings : Settings} {clock : Nat → Nat} {e e' : Expression}
    (h : settings.simplify clock e = .ok e') : e'.DrawsOn e := by
  unfold simplify at h
  obtain ⟨f, planted, h⟩ := bind_eq_ok_iff.1 h
  obtain ⟨g, simplified, h⟩ := bind_eq_ok_iff.1 h
  obtain ⟨⟨e'', g'⟩, read, h⟩ := bind_eq_ok_iff.1 h
  cases h
  have planted := orFail_eq_ok planted
  obtain ⟨hf, -⟩ := Forest.valid_ofExpression planted
  obtain ⟨n, roots, drawn⟩ := Forest.drawsOn_of_ofExpression planted
  obtain ⟨hg, -⟩ := simplifyForest_ok hf simplified
  unfold simplifyForest at simplified
  split at simplified
  · next run =>
    cases simplified
    have each := Forest.drawsOn_of_simplify hf run
    rw [roots] at each
    obtain ⟨n', ns', drawn', -, roots'⟩ := List.forall₂_cons_left_iff.1 each
    obtain ⟨t, expressed⟩ := Forest.exists_expressRoot hg roots'
    cases (orFail_eq_ok read).symm.trans expressed
    exact drawn'.trans drawn
  · cases simplified

/-! ## What users may rely on -/

/-- In a session in which only usable nodes were handed in, a pass makes of a usable node one whose
leaves are leaves of the node or say that an argument of one of these is known; so does pruning
under any assumptions, of which nothing gets into the result; and so it is with every simplified
root. A simplified expression has no other leaves either, and mentions no argument and no value that
the expression does not mention. -/
theorem no_condition_made_up :
    (∀ x : Session, x.Reached →
      (∀ (y : Rewriting) (n : Node), x.Usable n → ∀ budget n' g budget',
        Forest.run (y.pass n) (x.forest, budget) = .ok n' (g, budget') →
          x.forest.NothingNew n g n') ∧
      (∀ (n : Node) (assumptions : List Node), x.Usable n → (∀ a ∈ assumptions, x.Usable a) →
        ∀ budget n' g budget',
          Forest.run (Pass.pruneUnder n assumptions) (x.forest, budget) = .ok n' (g, budget') →
            x.forest.NothingNew n g n') ∧
      (∀ cleanup housekeeping budget g budget',
        Forest.simplify cleanup housekeeping (x.forest, budget) = .ok () (g, budget') →
          List.Forall₂ (fun n n' => x.forest.NothingNew n g n') x.forest.roots g.roots)) ∧
    (∀ (settings : Settings) (clock : Nat → Nat) (e e' : Expression),
      settings.simplify clock e = .ok e' →
        e'.DrawsOn e ∧ e'.argumentNames ⊆ e.argumentNames ∧ e'.values ⊆ e.values) := by
  refine ⟨fun x reached => ⟨?passes, ?assuming, ?roots⟩, ?expressions⟩
  case passes =>
    intro y n usable budget n' g budget' run
    have sound := reached.sound
    have hn := sound.validNode usable
    have means : x.forest.Means (fun _ => none) n _ := .of_valid hn
    have valid := (y.keeps_pass (w := ⟨x.forest.store, budget⟩) means).mono
      fun n' w _ _ h => h.valid
    exact Forest.nothingNew_of_run sound.forest hn valid
      (fun hH h => y.preserves_pass hH (w := ⟨x.forest.store, budget⟩) h) run
  case assuming =>
    intro n assumptions usable usable' budget n' g budget' run
    have sound := reached.sound
    have hn := sound.validNode usable
    -- Whether the assumptions hold does not matter here.
    have means : ∀ m, x.Usable m → Store.Means x.forest.vocabulary (fun _ => none) False
        x.forest.store m true := fun m hm => ⟨sound.validNode hm, False.elim⟩
    have valid := (Pass.ensures_pruneUnder (w := ⟨x.forest.store, budget⟩) (means n usable)
      fun a ha => means a (usable' a ha)).mono fun n' w _ _ h => h.valid
    exact Forest.nothingNew_of_run sound.forest hn valid
      (fun hH h => Pass.preserves_pruneUnder hH assumptions (w := ⟨x.forest.store, budget⟩) h) run
  case roots =>
    intro cleanup housekeeping budget g budget' run
    have hf := reached.sound.forest
    obtain ⟨hg, -⟩ := Forest.simplify_ok hf run
    exact forall₂_imp_of_mem_mem (Forest.drawsOn_of_simplify hf run) fun n hn n' hn' drawn =>
      Forest.nothingNew_of_drawsOn hf (hf.roots n hn) hg (hg.roots n' hn') drawn
  case expressions =>
    intro settings clock e e' h
    have drawn := Settings.drawsOn_of_simplify h
    exact ⟨drawn, drawn.argumentNames_subset, drawn.values_subset⟩

/-- `a = x AND a IS NOT UNKNOWN` is pruned and simplified to one of its leaves, as a node, as a root
and as an expression. -/
theorem Sample.both_nothing_new :
    Forest.run (Pass.prune both) (session.forest, .fresh .unlimited) =
      .ok equal (session.forest, ⟨.unlimited, 6⟩) ∧
    session.forest.NothingNew both session.forest equal ∧
    List.Forall₂
      (fun n n' => session.forest.NothingNew n { session.forest with roots := [equal] } n')
      [both] [equal] ∧
    settings.simplify clock expression = .ok (.leaf equalLeaf) ∧
    (Expression.leaf equalLeaf).DrawsOn expression := by
  have run : Forest.run (Pass.prune both) (session.forest, .fresh .unlimited) =
      .ok equal (session.forest, ⟨.unlimited, 6⟩) := rfl
  obtain ⟨sessions, expressions⟩ := no_condition_made_up
  obtain ⟨passes, -, roots⟩ := sessions session reached
  obtain ⟨drawn, -⟩ := expressions _ _ _ _ simplify_expression
  have pruned := passes .prune both usable_both _ _ _ _ run
  have root := roots _ _ _ _ _ (simplified session.forest.translator)
  exact ⟨run, pruned, root, simplify_expression, drawn⟩

end Criteria
